import EndpointCompiler.Handler.Dispatcher
import EndpointCompiler.Proofs.History
import Mathlib.Data.List.Basic
import Mathlib.Data.Option.Basic

/-! Which handler serves a call, told by the handlers that have been registered. What is registered
for one way of calling leaves the other as it was. -/

namespace EndpointCompiler

/-- A handler that is registered for a key and a way of calling. -/
structure Registration where
  mode : BridgeMode
  key : RequestKey
  handler : Handler

/-- What a registration takes the place of. -/
def Registration.slot (g : Registration) : BridgeMode × RequestKey :=
  (g.mode, g.key)

/-- A handler is the last that was registered for a key and a way of calling. -/
def LastRegistered (gs : List Registration) (mode : BridgeMode) (key : RequestKey)
    (handler : Handler) : Prop :=
  ∃ g, LastOf Registration.slot gs g ∧ g.slot = (mode, key) ∧ g.handler = handler

/-- Synchronous calls are served by the last synchronous handler, asynchronous ones by the last
asynchronous handler, or the last synchronous one where there is none. -/
def Serves (gs : List Registration) (mode : BridgeMode) (key : RequestKey) (handler : Handler) :
    Prop :=
  match mode with
  | .sync => LastRegistered gs .sync key handler
  | .async => LastRegistered gs .async key handler ∨
      (∀ g ∈ gs, g.slot ≠ (.async, key)) ∧ LastRegistered gs .sync key handler

section

variable {gs : List Registration} {g : Registration} {mode : BridgeMode} {key : RequestKey}
  {handler : Handler}

theorem lastRegistered_nil : ¬ LastRegistered [] mode key handler := by
  rintro ⟨g, hlast, -⟩
  cases hlast.mem

/-- A new registration takes the place of all before it for its own slot, and of none for others. -/
theorem lastRegistered_concat :
    LastRegistered (gs ++ [g]) mode key handler ↔
      if g.slot = (mode, key) then g.handler = handler else LastRegistered gs mode key handler := by
  simp only [LastRegistered, lastOf_concat]
  by_cases hg : g.slot = (mode, key)
  · rw [if_pos hg]
    constructor
    · rintro ⟨g', rfl | ⟨-, hne⟩, hslot, hhandler⟩
      · exact hhandler
      · exact absurd (hg.trans hslot.symm) hne
    · intro hhandler
      exact ⟨g, .inl rfl, hg, hhandler⟩
  · rw [if_neg hg]
    constructor
    · rintro ⟨g', rfl | ⟨hlast, -⟩, hslot, hhandler⟩
      · exact absurd hslot hg
      · exact ⟨g', hlast, hslot, hhandler⟩
    · rintro ⟨g', hlast, hslot, hhandler⟩
      exact ⟨g', .inr ⟨hlast, hslot ▸ hg⟩, hslot, hhandler⟩

theorem exists_lastRegistered :
    (∃ handler, LastRegistered gs mode key handler) ↔ ∃ g ∈ gs, g.slot = (mode, key) := by
  constructor
  · rintro ⟨handler, g, hlast, hslot, -⟩
    exact ⟨g, hlast.mem, hslot⟩
  · rintro ⟨g, hg, hslot⟩
    obtain ⟨last, hlast, hsame⟩ := exists_lastOf (f := Registration.slot) hg
    exact ⟨last.handler, last, hlast, hsame.trans hslot, rfl⟩

end

namespace HandlerSlots

def get (mode : BridgeMode) (s : HandlerSlots) : Option Handler :=
  match mode with
  | .sync => s.sync
  | .async => s.async

@[simp] theorem get_empty (mode : BridgeMode) : empty.get mode = none := by
  cases mode <;> rfl

@[simp] theorem get_put (mode mode' : BridgeMode) (handler : Handler) (s : HandlerSlots) :
    (s.put mode handler).get mode' = if mode = mode' then some handler else s.get mode' := by
  cases mode <;> cases mode' <;> rfl

end HandlerSlots

namespace Dispatcher

/-- The dispatcher after handlers are registered one after another. -/
def ofRegistrations (gs : List Registration) : Dispatcher :=
  gs.foldl (fun d g => d.register g.mode g.key g.handler) empty

theorem ofRegistrations_concat (gs : List Registration) (g : Registration) :
    ofRegistrations (gs ++ [g]) = (ofRegistrations gs).register g.mode g.key g.handler :=
  List.foldl_concat ..

/-- The handlers of a key, of which there may be none. -/
def slots (d : Dispatcher) (key : RequestKey) : HandlerSlots :=
  (d.slots? key).getD .empty

theorem find?_setSlots (key key' : RequestKey) (slots : HandlerSlots)
    (es : List (RequestKey × HandlerSlots)) :
    ((setSlots key slots es).find? (·.1 == key')).map (·.2) =
      if key = key' then some slots else (es.find? (·.1 == key')).map (·.2) := by
  induction es with
  | nil => by_cases hk : key = key' <;> simp [setSlots, hk]
  | cons e es ih =>
    by_cases he : e.1 = key
    · by_cases hk : key = key' <;> simp [setSlots, he, hk]
    · by_cases he' : e.1 = key'
      · have hk : key ≠ key' := fun hk => he (he'.trans hk.symm)
        simp [setSlots, he', hk, hk.symm]
      · simp [setSlots, he, he', ih]

theorem slots_register (d : Dispatcher) (mode : BridgeMode) (key key' : RequestKey)
    (handler : Handler) :
    (d.register mode key handler).slots key' =
      if key = key' then (d.slots key).put mode handler else d.slots key' := by
  have hfind := find?_setSlots key key' ((d.slots key).put mode handler) d.entries
  rw [slots, slots?, register]
  simp only [slots] at hfind
  rw [hfind]
  by_cases hk : key = key'
  · rw [if_pos hk, if_pos hk]
    rfl
  · rw [if_neg hk, if_neg hk]
    rfl

/-- Each way of calling has a place of its own, which holds the last handler registered for it. -/
theorem get_slots_ofRegistrations {gs : List Registration} {mode : BridgeMode} {key : RequestKey}
    {handler : Handler} :
    ((ofRegistrations gs).slots key).get mode = some handler ↔
      LastRegistered gs mode key handler := by
  induction gs using List.reverseRecOn with
  | nil => simp [lastRegistered_nil, ofRegistrations, empty, slots, slots?]
  | append_singleton gs g ih =>
    rw [ofRegistrations_concat, slots_register, lastRegistered_concat, Registration.slot]
    by_cases hkey : g.key = key
    · subst hkey
      rw [if_pos rfl, HandlerSlots.get_put]
      by_cases hmode : g.mode = mode
      · simp [hmode]
      · simp [hmode, ih]
    · simp [hkey, ih]

theorem get_slots_eq_none {gs : List Registration} {mode : BridgeMode} {key : RequestKey} :
    ((ofRegistrations gs).slots key).get mode = none ↔ ∀ g ∈ gs, g.slot ≠ (mode, key) := by
  have hsome : (∃ handler, ((ofRegistrations gs).slots key).get mode = some handler) ↔
      ∃ g ∈ gs, g.slot = (mode, key) := by
    simp only [get_slots_ofRegistrations, exists_lastRegistered]
  rw [← Option.not_isSome_iff_eq_none, Option.isSome_iff_exists, hsome]
  simp

/-- A call is handed to the handler that serves it. -/
theorem serving_eq_some {gs : List Registration} {mode : BridgeMode} {key : RequestKey}
    {handler : Handler} :
    ((ofRegistrations gs).slots key).serving mode = some handler ↔
      Serves gs mode key handler := by
  cases mode with
  | sync =>
    have hserving : ((ofRegistrations gs).slots key).serving .sync =
        ((ofRegistrations gs).slots key).get .sync := rfl
    rw [hserving, get_slots_ofRegistrations]
    rfl
  | async =>
    have hserving : ((ofRegistrations gs).slots key).serving .async =
        (((ofRegistrations gs).slots key).get .async <|>
          ((ofRegistrations gs).slots key).get .sync) := rfl
    rw [hserving, Option.orElse_eq_some, get_slots_ofRegistrations, get_slots_eq_none,
      get_slots_ofRegistrations]
    rfl

theorem process_eq (d : Dispatcher) (mode : BridgeMode) (key : RequestKey) (request : Json) :
    d.process mode key request =
      match (d.slots key).serving mode with
      | some handler => (handler request).result key
      | none => .error (.noHandler key) := by
  have hslots : (d.slots? key).bind (·.serving mode) = (d.slots key).serving mode := by
    rw [slots]
    cases d.slots? key with
    | none => cases mode <;> rfl
    | some s => rfl
  show (match (d.slots? key).bind (·.serving mode) with
    | some handler => (handler request).result key
    | none => .error (.noHandler key)) = _
  rw [hslots]

/-- A call is answered by the handler that serves it, or not at all. -/
theorem process_ofRegistrations (gs : List Registration) (mode : BridgeMode) (key : RequestKey)
    (request : Json) :
    (∀ handler, Serves gs mode key handler →
        (ofRegistrations gs).process mode key request = (handler request).result key) ∧
      ((∀ handler, ¬ Serves gs mode key handler) →
        (ofRegistrations gs).process mode key request = .error (.noHandler key)) := by
  rw [process_eq]
  constructor
  · intro handler hserves
    rw [serving_eq_some.mpr hserves]
  · intro hnone
    have hserving : ((ofRegistrations gs).slots key).serving mode = none :=
      Option.eq_none_iff_forall_ne_some.mpr fun handler h => hnone handler (serving_eq_some.mp h)
    rw [hserving]

end Dispatcher

end EndpointCompiler
