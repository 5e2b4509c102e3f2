import EndpointCompiler.Proofs.Checking.Values

/-! What the checker makes of the body of an operation. Values are bound one after another, and the
last statement hands one of them to the entry of the bridge that suits the operation. -/

namespace EndpointCompiler

open Source Checked

/-- A call of the bridge, awaited where the operation is asynchronous. -/
inductive CallsBridge (isAsync : Bool) (request response : TypeExpr) (arg : Expr) : Expr → Prop where
  | sync {function : Ident} {span : Span} : isAsync = false → function.name = "process" →
      CallsBridge isAsync request response arg (.call function [request, response] [arg] span)
  | async {function : Ident} {span span' : Span} : isAsync = true →
      function.name = "process_async" → CallsBridge isAsync request response arg
        (.await (.call function [request, response] [arg] span) span')

theorem CallsBridge.unique {isAsync : Bool} {request request' response response' : TypeExpr}
    {arg arg' value : Expr} (h : CallsBridge isAsync request response arg value)
    (h' : CallsBridge isAsync request' response' arg' value) :
    request = request' ∧ response = response' ∧ arg = arg' := by
  cases h with
  | sync hasync =>
    cases h' with
    | sync => exact ⟨rfl, rfl, rfl⟩
  | async hasync =>
    cases h' with
    | async => exact ⟨rfl, rfl, rfl⟩

section

variable {s : TypeScope} {op : OpDecl} {result : Option TypeRef} {vars : Vars}

theorem checkCallParts_yields_iff {request response : TypeExpr} {arg : Expr}
    {r r' : TypeRef} {v : TypedValue} :
    (checkCallParts s vars request response arg).Yields (r, r', v) ↔
      (s.resolve false request).Yields r ∧ (s.resolve false response).Yields r' ∧
        (checkValue s vars arg).Yields v := by
  rw [checkCallParts, yields_both, yields_both]

theorem bridgeFunction?_sync_iff {name : String} :
    bridgeFunction? name = some .sync ↔ name = "process" := by
  unfold bridgeFunction?
  split
  · simp [*]
  · split <;> simp [*]

theorem bridgeFunction?_async_iff {name : String} :
    bridgeFunction? name = some .async ↔ name = "process_async" := by
  unfold bridgeFunction?
  split
  · rename_i h
    simp [h]
  · split <;> simp [*]

theorem unwrapAwait_yields_iff {value called : Expr} {awaited : Bool} :
    (unwrapAwait op value).Yields (called, awaited) ↔
      (∃ span, value = .await called span ∧ op.isAsync = true ∧ awaited = true) ∨
        ((∀ inner span, value ≠ .await inner span) ∧ called = value ∧ awaited = false) := by
  unfold unwrapAwait
  split
  · rename_i inner span
    split <;> rename_i ha
    · rw [yields_pure', Prod.mk.injEq]
      simp [ha, eq_comm]
    · simp [ha]
  · rename_i hne
    rw [yields_pure', Prod.mk.injEq]
    have hv : ∀ inner span, value ≠ .await inner span := fun inner span h => hne inner span h
    constructor
    · rintro ⟨rfl, rfl⟩
      exact .inr ⟨hv, rfl, rfl⟩
    · rintro (⟨span, h, -⟩ | ⟨-, rfl, rfl⟩)
      · exact absurd h (hv _ _)
      · exact ⟨rfl, rfl⟩

/-- What is returned is a bridge call that suits the operation, of a value of the request type. -/
theorem checkReturn_sound {value : Expr} {call : BridgeCall}
    (h : (checkReturn s op result vars value).Yields call) :
    ∃ request response arg r r' v, CallsBridge op.isAsync request response arg value ∧
      (s.resolve false request).Yields r ∧ (s.resolve false response).Yields r' ∧
      (checkValue s vars arg).Yields v ∧ (v.type = r ∨ r = objectType) ∧
      (∀ t, result = some t → t = r') ∧ call = ⟨r, r', op.isAsync, v.value⟩ := by
  rw [checkReturn, yields_bind] at h
  obtain ⟨⟨called, awaited⟩, hu, h⟩ := h
  have hu := unwrapAwait_yields_iff.mp hu
  cases called with
  | call function types args span =>
    dsimp only at h
    split at h
    · simp at h
    · rename_i mode hmode
      split at h
      · rename_i request response arg _
        obtain ⟨⟨r, r', v⟩, hp, h⟩ := yields_bind.mp h
        obtain ⟨hr, hr', hv⟩ := checkCallParts_yields_iff.mp hp
        refine ⟨request, response, arg, r, r', v, ?_⟩
        split at h
        · simp at h
        rename_i ha
        split at h
        · simp at h
        rename_i hawaitable
        split at h
        · simp at h
        rename_i hsync
        split at h
        · simp at h
        rename_i hmissing
        split at h
        · simp at h
        rename_i hresult
        have ha' : v.type = r ∨ r = objectType := by
          simpa [assignable_iff] using ha
        have hres : ∀ t, result = some t → t = r' := by
          rintro t rfl
          simpa using hresult
        have hcall := yields_pure.mp h
        -- The tests above leave one bridge function for a call that is awaited and one for the others.
        rcases hu with ⟨span', rfl, hop, rfl⟩ | ⟨-, rfl, rfl⟩
        · have hm : mode = .async := by
            cases mode with
            | sync => simp at hawaitable
            | async => rfl
          subst hm
          exact ⟨.async hop (bridgeFunction?_async_iff.mp hmode), hr, hr', hv, ha', hres,
            by rw [← hcall, hop]; rfl⟩
        · have hm : mode = .sync := by
            cases mode with
            | sync => rfl
            | async => simp at hmissing
          subst hm
          have hop : op.isAsync = false := by simpa using hsync
          exact ⟨.sync hop (bridgeFunction?_sync_iff.mp hmode), hr, hr', hv, ha', hres,
            by rw [← hcall, hop]; rfl⟩
      · simp at h
      · simp at h
  | var _ => simp at h
  | field _ _ _ => simp at h
  | new _ _ _ => simp at h
  | await _ _ => simp at h

/-- A bridge call that suits the operation is accepted. -/
theorem checkReturn_yields {value : Expr} {request response : TypeExpr} {arg : Expr}
    {r r' : TypeRef} {v : TypedValue} (hc : CallsBridge op.isAsync request response arg value)
    (hr : (s.resolve false request).Yields r) (hr' : (s.resolve false response).Yields r')
    (hv : (checkValue s vars arg).Yields v) (ha : v.type = r ∨ r = objectType)
    (hres : ∀ t, result = some t → t = r') :
    (checkReturn s op result vars value).Yields ⟨r, r', op.isAsync, v.value⟩ := by
  have hp := checkCallParts_yields_iff.mpr ⟨hr, hr', hv⟩
  have ha' : assignable r v.type = true := assignable_iff.mpr ha
  have hres' : result.any (· != r') = false := by
    cases result with
    | none => rfl
    | some t => simp [hres t rfl]
  rw [checkReturn, yields_bind]
  cases hc with
  | sync hop hname =>
    refine ⟨(_, false), unwrapAwait_yields_iff.mpr (.inr ⟨by simp, rfl, rfl⟩), ?_⟩
    simp only [bridgeFunction?_sync_iff.mpr hname]
    refine yields_bind.mpr ⟨_, hp, ?_⟩
    simp [ha', hres', hop]
  | async hop hname =>
    refine ⟨(_, true), unwrapAwait_yields_iff.mpr (.inl ⟨_, rfl, hop, rfl⟩), ?_⟩
    simp only [bridgeFunction?_async_iff.mpr hname]
    refine yields_bind.mpr ⟨_, hp, ?_⟩
    simp [ha', hres', hop]

end

/-- Locals are well typed in order, each for those before it. -/
def LocalsTyped (s : TypeScope) (params types : List TypeRef) (locals : List ValueExpr) : Prop :=
  types.length = locals.length ∧ ∀ i e t, locals[i]? = some e → types[i]? = some t →
    HasType s params (types.take i) e t

section

variable {s : TypeScope} {op : OpDecl} {result : Option TypeRef} {vars : Vars}
  {params types : List TypeRef} {locals : List ValueExpr}

theorem localsTyped_nil : LocalsTyped s params [] [] :=
  ⟨rfl, fun _ _ _ h => by simp at h⟩

theorem LocalsTyped.snoc (h : LocalsTyped s params types locals) {e : ValueExpr} {t : TypeRef}
    (he : HasType s params types e t) : LocalsTyped s params (types ++ [t]) (locals ++ [e]) := by
  refine ⟨by simp [h.1], fun i e' t' hl ht => ?_⟩
  by_cases hi : i < locals.length
  · rw [List.getElem?_append_left hi] at hl
    rw [List.getElem?_append_left (h.1 ▸ hi)] at ht
    have hi' : i ≤ types.length := h.1 ▸ Nat.le_of_lt hi
    rw [List.take_append_of_le_length hi']
    exact h.2 i e' t' hl ht
  · have hlt := (List.getElem?_eq_some_iff.mp hl).1
    have hi' : i = locals.length := by
      simp only [List.length_append, List.length_singleton] at hlt
      omega
    subst hi'
    have he' : e' = e := by simpa using hl.symm
    have ht' : t' = t := by simpa [← h.1] using ht.symm
    rw [he', ht', ← h.1, List.take_append_of_le_length (Nat.le_refl _), List.take_length]
    exact he

theorem Vars.find?_cons (vars : Vars) (name n : String) (v : Option TypedValue) :
    Vars.find? ((name, v) :: vars) n = if name = n then some v else vars.find? n := by
  by_cases h : name = n <;> simp [Vars.find?, h]

/-- A name for the next local. -/
theorem VarsTyped.bind (h : VarsTyped s params types vars) (hl : types.length = locals.length)
    (name : String) (t : TypeRef) :
    VarsTyped s params (types ++ [t]) ((name, some ⟨.local locals.length, t⟩) :: vars) := by
  intro n v hv
  rw [Vars.find?_cons] at hv
  split at hv
  · cases hv
    exact .local (by simp [← hl])
  · exact (h n v hv).weaken (List.prefix_append _ _)

theorem checkStmts_bind_yields_iff {name : Ident} {value : Expr} {span : Span}
    {rest : List Stmt} {r : List ValueExpr × BridgeCall} :
    (checkStmts s op result vars locals (.bind name value span :: rest)).Yields r ↔
      vars.find? name.name = none ∧ ∃ v, (checkValue s vars value).Yields v ∧
        (checkStmts s op result ((name.name, some ⟨.local locals.length, v.type⟩) :: vars)
          (locals ++ [v.value]) rest).Yields r := by
  rw [checkStmts]
  cases hn : vars.find? name.name with
  | some v => simp [yields_proceed]
  | none => simp [yields_proceed]

theorem checkStmts_result_yields_iff {value : Expr} {span : Span}
    {r : List ValueExpr × BridgeCall} :
    (checkStmts s op result vars locals [.result value span]).Yields r ↔
      (checkReturn s op result vars value).Yields r.2 ∧ r.1 = locals := by
  rw [checkStmts, yields_bind]
  simp only [yields_pure]
  constructor
  · rintro ⟨call, hc, rfl⟩
    exact ⟨hc, rfl⟩
  · rintro ⟨hc, rfl⟩
    exact ⟨_, hc, rfl⟩

/-- A body that is accepted has well-typed locals and hands on a value of the request type. -/
theorem checkStmts_sound {body : List Stmt} {r : List ValueExpr × BridgeCall}
    (h : (checkStmts s op result vars locals body).Yields r)
    (hv : VarsTyped s params types vars) (hl : LocalsTyped s params types locals) :
    ∃ types' t, LocalsTyped s params types' r.1 ∧ HasType s params types' r.2.arg t ∧
      (t = r.2.request ∨ r.2.request = objectType) ∧ r.2.isAsync = op.isAsync ∧
      (∀ t, result = some t → r.2.response = t) := by
  induction body generalizing vars locals types with
  | nil => simp [checkStmts] at h
  | cons stmt rest ih =>
    cases stmt with
    | bind name value span =>
      obtain ⟨-, v, hvalue, hr⟩ := checkStmts_bind_yields_iff.mp h
      have ht := checkValue_hasType hv value hvalue
      exact ih hr (hv.bind hl.1 name.name v.type) (hl.snoc ht)
    | result value span =>
      cases rest with
      | nil =>
        obtain ⟨hr, hlocals⟩ := checkStmts_result_yields_iff.mp h
        obtain ⟨_, _, arg, t, t', v, -, -, -, harg, ha, hres, hcall⟩ := checkReturn_sound hr
        rw [hlocals, hcall]
        exact ⟨types, v.type, hl, checkValue_hasType hv arg harg, ha, rfl,
          fun u hu => (hres u hu).symm⟩
      | cons next more => simp [checkStmts, yields_proceed] at h

end

end EndpointCompiler
