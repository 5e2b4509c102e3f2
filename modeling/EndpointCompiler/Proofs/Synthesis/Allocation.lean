import EndpointCompiler.Proofs.Synthesis.Run

/-! Tables of names along whole histories. Names are reserved and given in any order, and numbers
can make forms of different names equal; what is taken stays taken, and what is given was free. -/

namespace EndpointCompiler

inductive NameRequest where
  | reserve (name : String)
  | allocate (base : String)

/-- A request with its answer, and the tables before and after it. -/
inductive NameEvent where
  | reserved (before : NameTable) (name : String) (free : Bool) (after : NameTable)
  | allocated (before : NameTable) (base : String) (result : Except NameCollision String)
      (after : NameTable)

namespace NameEvent

def after : NameEvent → NameTable
  | reserved _ _ _ t => t
  | allocated _ _ _ t => t

/-- The name that is given to a request. -/
def given? : NameEvent → Option String
  | reserved .. => none
  | allocated _ _ result _ => result.toOption

/-- The name that is taken from then on. -/
def taken? : NameEvent → Option String
  | reserved _ name _ _ => some name
  | allocated _ _ result _ => result.toOption

end NameEvent

namespace NameTable

/-- Serves one request. A table that has no name to give is the next one too. -/
def serve (t : NameTable) : NameRequest → NameEvent
  | .reserve name => .reserved t name (t.reserve name).1 (t.reserve name).2
  | .allocate base =>
    match t.allocate base with
    | .ok (name, t') => .allocated t base (.ok name) t'
    | .error e => .allocated t base (.error e) t

/-- What requests do, one after another. -/
def history (t : NameTable) : List NameRequest → List NameEvent
  | [] => []
  | r :: rs => t.serve r :: (t.serve r).after.history rs

/-- The first free form of a name is given and taken, and if all are taken, nothing changes. -/
structure Allocates (t : NameTable) (base : String) (result : Except NameCollision String)
    (t' : NameTable) : Prop where
  given_iff : ∀ name, result = .ok name ↔
    (formsOf base (t.maxSuffix - 1)).find? (· ∉ t.assigned) = some name
  given : ∀ name, result = .ok name → ∀ n, n ∈ t'.assigned ↔ n ∈ t.assigned ∨ n = name
  refused_iff : (∃ e, result = .error e) ↔ ∀ n ∈ formsOf base (t.maxSuffix - 1), n ∈ t.assigned
  refused : ∀ e, result = .error e → e = ⟨base, t.maxSuffix⟩ ∧ t' = t
  synthesized : ∀ surrogates, Synthesizer.outcome (Synthesizer.allocate base) ⟨t, surrogates⟩ =
    (result, ⟨t', surrogates⟩)

end NameTable

/-- What an event does to a table with names up to the given number. -/
def NameEvent.Proper (maxSuffix : Nat) : NameEvent → Prop
  | .reserved t name free t' => t.maxSuffix = maxSuffix ∧ (free = true ↔ name ∉ t.assigned) ∧
    ∀ n, n ∈ t'.assigned ↔ n ∈ t.assigned ∨ n = name
  | .allocated t base result t' => t.maxSuffix = maxSuffix ∧ t.Allocates base result t'

namespace NameTable

section

variable {t : NameTable} {base name : String} {rs : List NameRequest}

theorem allocates_given
    (hfind : (formsOf base (t.maxSuffix - 1)).find? (· ∉ t.assigned) = some name)
    (halloc : t.allocate base = .ok (name, { t with assigned := name :: t.assigned })) :
    t.Allocates base (.ok name) { t with assigned := name :: t.assigned } where
  given_iff := fun n => by rw [hfind, Except.ok.injEq, Option.some.injEq]
  given := by
    rintro _ ⟨⟩ n
    rw [List.mem_cons, or_comm]
  refused_iff := by
    have hfree : name ∉ t.assigned := by simpa using List.find?_some hfind
    exact ⟨nofun, fun hall => absurd (hall name (List.mem_of_find?_eq_some hfind)) hfree⟩
  refused := nofun
  synthesized := fun surrogates => by
    rw [Synthesizer.outcome_allocate]
    simp only [halloc]

theorem allocates_refused
    (hfind : (formsOf base (t.maxSuffix - 1)).find? (· ∉ t.assigned) = none)
    (halloc : t.allocate base = .error ⟨base, t.maxSuffix⟩) :
    t.Allocates base (.error ⟨base, t.maxSuffix⟩) t where
  given_iff := fun n => by
    rw [hfind]
    exact ⟨nofun, nofun⟩
  given := nofun
  refused_iff := by
    refine ⟨fun _ n hn => ?_, fun _ => ⟨_, rfl⟩⟩
    simpa using List.find?_eq_none.mp hfind n hn
  refused := by
    rintro _ ⟨⟩
    exact ⟨rfl, rfl⟩
  synthesized := fun surrogates => by
    rw [Synthesizer.outcome_allocate]
    simp only [halloc]

theorem serve_allocate (t : NameTable) (base : String) :
    ∃ result t', t.serve (.allocate base) = .allocated t base result t' ∧
      t.Allocates base result t' ∧ t'.maxSuffix = t.maxSuffix := by
  rcases allocate_cases t base with ⟨name, hfind, halloc⟩ | ⟨hfind, halloc⟩
  · exact ⟨_, _, by rw [serve, halloc], allocates_given hfind halloc, rfl⟩
  · exact ⟨_, _, by rw [serve, halloc], allocates_refused hfind halloc, rfl⟩

theorem reserve_fst (t : NameTable) (name : String) :
    (t.reserve name).1 = true ↔ name ∉ t.assigned := by
  rw [reserve]
  split
  · rename_i hc
    simpa using contains_iff.mp hc
  · rename_i hc
    simpa using mt contains_iff.mpr hc

theorem mem_reserve_snd (t : NameTable) (name : String) {n : String} :
    n ∈ (t.reserve name).2.assigned ↔ n ∈ t.assigned ∨ n = name := by
  rw [reserve]
  split
  · rename_i hc
    refine ⟨.inl, fun h => h.elim id ?_⟩
    rintro rfl
    exact contains_iff.mp hc
  · rw [List.mem_cons, or_comm]

/-! One request. -/

theorem serve_proper (t : NameTable) (r : NameRequest) : (t.serve r).Proper t.maxSuffix := by
  cases r with
  | reserve name => exact ⟨rfl, reserve_fst t name, fun n => mem_reserve_snd t name⟩
  | allocate base =>
    obtain ⟨result, t', hserve, hallocates, -⟩ := serve_allocate t base
    rw [hserve]
    exact ⟨rfl, hallocates⟩

theorem serve_maxSuffix (t : NameTable) (r : NameRequest) :
    (t.serve r).after.maxSuffix = t.maxSuffix := by
  cases r with
  | reserve name =>
    rw [serve, NameEvent.after, reserve]
    split <;> rfl
  | allocate base =>
    obtain ⟨result, t', hserve, -, hmax⟩ := serve_allocate t base
    rw [hserve]
    exact hmax

/-- What is taken after a request is what was taken before it, and what it takes. -/
theorem mem_serve_after (t : NameTable) (r : NameRequest) {n : String} :
    n ∈ (t.serve r).after.assigned ↔ n ∈ t.assigned ∨ (t.serve r).taken? = some n := by
  cases r with
  | reserve name =>
    rw [serve, NameEvent.after, NameEvent.taken?, mem_reserve_snd, Option.some.injEq, eq_comm]
  | allocate base =>
    obtain ⟨result, t', hserve, hallocates, -⟩ := serve_allocate t base
    rw [hserve, NameEvent.after, NameEvent.taken?]
    cases result with
    | ok name => simp [hallocates.given name rfl n, Except.toOption, eq_comm]
    | error e => simp [(hallocates.refused e rfl).2, Except.toOption]

theorem serve_given (t : NameTable) (r : NameRequest) {n : String}
    (h : (t.serve r).given? = some n) : n ∉ t.assigned := by
  cases r with
  | reserve name => cases h
  | allocate base =>
    obtain ⟨result, t', hserve, hallocates, -⟩ := serve_allocate t base
    rw [hserve, NameEvent.given?] at h
    cases result with
    | error e => cases h
    | ok name =>
      obtain rfl : name = n := Option.some.inj h
      simpa using List.find?_some ((hallocates.given_iff name).mp rfl)

/-! Whole histories. -/

theorem history_proper : ∀ e ∈ t.history rs, e.Proper t.maxSuffix := by
  induction rs generalizing t with
  | nil => nofun
  | cons r rs ih =>
    refine List.forall_mem_cons.mpr ⟨serve_proper t r, fun e he => ?_⟩
    exact serve_maxSuffix t r ▸ ih e he

/-- What is taken once is never given. -/
theorem history_given {n : String} (hn : n ∈ t.assigned) :
    ∀ e ∈ t.history rs, e.given? ≠ some n := by
  induction rs generalizing t with
  | nil => nofun
  | cons r rs ih =>
    refine List.forall_mem_cons.mpr ⟨fun hgiven => serve_given t r hgiven hn, ?_⟩
    exact ih ((mem_serve_after t r).mpr (.inl hn))

theorem history_apart :
    (t.history rs).Pairwise fun a b => ∀ n, a.taken? = some n → b.given? ≠ some n := by
  induction rs generalizing t with
  | nil => exact .nil
  | cons r rs ih =>
    refine List.pairwise_cons.mpr ⟨fun b hb n hn => ?_, ih⟩
    exact history_given ((mem_serve_after t r).mpr (.inr hn)) b hb

end

/-- Along every history of requests each allocation gives the first form of its name that is free,
and fails if and only if none is; what is taken is never given afterwards. -/
theorem history_allocates (maxSuffix : Nat) (requests : List NameRequest) :
    (∀ e ∈ (empty maxSuffix).history requests, e.Proper maxSuffix) ∧
      ((empty maxSuffix).history requests).Pairwise fun a b =>
        ∀ n, a.taken? = some n → b.given? ≠ some n :=
  ⟨history_proper, history_apart⟩

/-- The second `Ping` is `Ping2`, so that `Ping2` becomes `Ping22`, and with `Ping3` reserved no
form up to three is left. -/
def pingRequests : List NameRequest :=
  [.allocate "Ping", .allocate "Ping", .allocate "Ping2", .reserve "Ping3", .allocate "Ping"]

theorem history_allocates_ping :
    ((empty 3).history pingRequests).map (·.given?) =
        [some "Ping", some "Ping2", some "Ping22", none, none] ∧
      (∀ e ∈ (empty 3).history pingRequests, e.Proper 3) ∧
      ((empty 3).history pingRequests).Pairwise fun a b =>
        ∀ n, a.taken? = some n → b.given? ≠ some n :=
  ⟨by decide +kernel, history_allocates 3 pingRequests⟩

end NameTable

end EndpointCompiler
