import EndpointCompiler.Proofs.References

/-! References are exactly the closure of the types that are used. They are found unless a named
type cannot be located, and the first such type is reported. Neither the order of the types nor
their repetition makes a difference. -/

namespace EndpointCompiler

namespace Catalog

/-- Why compiled code cannot refer to a named type. -/
inductive Unlocatable (c : Catalog) : TypeRef → UnresolvableReason → Prop where
  | noModule {name : String} {args : List TypeRef} :
      Unlocatable c (.named none name args) .noDeclaringModule
  | unknown {id : ModuleId} {name : String} {args : List TypeRef} : c.module? id = none →
      Unlocatable c (.named (some id) name args) (.unknownModule id)
  | inMemory {id : ModuleId} {name : String} {args : List TypeRef} {m : Module} :
      c.module? id = some m → m.origin = .inMemory →
      Unlocatable c (.named (some id) name args) (.noBinaryIdentity id)

/-- A type names a module that compiled code can refer to. -/
def Locates (c : Catalog) (t : TypeRef) (m : Module) : Prop :=
  ∃ id name args, t = .named (some id) name args ∧ c.module? id = some m ∧ m.origin ≠ .inMemory

/-- The first of all types in the given ones, outer ones first, that no reference leads to. -/
structure FirstUnlocatable (c : Catalog) (ts : List TypeRef) (e : UnresolvableReference) :
    Prop where
  given : ∃ before after, ts = before ++ e.type :: after ∧
    ∀ t ∈ before, ∀ u ∈ t.subterms, ∀ reason, ¬ c.Unlocatable u reason
  inside : ∃ before after, e.type.subterms = before ++ e.offending :: after ∧
    ∀ u ∈ before, ∀ reason, ¬ c.Unlocatable u reason
  reason : c.Unlocatable e.offending e.reason

section

variable {c : Catalog} {ts : List TypeRef} {t : TypeRef} {reason : UnresolvableReason}

theorem locate_eq_error_iff :
    (t.isNamed = true ∧ c.locate t = .error reason) ↔ c.Unlocatable t reason := by
  constructor
  · rintro ⟨hnamed, h⟩
    cases t with
    | named module name args =>
      cases module with
      | none =>
        obtain rfl : UnresolvableReason.noDeclaringModule = reason := Except.error.inj h
        exact .noModule
      | some id =>
        simp only [locate, TypeRef.module?] at h
        cases hm : c.module? id with
        | none =>
          rw [hm] at h
          obtain rfl := Except.error.inj h
          exact .unknown hm
        | some m =>
          rw [hm] at h
          dsimp only at h
          split at h
          · cases h
          · rename_i hbinary
            obtain rfl := Except.error.inj h
            exact .inMemory hm (by simpa [Module.hasBinaryIdentity] using hbinary)
    | array t => cases hnamed
    | async t => cases hnamed
  · intro h
    cases h with
    | noModule => exact ⟨rfl, rfl⟩
    | unknown hm => exact ⟨rfl, by simp [locate, TypeRef.module?, hm]⟩
    | inMemory hm horigin =>
      exact ⟨rfl, by simp [locate, TypeRef.module?, hm, Module.hasBinaryIdentity, horigin]⟩

theorem locate_ok_iff_not_unlocatable (hnamed : t.isNamed = true) :
    (∃ m, c.locate t = .ok m) ↔ ∀ reason, ¬ c.Unlocatable t reason := by
  constructor
  · rintro ⟨m, hm⟩ reason h
    rw [(locate_eq_error_iff.mpr h).2] at hm
    cases hm
  · intro h
    cases hl : c.locate t with
    | ok m => exact ⟨m, rfl⟩
    | error reason => exact absurd (locate_eq_error_iff.mp ⟨hnamed, hl⟩) (h reason)

theorem Unlocatable.isNamed (h : c.Unlocatable t reason) : t.isNamed = true :=
  (locate_eq_error_iff.mpr h).1

theorem unlocated?_eq_some_iff {root u : TypeRef} {e : UnresolvableReference} :
    c.unlocated? root u = some e ↔ e.type = root ∧ e.offending = u ∧ c.locate u = .error e.reason := by
  obtain ⟨type, offending, reason⟩ := e
  rw [unlocated?]
  cases c.locate u with
  | ok m => simp
  | error reason' =>
    simp only [Option.some.injEq, UnresolvableReference.mk.injEq, Except.error.injEq, eq_comm]

theorem unresolvable?_eq_none_iff :
    c.unresolvable? t = none ↔ ∀ u ∈ t.subterms, ∀ reason, ¬ c.Unlocatable u reason := by
  rw [unresolvable?, TypeRef.namedTypes, List.findSome?_eq_none_iff]
  simp only [List.mem_filter, and_imp]
  refine forall₂_congr fun u _ => ?_
  constructor
  · intro h reason hu
    have hnone := h hu.isNamed
    rw [unlocated?, (locate_eq_error_iff.mpr hu).2] at hnone
    cases hnone
  · intro h hnamed
    obtain ⟨m, hm⟩ := (locate_ok_iff_not_unlocatable hnamed).mpr h
    rw [unlocated?, hm]

/-- The type that is named in an error is the first in its type that cannot be located. -/
theorem unresolvable?_eq_some_iff {e : UnresolvableReference} :
    c.unresolvable? t = some e ↔ e.type = t ∧ c.Unlocatable e.offending e.reason ∧
      ∃ before after, t.subterms = before ++ e.offending :: after ∧
        ∀ u ∈ before, ∀ reason, ¬ c.Unlocatable u reason := by
  rw [unresolvable?, TypeRef.namedTypes, List.findSome?_eq_some_iff]
  constructor
  · rintro ⟨before', u, after', hsplit, hu, hbefore'⟩
    obtain ⟨rfl, rfl, hlocate⟩ := unlocated?_eq_some_iff.mp hu
    -- The search passes over arrays and the like, so its first is found among all subterms again.
    obtain ⟨before, rest, hterms, hfilter, hrest⟩ := List.filter_eq_append_iff.mp hsplit
    obtain ⟨skipped, after, rfl, hskipped, hnamed, -⟩ := List.filter_eq_cons_iff.mp hrest
    refine ⟨rfl, locate_eq_error_iff.mp ⟨hnamed, hlocate⟩, before ++ skipped, after, ?_, ?_⟩
    · rw [hterms, List.append_assoc]
    · intro v hv reason hunlocatable
      rcases List.mem_append.mp hv with hv | hv
      · have hmem : v ∈ before' := hfilter ▸ List.mem_filter.mpr ⟨hv, hunlocatable.isNamed⟩
        have hnone := hbefore' v hmem
        rw [unlocated?, (locate_eq_error_iff.mpr hunlocatable).2] at hnone
        cases hnone
      · exact hskipped v hv hunlocatable.isNamed
  · rintro ⟨rfl, hoffending, before, after, hterms, hbefore⟩
    refine ⟨before.filter (·.isNamed), e.offending, after.filter (·.isNamed), ?_, ?_, ?_⟩
    · rw [hterms, List.filter_append, List.filter_cons_of_pos hoffending.isNamed]
    · exact unlocated?_eq_some_iff.mpr ⟨rfl, rfl, (locate_eq_error_iff.mpr hoffending).2⟩
    · intro u hu
      obtain ⟨hmem, hnamed⟩ := List.mem_filter.mp hu
      obtain ⟨m, hm⟩ := (locate_ok_iff_not_unlocatable hnamed).mpr (hbefore u hmem)
      rw [unlocated?, hm]

theorem resolve_eq_error_iff {e : UnresolvableReference} :
    c.resolve ts = .error e ↔ c.FirstUnlocatable (bootstrapTypes ++ ts) e := by
  rw [resolve_eq_error_iff_unresolvable, List.findSome?_eq_some_iff]
  constructor
  · rintro ⟨before, t, after, hsplit, ht, hbefore⟩
    obtain ⟨rfl, hreason, hinside⟩ := unresolvable?_eq_some_iff.mp ht
    exact ⟨⟨before, after, hsplit, fun t ht => unresolvable?_eq_none_iff.mp (hbefore t ht)⟩,
      hinside, hreason⟩
  · rintro ⟨⟨before, after, hsplit, hbefore⟩, hinside, hreason⟩
    exact ⟨before, e.type, after, hsplit, unresolvable?_eq_some_iff.mpr ⟨rfl, hreason, hinside⟩,
      fun t ht => unresolvable?_eq_none_iff.mpr (hbefore t ht)⟩

theorem exists_resolve_eq_ok_iff :
    (∃ r, c.resolve ts = .ok r) ↔
      ∀ t ∈ bootstrapTypes ++ ts, ∀ u ∈ t.subterms, ∀ reason, ¬ c.Unlocatable u reason := by
  rw [exists_resolve_iff]
  refine forall₄_congr fun t _ u _ => ?_
  constructor
  · intro h reason hu
    exact (locate_ok_iff_not_unlocatable hu.isNamed).mp (h hu.isNamed) reason hu
  · exact fun h hnamed => (locate_ok_iff_not_unlocatable hnamed).mpr h

theorem exists_resolve_eq_error_iff :
    (∃ e, c.resolve ts = .error e) ↔
      ∃ t ∈ bootstrapTypes ++ ts, ∃ u ∈ t.subterms, ∃ reason, c.Unlocatable u reason := by
  have hnot : (∃ e, c.resolve ts = .error e) ↔ ¬ ∃ r, c.resolve ts = .ok r := by
    cases c.resolve ts <;> simp
  rw [hnot, exists_resolve_eq_ok_iff]
  push Not
  rfl

end

theorem locates_iff {c : Catalog} {t : TypeRef} {m : Module} :
    c.Locates t m ↔ c.locate t = .ok m := by
  rw [locate_eq_ok_iff]
  constructor
  · rintro ⟨id, name, args, rfl, hm, horigin⟩
    exact ⟨id, rfl, hm, by simpa [Module.hasBinaryIdentity] using horigin⟩
  · rintro ⟨id, hid, hm, hbinary⟩
    cases t with
    | named module name args =>
      obtain rfl : module = some id := hid
      exact ⟨id, name, args, rfl, hm, by simpa [Module.hasBinaryIdentity] using hbinary⟩
    | array t => cases hid
    | async t => cases hid

theorem mem_resolve_iff {c : Catalog} {ts : List TypeRef} {r : ReferenceSet} {m : Module}
    (h : c.resolve ts = .ok r) :
    m ∈ r.modules ↔ ∃ t ∈ bootstrapTypes ++ ts, ∃ u, c.Reaches t u ∧ c.Locates u m := by
  rw [(resolve_collects h).mem]
  simp only [locates_iff]
  constructor
  · rintro ⟨u, ⟨t, ht, hreach⟩, hm⟩
    exact ⟨t, ht, u, hreach, hm⟩
  · rintro ⟨t, ht, u, hreach, hm⟩
    exact ⟨u, ⟨t, ht, hreach⟩, hm⟩

/-- Types in another order, or more than once, lead to the same references. -/
theorem resolve_congr {c : Catalog} {ts ts' : List TypeRef} {r : ReferenceSet}
    (hts : ∀ t, t ∈ ts' ↔ t ∈ ts) (h : c.resolve ts = .ok r) : c.resolve ts' = .ok r := by
  have hused : ∀ t, t ∈ bootstrapTypes ++ ts' ↔ t ∈ bootstrapTypes ++ ts := fun t => by
    rw [List.mem_append, List.mem_append, hts]
  obtain ⟨r', h'⟩ : ∃ r', c.resolve ts' = .ok r' := by
    rw [exists_resolve_iff]
    exact fun t ht => exists_resolve_iff.mp ⟨r, h⟩ t ((hused t).mp ht)
  have hsame : r' = r := by
    refine Collects.unique (resolve_collects h') ((resolve_collects h).congr fun u => ?_)
    simp only [hused]
  rw [h', hsame]

/-- References fail to be found exactly at the first named type, outer ones first, whose module is
not named, not known or only in memory. Otherwise they are the modules of all types that are
reached, whatever the order of the types and however often they are repeated. -/
theorem resolve_closure (modules : List Module) (ts : List TypeRef) :
    ((∃ e, (ofModules modules).resolve ts = .error e) ↔ ∃ t ∈ bootstrapTypes ++ ts,
      ∃ u ∈ t.subterms, ∃ reason, (ofModules modules).Unlocatable u reason) ∧
    (∀ e, (ofModules modules).resolve ts = .error e ↔
      (ofModules modules).FirstUnlocatable (bootstrapTypes ++ ts) e) ∧
    (∀ r, (ofModules modules).resolve ts = .ok r → r.modules.Pairwise (·.id < ·.id) ∧
      ∀ m, m ∈ r.modules ↔ ∃ t ∈ bootstrapTypes ++ ts, ∃ u,
        (ofModules modules).Reaches t u ∧ (ofModules modules).Locates u m) ∧
    ∀ ts', (∀ t, t ∈ ts' ↔ t ∈ ts) → ∀ r,
      (ofModules modules).resolve ts' = .ok r ↔ (ofModules modules).resolve ts = .ok r := by
  refine ⟨exists_resolve_eq_error_iff, fun e => resolve_eq_error_iff, fun r hr => ?_,
    fun ts' hts r => ⟨fun h => resolve_congr (fun t => (hts t).symm) h, resolve_congr hts⟩⟩
  exact ⟨(resolve_collects hr).sorted, fun m => mem_resolve_iff hr⟩

def tagModule : Module :=
  ⟨"tags", .dynamic, [.empty "tags" "Tag"]⟩

def draftModule : Module :=
  ⟨"drafts", .inMemory, [{ TypeInfo.empty "drafts" "Draft" with
    fields := [⟨"tag", .declared "tags" "Tag"⟩, ⟨"order", .declared "orders" "Order"⟩] }]⟩

def orderModule : Module :=
  ⟨"orders", .static none, [{ TypeInfo.empty "orders" "Order" with
    fields := [⟨"drafts", .array (.declared "drafts" "Draft")⟩] }]⟩

/-- An order has drafts, which are only in memory and lead back to the order. Their tags are
referred to, they themselves are not, and a draft that is used itself is an error. -/
theorem resolve_closure_order :
    (∃ r, (ofModules [orderModule, draftModule, tagModule]).resolve
        [.declared "orders" "Order"] = .ok r ∧
      (ofModules [orderModule, draftModule, tagModule]).resolve
        [.declared "orders" "Order", .declared "orders" "Order"] = .ok r ∧
      tagModule ∈ r.modules ∧ draftModule ∉ r.modules) ∧
    ∃ e, (ofModules [orderModule, draftModule, tagModule]).resolve
      [.array (.declared "drafts" "Draft")] = .error e := by
  have hmodule : ∀ m ∈ [orderModule, draftModule, tagModule],
      (ofModules [orderModule, draftModule, tagModule]).module? m.id = some m := by
    simp [ofModules, module?_insert, orderModule, draftModule, tagModule]
  have horders := hmodule orderModule (by simp)
  have hdrafts := hmodule draftModule (by simp)
  have htags := hmodule tagModule (by simp)
  obtain ⟨-, -, hresolved, hrepeated⟩ :=
    resolve_closure [orderModule, draftModule, tagModule] [.declared "orders" "Order"]
  obtain ⟨r, h⟩ : ∃ r, (ofModules [orderModule, draftModule, tagModule]).resolve
      [.declared "orders" "Order"] = .ok r := exists_eq_ok (by decide +kernel)
  refine ⟨⟨r, h, (hrepeated _ (by simp) r).mpr h, ?_, ?_⟩, ?_⟩
  · refine ((hresolved r h).2 tagModule).mpr ⟨.declared "orders" "Order", by simp,
      .declared "tags" "Tag", ?_, "tags", "Tag", [], rfl, htags, nofun⟩
    have hdraft : (ofModules [orderModule, draftModule, tagModule]).Step
        (.declared "orders" "Order") (.array (.declared "drafts" "Draft")) :=
      .field (f := ⟨"drafts", _⟩) horders rfl List.mem_cons_self
    have htag : (ofModules [orderModule, draftModule, tagModule]).Step
        (.declared "drafts" "Draft") (.declared "tags" "Tag") :=
      .field (f := ⟨"tag", _⟩) hdrafts rfl List.mem_cons_self
    exact .tail (.tail (.single hdraft) .element) htag
  · intro hmem
    obtain ⟨t, -, u, -, id, name, args, -, hid, horigin⟩ :=
      ((hresolved r h).2 draftModule).mp hmem
    exact horigin rfl
  · obtain ⟨hfails, -⟩ := resolve_closure [orderModule, draftModule, tagModule]
      [.array (.declared "drafts" "Draft")]
    exact hfails.mpr ⟨.array (.declared "drafts" "Draft"), by simp, .declared "drafts" "Draft",
      by simp [TypeRef.subterms, TypeRef.declared], .noBinaryIdentity "drafts",
      .inMemory hdrafts rfl⟩

end Catalog

end EndpointCompiler
