import EndpointCompiler.Proofs.Matching
import EndpointCompiler.References
import Mathlib.Data.List.Perm.Subperm
import Mathlib.Data.List.Sort
import Mathlib.Data.String.Basic
import Mathlib.Logic.Relation

/-! What a set of references leads to. They are to the modules of all types that are reached from
those in use, by arguments, elements and declared fields. The search goes depth first; what it has
visited is closed under steps, but for the types that it is still about. -/

namespace EndpointCompiler

namespace TypeRef

def isNamed : TypeRef → Bool
  | .named .. => true
  | _ => false

/-- The named types in a type, outer ones first. -/
def namedTypes (t : TypeRef) : List TypeRef :=
  t.subterms.filter (·.isNamed)

theorem mem_subterms_self (t : TypeRef) : t ∈ t.subterms := by
  cases t <;> exact List.mem_cons_self

theorem subtermsOfAll_eq (ts : List TypeRef) : subtermsOfAll ts = ts.flatMap subterms := by
  induction ts with
  | nil => rfl
  | cons t ts ih => rw [subtermsOfAll, List.flatMap_cons, ih]

theorem mem_subtermsOfAll {ts : List TypeRef} {u : TypeRef} :
    u ∈ subtermsOfAll ts ↔ ∃ t ∈ ts, u ∈ t.subterms := by
  rw [subtermsOfAll_eq, List.mem_flatMap]

theorem mem_subterms_iff {t u : TypeRef} :
    u ∈ t.subterms ↔ u = t ∨ ∃ v ∈ t.children, u ∈ v.subterms := by
  cases t with
  | named m n args => rw [subterms, List.mem_cons, mem_subtermsOfAll, children]
  | array t => simp [subterms, children]
  | async t => simp [subterms, children]

/-- A set of types that has the children of its members has all the types in them. -/
theorem mem_of_mem_subterms {ts : List TypeRef} (h : ∀ t ∈ ts, ∀ u ∈ t.children, u ∈ ts)
    (t : TypeRef) (ht : t ∈ ts) : ∀ u ∈ t.subterms, u ∈ ts := by
  intro u hu
  rcases mem_subterms_iff.mp hu with rfl | ⟨v, hv, hu⟩
  · exact ht
  · exact mem_of_mem_subterms h v (h t ht v hv) u hu
termination_by sizeOf t
decreasing_by exact sizeOf_lt_of_mem_children hv

theorem subterms_trans {t u v : TypeRef} (hu : u ∈ t.subterms) (hv : v ∈ u.subterms) :
    v ∈ t.subterms := by
  rcases mem_subterms_iff.mp hu with rfl | ⟨w, hw, hu⟩
  · exact hv
  · exact mem_subterms_iff.mpr (.inr ⟨w, hw, subterms_trans hu hv⟩)
termination_by sizeOf t
decreasing_by exact sizeOf_lt_of_mem_children hw

end TypeRef

namespace Catalog

/-- One step from a type: to an argument, an element, an awaited result, or to the type of a field
that a catalog declares. -/
inductive Step (c : Catalog) : TypeRef → TypeRef → Prop where
  | argument {module : Option ModuleId} {name : String} {args : List TypeRef} {t : TypeRef} :
      t ∈ args → Step c (.named module name args) t
  | element {t : TypeRef} : Step c (.array t) t
  | awaited {t : TypeRef} : Step c (.async t) t
  | field {id : ModuleId} {name : String} {args : List TypeRef} {m : Module} {info : TypeInfo}
      {f : Field} : c.module? id = some m → m.type? name = some info → f ∈ info.fields →
      Step c (.named (some id) name args) f.type

abbrev Reaches (c : Catalog) : TypeRef → TypeRef → Prop :=
  Relation.ReflTransGen c.Step

/-- References to exactly the modules of the types with a property, as far as those have one that
can be referred to. -/
structure Collects (c : Catalog) (P : TypeRef → Prop) (r : ReferenceSet) : Prop where
  sorted : SortedByName (·.id) r.modules
  mem : ∀ m, m ∈ r.modules ↔ ∃ t, P t ∧ c.locate t = .ok m

section

variable {c : Catalog} {t u : TypeRef} {m n : Module} {r r' : ReferenceSet} {P Q : TypeRef → Prop}

theorem mem_successors_iff : u ∈ c.successors t ↔ c.Step t u := by
  rw [successors, List.mem_append]
  constructor
  · rintro (hchild | hfield)
    · cases t with
      | named module name args => exact .argument hchild
      | array t =>
        obtain rfl := List.mem_singleton.mp hchild
        exact .element
      | async t =>
        obtain rfl := List.mem_singleton.mp hchild
        exact .awaited
    · cases hi : c.lookup? t with
      | none =>
        rw [hi] at hfield
        cases hfield
      | some info =>
        rw [hi] at hfield
        obtain ⟨f, hf, rfl⟩ := List.mem_map.mp hfield
        unfold lookup? at hi
        split at hi
        · obtain ⟨m, hm, hinfo⟩ := Option.bind_eq_some_iff.mp hi
          exact .field hm hinfo hf
        · cases hi
  · intro h
    cases h with
    | argument ht => exact .inl ht
    | element => exact .inl (List.mem_singleton_self u)
    | awaited => exact .inl (List.mem_singleton_self u)
    | field hm hinfo hf =>
      have hlookup : ∀ name args id, c.lookup? (.named (some id) name args) =
          (c.module? id).bind (·.type? name) := fun _ _ _ => rfl
      right
      rw [hlookup, hm, Option.bind_some, hinfo]
      exact List.mem_map_of_mem hf

theorem step_of_mem_children (h : u ∈ t.children) : c.Step t u :=
  mem_successors_iff.mp (List.mem_append_left _ h)

theorem reaches_of_mem_subterms {t u : TypeRef} (h : u ∈ t.subterms) : c.Reaches t u := by
  rcases TypeRef.mem_subterms_iff.mp h with rfl | ⟨v, hv, hu⟩
  · exact .refl
  · exact .head (step_of_mem_children hv) (reaches_of_mem_subterms hu)
termination_by sizeOf t
decreasing_by exact TypeRef.sizeOf_lt_of_mem_children hv

/-- From a type without a name a step leads to a part of it. -/
theorem Step.mem_children (h : c.Step t u) (ht : t.isNamed = false) : u ∈ t.children := by
  cases h with
  | argument | field => cases ht
  | element | awaited => exact List.mem_singleton_self u

theorem locate_eq_ok_iff : c.locate t = .ok m ↔
    ∃ id, t.module? = some id ∧ c.module? id = some m ∧ m.hasBinaryIdentity = true := by
  unfold locate
  cases t.module? with
  | none => simp
  | some id =>
    cases hm : c.module? id with
    | none => simp [hm]
    | some found =>
      by_cases hbinary : found.hasBinaryIdentity = true
      · simp only [hm, hbinary, if_true, Except.ok.injEq, Option.some.injEq, exists_eq_left']
        exact ⟨fun h => ⟨h, h ▸ hbinary⟩, And.left⟩
      · simp only [hm, hbinary, Option.some.injEq, exists_eq_left']
        constructor
        · exact nofun
        · rintro ⟨rfl, h⟩
          exact absurd h hbinary

theorem module?_id {id : ModuleId} (h : c.module? id = some m) : m.id = id := by
  simpa using List.find?_some h

theorem locate_inj (ht : c.locate t = .ok m) (hu : c.locate u = .ok n) (hid : m.id = n.id) :
    m = n := by
  obtain ⟨id, -, hm, -⟩ := locate_eq_ok_iff.mp ht
  obtain ⟨id', -, hn, -⟩ := locate_eq_ok_iff.mp hu
  have hsame : id = id' := (module?_id hm).symm.trans (hid.trans (module?_id hn))
  rw [hsame, hn] at hm
  exact (Option.some.inj hm).symm

theorem isNamed_of_locate (h : c.locate t = .ok m) : t.isNamed = true := by
  obtain ⟨id, hid, -⟩ := locate_eq_ok_iff.mp h
  cases t with
  | named => rfl
  | array t => cases hid
  | async t => cases hid

theorem collects_nil (c : Catalog) : c.Collects (fun _ => False) ⟨[]⟩ where
  sorted := .nil
  mem := by simp

theorem Collects.congr (h : c.Collects P r) (hpq : ∀ t, P t ↔ Q t) : c.Collects Q r where
  sorted := h.sorted
  mem := fun m => by simp only [h.mem, hpq]

theorem Collects.insert (h : c.Collects P r) (hm : c.locate t = .ok m) :
    c.Collects (fun u => u = t ∨ P u) (r.insert m) := by
  have hmem : ∀ n, (∃ u, (u = t ∨ P u) ∧ c.locate u = .ok n) ↔ n = m ∨ n ∈ r.modules := by
    intro n
    rw [h.mem]
    constructor
    · rintro ⟨u, rfl | hu, hn⟩
      · exact .inl (Except.ok.inj (hn.symm.trans hm))
      · exact .inr ⟨u, hu, hn⟩
    · rintro (rfl | ⟨u, hu, hn⟩)
      · exact ⟨t, .inl rfl, hm⟩
      · exact ⟨u, .inr hu, hn⟩
  rw [ReferenceSet.insert]
  by_cases hknown : r.contains m.id = true
  · rw [if_pos hknown]
    rw [ReferenceSet.contains, ReferenceSet.module?, List.find?_isSome] at hknown
    obtain ⟨n, hn, hid⟩ := hknown
    obtain ⟨u, -, hu⟩ := (h.mem n).mp hn
    -- A catalog has one module of a name, so that what is there is the module itself.
    obtain rfl : n = m := locate_inj hu hm (by simpa using hid)
    exact ⟨h.sorted, fun k => by rw [hmem]; exact ⟨.inr, fun hk => hk.elim (· ▸ hn) id⟩⟩
  · rw [if_neg hknown]
    have hnew : m.id ∉ r.modules.map (·.id) := by
      intro hid
      obtain ⟨n, hn, hid⟩ := List.mem_map.mp hid
      refine hknown ?_
      rw [ReferenceSet.contains, ReferenceSet.module?, List.find?_isSome]
      exact ⟨n, hn, by simpa using hid⟩
    refine ⟨h.sorted.insert m, fun k => ?_⟩
    rw [hmem, (insertByName_perm hnew).mem_iff, List.mem_cons]

theorem Collects.skip (h : c.Collects P r) (ht : ∀ m, c.locate t ≠ .ok m) :
    c.Collects (fun u => u = t ∨ P u) r where
  sorted := h.sorted
  mem := fun m => by
    rw [h.mem]
    constructor
    · rintro ⟨u, hu, hm⟩
      exact ⟨u, .inr hu, hm⟩
    · rintro ⟨u, rfl | hu, hm⟩
      · exact absurd hm (ht m)
      · exact ⟨u, hu, hm⟩

/-- Types determine what is referred to, whatever the order in which they were found. -/
theorem Collects.unique (h : c.Collects P r) (h' : c.Collects P r') : r = r' := by
  have hmem : ∀ m, m ∈ r.modules ↔ m ∈ r'.modules := fun m => (h.mem m).trans (h'.mem m).symm
  have hperm : r.modules.Perm r'.modules :=
    (List.perm_ext_iff_of_nodup h.sorted.nodup.of_map h'.sorted.nodup.of_map).mpr hmem
  have hmodules : r.modules = r'.modules :=
    hperm.eq_of_pairwise (fun _ _ _ _ hlt hlt' => absurd hlt' (lt_asymm hlt)) h.sorted h'.sorted
  cases r
  cases r'
  exact congrArg ReferenceSet.mk hmodules

theorem Collects.module?_eq_some (h : c.Collects P r) {id : ModuleId} (ht : P t)
    (hid : t.module? = some id) (hm : c.locate t = .ok m) : r.module? id = some m := by
  obtain ⟨id', hid', hfound, -⟩ := locate_eq_ok_iff.mp hm
  obtain rfl : id = id' := Option.some.inj (hid.symm.trans hid')
  obtain rfl := module?_id hfound
  exact find?_of_nodup_map h.sorted.nodup ((h.mem m).mpr ⟨t, ht, hm⟩)

end

section

variable {c : Catalog} {ts us us' : List TypeRef} {g : Gathered}
  {fault fault' : Option UnresolvableReference} {x : Except UnresolvableReference Gathered}

/-- The first of named types is not located: an error for the type that was asked for. -/
def unlocated? (c : Catalog) (root u : TypeRef) : Option UnresolvableReference :=
  match c.locate u with
  | .ok _ => none
  | .error reason => some ⟨root, u, reason⟩

/-- The first named type in a type that no reference leads to. -/
def unresolvable? (c : Catalog) (t : TypeRef) : Option UnresolvableReference :=
  t.namedTypes.findSome? (c.unlocated? t)

/-- Types are taken in with references to their modules, unless one of them is at fault. -/
structure Gathers (c : Catalog) (us : List TypeRef) (fault : Option UnresolvableReference)
    (g : Gathered) (x : Except UnresolvableReference Gathered) : Prop where
  fails : ∀ e, fault = some e → x = .error e
  takes : fault = none → ∃ g', x = .ok g' ∧ g'.types = g.types ++ us ∧
    ∀ P, c.Collects P g.references → c.Collects (fun t => t ∈ us ∨ P t) g'.references

theorem gathers_nil (c : Catalog) (g : Gathered) : c.Gathers [] none g (.ok g) where
  fails := nofun
  takes := fun _ => ⟨g, rfl, (List.append_nil _).symm, fun P h => h.congr (by simp)⟩

theorem Gathers.bind {f : Gathered → Except UnresolvableReference Gathered}
    (h : c.Gathers us fault g x) (hf : ∀ g', c.Gathers us' fault' g' (f g')) :
    c.Gathers (us ++ us') (fault.or fault') g (x >>= f) := by
  cases fault with
  | some e =>
    obtain rfl := h.fails e rfl
    exact ⟨fun e' he => congrArg Except.error (Option.some.inj he), nofun⟩
  | none =>
    obtain ⟨g', rfl, htypes, hrefs⟩ := h.takes rfl
    refine ⟨(hf g').fails, fun hfault => ?_⟩
    obtain ⟨g'', hx, htypes', hrefs'⟩ := (hf g').takes hfault
    refine ⟨g'', hx, ?_, fun P hP => ?_⟩
    · rw [htypes', htypes, List.append_assoc]
    · refine (hrefs' _ (hrefs P hP)).congr fun t => ?_
      rw [List.mem_append, or_assoc, or_left_comm]

mutual

theorem addStrict_gathers (c : Catalog) (root : TypeRef) (g : Gathered) (t : TypeRef) :
    c.Gathers t.namedTypes (t.namedTypes.findSome? (c.unlocated? root)) g
      (c.addStrict root g t) := by
  match t with
  | .named module name args =>
    have hnamed : (TypeRef.named module name args).namedTypes =
        .named module name args :: (TypeRef.subtermsOfAll args).filter (·.isNamed) := by
      rw [TypeRef.namedTypes, TypeRef.subterms, List.filter_cons_of_pos rfl]
    rw [hnamed, addStrict, List.findSome?_cons, unlocated?]
    cases hm : c.locate (.named module name args) with
    | error reason => exact ⟨fun e he => congrArg Except.error (Option.some.inj he), nofun⟩
    | ok m =>
      have hrest := addAllStrict_gathers c root
        ⟨g.references.insert m, g.types ++ [.named module name args]⟩ args
      refine ⟨hrest.fails, fun hfault => ?_⟩
      obtain ⟨g', hg', htypes, hrefs⟩ := hrest.takes hfault
      refine ⟨g', hg', ?_, fun P hP => ?_⟩
      · rw [htypes, List.append_assoc, List.singleton_append]
      · refine (hrefs _ (hP.insert hm)).congr fun t => ?_
        rw [List.mem_cons, or_left_comm, or_assoc]
  | .array t => exact addStrict_gathers c root g t
  | .async t => exact addStrict_gathers c root g t

theorem addAllStrict_gathers (c : Catalog) (root : TypeRef) (g : Gathered) (ts : List TypeRef) :
    c.Gathers ((TypeRef.subtermsOfAll ts).filter (·.isNamed))
      (((TypeRef.subtermsOfAll ts).filter (·.isNamed)).findSome? (c.unlocated? root)) g
      (c.addAllStrict root g ts) := by
  match ts with
  | [] =>
    rw [addAllStrict]
    exact gathers_nil c g
  | t :: ts =>
    rw [addAllStrict, TypeRef.subtermsOfAll, List.filter_append, ← TypeRef.namedTypes,
      List.findSome?_append]
    exact (addStrict_gathers c root g t).bind fun g' => addAllStrict_gathers c root g' ts

end

theorem foldlM_addStrict_gathers (c : Catalog) (ts : List TypeRef) (g : Gathered) :
    c.Gathers (ts.flatMap (·.namedTypes)) (ts.findSome? c.unresolvable?) g
      (ts.foldlM (fun g t => c.addStrict t g t) g) := by
  induction ts generalizing g with
  | nil => exact gathers_nil c g
  | cons t ts ih =>
    rw [List.foldlM_cons, List.flatMap_cons, ← List.singleton_append, List.findSome?_append,
      List.findSome?_singleton]
    exact (addStrict_gathers c t g t).bind ih

end

section

variable {c : Catalog} {all ts : List TypeRef} {depth : Nat} {g g' g'' : Gathered} {t : TypeRef}

theorem visit_collects {P : TypeRef → Prop} (t : TypeRef)
    (h : c.Collects (fun u => u ∈ g.types ∨ P u) g.references) :
    c.Collects (fun u => u ∈ (c.visit g t).types ∨ P u) (c.visit g t).references := by
  have hadd : ∀ u, u = t ∨ (u ∈ g.types ∨ P u) ↔ u ∈ t :: g.types ∨ P u := fun u => by
    rw [List.mem_cons, or_assoc]
  unfold visit
  cases hm : c.locate t with
  | ok m => exact (h.insert hm).congr hadd
  | error reason =>
    have hskip : ∀ m, c.locate t ≠ .ok m := fun m => by simp [hm]
    exact (h.skip hskip).congr hadd

/-- What every visit of a type keeps, the search keeps that goes on from such types. -/
theorem addTransitive_induct {I : Gathered → Prop} {Q : TypeRef → Prop}
    (hstep : ∀ t u, Q t → c.Step t u → Q u) (hvisit : ∀ g t, I g → Q t → I (c.visit g t))
    (hg : I g) (ht : Q t) : I (c.addTransitive depth g t) := by
  induction depth generalizing g t with
  | zero => exact hg
  | succ depth ih =>
    rw [addTransitive]
    split
    · exact hg
    · refine List.foldlRecOn _ _ (hvisit g t hg ht) fun g' hg' u hu => ?_
      exact ih hg' (hstep t u ht (mem_successors_iff.mp hu))

/-- There is a depth for every type that is not visited yet. -/
structure Room (all : List TypeRef) (depth : Nat) (g : Gathered) : Prop where
  nodup : g.types.Nodup
  within : ∀ t ∈ g.types, t ∈ all
  room : all.length ≤ depth + g.types.length

/-- How far a search has come. From the types that it has visited since, every step leads to one
that was visited. -/
structure Searched (c : Catalog) (g g' : Gathered) : Prop where
  kept : ∀ t ∈ g.types, t ∈ g'.types
  done : ∀ t ∈ g'.types, t ∈ g.types ∨ ∀ u ∈ c.successors t, u ∈ g'.types

theorem Searched.refl (c : Catalog) (g : Gathered) : c.Searched g g :=
  ⟨fun _ ht => ht, fun _ ht => .inl ht⟩

theorem Searched.trans (h : c.Searched g g') (h' : c.Searched g' g'') : c.Searched g g'' where
  kept := fun t ht => h'.kept t (h.kept t ht)
  done := fun t ht => by
    rcases h'.done t ht with ht | hsucc
    · rcases h.done t ht with ht | hsucc
      · exact .inl ht
      · exact .inr fun u hu => h'.kept u (hsucc u hu)
    · exact .inr hsucc

theorem Room.mem (h : Room all 0 g) (ht : t ∈ all) : t ∈ g.types := by
  have hlength : all.length ≤ g.types.length := by
    have hroom := h.room
    omega
  have hperm : g.types.Perm all := (h.nodup.subperm h.within).perm_of_length_le hlength
  exact hperm.mem_iff.mpr ht

theorem Room.visit (h : Room all (depth + 1) g) (ht : t ∈ all) (hnew : t ∉ g.types) :
    Room all depth (c.visit g t) where
  nodup := List.nodup_cons.mpr ⟨hnew, h.nodup⟩
  within := List.forall_mem_cons.mpr ⟨ht, h.within⟩
  room := by
    have hroom := h.room
    show all.length ≤ depth + (g.types.length + 1)
    omega

/-- A search with enough room visits a type and closes what it has visited. -/
def Visits (c : Catalog) (all : List TypeRef) (depth : Nat)
    (search : Gathered → TypeRef → Gathered) : Prop :=
  ∀ g t, Room all depth g → t ∈ all →
    Room all depth (search g t) ∧ c.Searched g (search g t) ∧ t ∈ (search g t).types

theorem Visits.foldl {search : Gathered → TypeRef → Gathered} (h : c.Visits all depth search)
    (hg : Room all depth g) (hts : ∀ t ∈ ts, t ∈ all) :
    Room all depth (ts.foldl search g) ∧ c.Searched g (ts.foldl search g) ∧
      ∀ t ∈ ts, t ∈ (ts.foldl search g).types := by
  induction ts generalizing g with
  | nil => exact ⟨hg, .refl c g, nofun⟩
  | cons t ts ih =>
    rw [List.forall_mem_cons] at hts
    obtain ⟨hroom, hsearched, ht⟩ := h g t hg hts.1
    obtain ⟨hroom', hsearched', hmem⟩ := ih hroom hts.2
    exact ⟨hroom', hsearched.trans hsearched',
      List.forall_mem_cons.mpr ⟨hsearched'.kept t ht, hmem⟩⟩

theorem addTransitive_visits (hall : ∀ t ∈ all, ∀ u ∈ c.successors t, u ∈ all) :
    c.Visits all depth (c.addTransitive depth) := by
  induction depth with
  | zero =>
    intro g t hg ht
    exact ⟨hg, .refl c g, hg.mem ht⟩
  | succ depth ih =>
    intro g t hg ht
    rw [addTransitive]
    by_cases hmem : t ∈ g.types
    · rw [if_pos hmem]
      exact ⟨hg, .refl c g, hmem⟩
    · rw [if_neg hmem]
      obtain ⟨hroom, hsearched, hsucc⟩ := ih.foldl (hg.visit ht hmem) (hall t ht)
      have hself : t ∈ ((c.successors t).foldl (c.addTransitive depth) (c.visit g t)).types :=
        hsearched.kept t List.mem_cons_self
      refine ⟨⟨hroom.nodup, hroom.within, ?_⟩, ⟨?_, ?_⟩, hself⟩
      · have hlength := hroom.room
        omega
      · exact fun u hu => hsearched.kept u (List.mem_cons_of_mem t hu)
      · intro u hu
        -- The type itself is done when all its successors are visited.
        rcases hsearched.done u hu with hu | hdone
        · rcases List.mem_cons.mp hu with rfl | hu
          · exact .inr hsucc
          · exact .inl hu
        · exact .inr hdone

/-- What lies one step from a type that occurs occurs itself. -/
theorem occurring_closed (c : Catalog) (ts : List TypeRef) :
    ∀ t ∈ c.occurring ts, ∀ u ∈ c.successors t, u ∈ c.occurring ts := by
  intro t ht u hu
  rcases List.mem_append.mp hu with hchild | hfield
  · obtain ⟨v, hv, hmem⟩ := TypeRef.mem_subtermsOfAll.mp ht
    have hself := TypeRef.mem_subterms_iff.mpr (.inr ⟨u, hchild, u.mem_subterms_self⟩)
    exact TypeRef.mem_subtermsOfAll.mpr ⟨v, hv, TypeRef.subterms_trans hmem hself⟩
  · cases hi : c.lookup? t with
    | none =>
      rw [hi] at hfield
      cases hfield
    | some info =>
      rw [hi] at hfield
      obtain ⟨m, hm, hinfo⟩ : ∃ m ∈ c.modules, info ∈ m.types := by
        unfold lookup? at hi
        split at hi
        · obtain ⟨m, hm, hinfo⟩ := Option.bind_eq_some_iff.mp hi
          exact ⟨m, List.mem_of_find?_eq_some hm, List.mem_of_find?_eq_some hinfo⟩
        · cases hi
      refine TypeRef.mem_subtermsOfAll.mpr ⟨u, List.mem_append_right _ ?_, u.mem_subterms_self⟩
      exact List.mem_flatMap.mpr ⟨m, hm, List.mem_flatMap.mpr ⟨info, hinfo, hfield⟩⟩

theorem mem_occurring (ht : t ∈ ts) : t ∈ c.occurring ts :=
  TypeRef.mem_subtermsOfAll.mpr ⟨t, List.mem_append_left _ ht, t.mem_subterms_self⟩

end

section

variable {c : Catalog} {used : Gathered}

theorem follow_closed (c : Catalog) (used : Gathered) :
    (∀ t ∈ used.types, t ∈ (c.follow used).types) ∧
      ∀ t ∈ (c.follow used).types, ∀ u, c.Step t u → u ∈ (c.follow used).types := by
  have hstart : Room (c.occurring used.types) (c.occurring used.types).length
      ⟨used.references, []⟩ := ⟨List.nodup_nil, nofun, Nat.le_refl _⟩
  obtain ⟨-, hsearched, hvisited⟩ :=
    (addTransitive_visits (c.occurring_closed used.types)).foldl hstart fun t ht => mem_occurring ht
  refine ⟨hvisited, fun t ht u hu => ?_⟩
  rcases hsearched.done t ht with hnone | hdone
  · cases hnone
  · exact hdone u (mem_successors_iff.mpr hu)

theorem follow_sound {Q : TypeRef → Prop} (hstep : ∀ t u, Q t → c.Step t u → Q u)
    (hused : ∀ t ∈ used.types, Q t) : ∀ u ∈ (c.follow used).types, Q u := by
  let I : Gathered → Prop := fun g => ∀ u ∈ g.types, Q u
  have hvisit : ∀ g t, I g → Q t → I (c.visit g t) :=
    fun g t hg ht => List.forall_mem_cons.mpr ⟨ht, hg⟩
  exact List.foldlRecOn (motive := I) _ _ nofun fun g hg t ht =>
    addTransitive_induct hstep hvisit hg (hused t ht)

theorem follow_collects {P : TypeRef → Prop} (h : c.Collects P used.references) :
    c.Collects (fun u => u ∈ (c.follow used).types ∨ P u) (c.follow used).references := by
  let I : Gathered → Prop := fun g => c.Collects (fun u => u ∈ g.types ∨ P u) g.references
  have hstart : I ⟨used.references, []⟩ := h.congr (by simp)
  exact List.foldlRecOn (motive := I) _ _ hstart fun g hg t _ =>
    addTransitive_induct (Q := fun _ => True) (fun _ _ _ _ => trivial)
      (fun g t hg _ => visit_collects t hg) hg trivial

end

section

variable {c : Catalog} {ts : List TypeRef} {r : ReferenceSet} {t u : TypeRef} {m : Module}

/-- Up to its first named type a path stays inside of the type that it starts from. -/
theorem Reaches.mem_or_mem_subterms {visited : List TypeRef} (h : c.Reaches t u)
    (hclosed : ∀ v ∈ visited, ∀ w, c.Step v w → w ∈ visited)
    (hnamed : ∀ v ∈ t.subterms, v.isNamed = true → v ∈ visited) :
    u ∈ visited ∨ u ∈ t.subterms := by
  induction h with
  | refl => exact .inr t.mem_subterms_self
  | @tail v w _ hstep ih =>
    rcases ih with hv | hv
    · exact .inl (hclosed v hv w hstep)
    · by_cases hname : v.isNamed = true
      · exact .inl (hclosed v (hnamed v hv hname) w hstep)
      · have hpart : w ∈ v.children := hstep.mem_children (Bool.eq_false_of_not_eq_true hname)
        have hsub := TypeRef.mem_subterms_iff.mpr (.inr ⟨w, hpart, w.mem_subterms_self⟩)
        exact .inr (TypeRef.subterms_trans hv hsub)

/-- References are found if every named type that is used can be located. They are to the modules
of all types that are reached. -/
theorem resolve_cases (c : Catalog) (ts : List TypeRef) :
    (∃ e, (bootstrapTypes ++ ts).findSome? c.unresolvable? = some e ∧ c.resolve ts = .error e) ∨
      (bootstrapTypes ++ ts).findSome? c.unresolvable? = none ∧ ∃ r, c.resolve ts = .ok r ∧
        c.Collects (fun u => ∃ t ∈ bootstrapTypes ++ ts, c.Reaches t u) r := by
  have hgathers := foldlM_addStrict_gathers c (bootstrapTypes ++ ts) ⟨⟨[]⟩, []⟩
  cases hfault : (bootstrapTypes ++ ts).findSome? c.unresolvable? with
  | some e =>
    refine .inl ⟨e, rfl, ?_⟩
    rw [resolve, hgathers.fails e hfault]
    rfl
  | none =>
    obtain ⟨used, hused, htypes, hrefs⟩ := hgathers.takes hfault
    rw [List.nil_append] at htypes
    have hmem : ∀ u, u ∈ used.types ↔
        ∃ t ∈ bootstrapTypes ++ ts, u ∈ t.subterms ∧ u.isNamed = true := by
      intro u
      rw [htypes, List.mem_flatMap]
      simp only [TypeRef.namedTypes, List.mem_filter]
    have hsound : ∀ u ∈ (c.follow used).types, ∃ t ∈ bootstrapTypes ++ ts, c.Reaches t u := by
      apply follow_sound
      · rintro t u ⟨t', ht', hreach⟩ hstep
        exact ⟨t', ht', hreach.tail hstep⟩
      · intro u hu
        obtain ⟨t, ht, hsub, -⟩ := (hmem u).mp hu
        exact ⟨t, ht, reaches_of_mem_subterms hsub⟩
    obtain ⟨hvisited, hclosed⟩ := c.follow_closed used
    have hcollects := follow_collects (hrefs _ (collects_nil c))
    refine .inr ⟨rfl, (c.follow used).references, ?_, hcollects.sorted, fun m => ?_⟩
    · rw [resolve, hused]
      rfl
    · rw [hcollects.mem]
      simp only [or_false, ← htypes]
      constructor
      · rintro ⟨u, hu | hu, hm⟩
        · exact ⟨u, hsound u hu, hm⟩
        · exact ⟨u, hsound u (hvisited u hu), hm⟩
      · rintro ⟨u, ⟨t, ht, hreach⟩, hm⟩
        have hnamed : ∀ v ∈ t.subterms, v.isNamed = true → v ∈ (c.follow used).types :=
          fun v hv hname => hvisited v ((hmem v).mpr ⟨t, ht, hv, hname⟩)
        rcases Reaches.mem_or_mem_subterms hreach hclosed hnamed with hu | hu
        · exact ⟨u, .inl hu, hm⟩
        · exact ⟨u, .inr ((hmem u).mpr ⟨t, ht, hu, isNamed_of_locate hm⟩), hm⟩

theorem exists_resolve_iff : (∃ r, c.resolve ts = .ok r) ↔
    ∀ t ∈ bootstrapTypes ++ ts, ∀ u ∈ t.subterms, u.isNamed = true → ∃ m, c.locate u = .ok m := by
  have hlocated : (bootstrapTypes ++ ts).findSome? c.unresolvable? = none ↔
      ∀ t ∈ bootstrapTypes ++ ts, ∀ u ∈ t.subterms, u.isNamed = true →
        ∃ m, c.locate u = .ok m := by
    rw [List.findSome?_eq_none_iff]
    refine forall₂_congr fun t _ => ?_
    rw [unresolvable?, TypeRef.namedTypes, List.findSome?_eq_none_iff]
    simp only [List.mem_filter, and_imp]
    refine forall₃_congr fun u _ _ => ?_
    rw [unlocated?]
    cases c.locate u <;> simp
  rw [← hlocated]
  rcases c.resolve_cases ts with ⟨e, hfault, he⟩ | ⟨hnone, r, hr, -⟩
  · simp [hfault, he]
  · simp [hnone, hr]

theorem resolve_collects (h : c.resolve ts = .ok r) :
    c.Collects (fun u => ∃ t ∈ bootstrapTypes ++ ts, c.Reaches t u) r := by
  rcases c.resolve_cases ts with ⟨e, -, he⟩ | ⟨-, r', hr', hcollects⟩
  · rw [he] at h
    cases h
  · obtain rfl : r' = r := Except.ok.inj (hr'.symm.trans h)
    exact hcollects

theorem resolve_eq_error_iff_unresolvable {e : UnresolvableReference} :
    c.resolve ts = .error e ↔ (bootstrapTypes ++ ts).findSome? c.unresolvable? = some e := by
  rcases c.resolve_cases ts with ⟨e', hfault, he'⟩ | ⟨hnone, r, hr, -⟩
  · simp [hfault, he']
  · simp [hnone, hr]

/-- The module of a named type in a type that is used is referred to, as the catalog has it. -/
theorem module?_of_resolve (h : c.resolve ts = .ok r) (ht : t ∈ bootstrapTypes ++ ts)
    (hu : u ∈ t.subterms) {id : ModuleId} (hid : u.module? = some id) (hm : c.locate u = .ok m) :
    r.module? id = some m :=
  (resolve_collects h).module?_eq_some ⟨t, ht, reaches_of_mem_subterms hu⟩ hid hm

/-- Whatever module a used type names is referred to, and every named type in it names one. -/
theorem resolve_contains (h : c.resolve ts = .ok r) (ht : t ∈ bootstrapTypes ++ ts)
    (hu : u ∈ t.subterms) (hnamed : u.isNamed = true) :
    ∃ id, u.module? = some id ∧ r.contains id = true := by
  obtain ⟨m, hm⟩ := exists_resolve_iff.mp ⟨r, h⟩ t ht u hu hnamed
  obtain ⟨id, hid, -⟩ := locate_eq_ok_iff.mp hm
  refine ⟨id, hid, ?_⟩
  rw [ReferenceSet.contains, module?_of_resolve h ht hu hid hm]
  rfl

end

end Catalog

/-- Modules that a type names are referred to. -/
def ReferenceSet.Covers (r : ReferenceSet) (t : TypeRef) : Prop :=
  ∀ u ∈ t.subterms, ∀ id, u.module? = some id → r.contains id = true

namespace ReferenceSet

variable {r : ReferenceSet}

theorem covers_shape (name : String) : r.Covers (.named none name []) := by
  intro u hu id hid
  obtain rfl : u = .named none name [] := by simpa [TypeRef.subterms, TypeRef.subtermsOfAll] using hu
  cases hid

theorem Covers.of_mem {t u : TypeRef} (h : r.Covers t) (hu : u ∈ t.subterms) : r.Covers u :=
  fun v hv => h v (TypeRef.subterms_trans hu hv)

/-- An asynchronous type names no module itself. -/
theorem covers_unwrapAsync {t : TypeRef} : r.Covers t.unwrapAsync ↔ r.Covers t := by
  cases t with
  | async t =>
    constructor
    · intro h u hu id hid
      rcases List.mem_cons.mp hu with rfl | hu
      · cases hid
      · exact h u hu id hid
    · exact fun h => h.of_mem (List.mem_cons_of_mem _ t.mem_subterms_self)
  | _ => exact Iff.rfl

theorem covers_of_resolve {c : Catalog} {ts : List TypeRef} (h : c.resolve ts = .ok r) {t : TypeRef}
    (ht : t ∈ ts) : r.Covers t := by
  intro u hu id hid
  have hnamed : u.isNamed = true := by
    cases u with
    | named => rfl
    | _ => cases hid
  have hused : t ∈ Catalog.bootstrapTypes ++ ts := List.mem_append_right _ ht
  obtain ⟨id', hid', hcontains⟩ := Catalog.resolve_contains h hused hu hnamed
  obtain rfl : id = id' := Option.some.inj (hid.symm.trans hid')
  exact hcontains

end ReferenceSet

namespace TypeRef

/-- Every named type in a type names its module. -/
def Located (t : TypeRef) : Prop :=
  ∀ u ∈ t.subterms, u.isNamed = true → u.module?.isSome = true

theorem Located.of_mem {t u : TypeRef} (h : t.Located) (hu : u ∈ t.subterms) : u.Located :=
  fun v hv => h v (subterms_trans hu hv)

theorem Located.of_mem_children {t u : TypeRef} (h : t.Located) (hu : u ∈ t.children) : u.Located :=
  h.of_mem (mem_subterms_iff.mpr (.inr ⟨u, hu, u.mem_subterms_self⟩))

theorem located_unwrapAsync {t : TypeRef} : t.unwrapAsync.Located ↔ t.Located := by
  cases t with
  | async t =>
    constructor
    · intro h u hu hnamed
      rcases List.mem_cons.mp hu with rfl | hu
      · cases hnamed
      · exact h u hu hnamed
    · exact fun h => h.of_mem_children (List.mem_singleton_self t)
  | _ => exact Iff.rfl

theorem located_of_resolve {c : Catalog} {ts : List TypeRef} {r : ReferenceSet}
    (h : c.resolve ts = .ok r) {t : TypeRef} (ht : t ∈ ts) : t.Located := by
  intro u hu hnamed
  have hused : t ∈ Catalog.bootstrapTypes ++ ts := List.mem_append_right _ ht
  obtain ⟨id, hid, -⟩ := Catalog.resolve_contains h hused hu hnamed
  rw [hid]
  rfl

end TypeRef

namespace Catalog

/-- A type is declared if its parts are: those with a name in modules that compiled code can refer
to, each with as many arguments as it takes. An asynchronous type is no part of it. -/
def DeclaresPart (c : Catalog) : TypeRef → Prop
  | .named id name args => ∃ m info, c.locate (.named id name args) = .ok m ∧
      m.type? name = some info ∧ info.genericArity = args.length
  | .array _ => True
  | .async _ => False

def Declares (c : Catalog) (t : TypeRef) : Prop :=
  ∀ u ∈ t.subterms, c.DeclaresPart u

end Catalog

end EndpointCompiler
