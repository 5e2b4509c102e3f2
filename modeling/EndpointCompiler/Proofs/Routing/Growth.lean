import EndpointCompiler.Proofs.History
import EndpointCompiler.Proofs.Matching
import EndpointCompiler.Routing.Tree

/-! What a tree of routes holds, told by what has been put into it. A branch of a node is itself the
tree of the entries that go on with its segment, in the same order. -/

namespace EndpointCompiler

/-- A value that is put into a tree under a method and the segments of a template. -/
@[ext] structure Entry (α : Type) where
  method : Method
  segments : List Segment
  value : α

section

variable {α : Type}

namespace Entry

def under (s : Segment) (e : Entry α) : Entry α :=
  { e with segments := s :: e.segments }

/-- What is left of an entry below its first segment. -/
def below? (s : Segment) (e : Entry α) : Option (Entry α) :=
  match e.segments with
  | [] => none
  | t :: rest => if t = s then some { e with segments := rest } else none

theorem below?_eq_some {s : Segment} {e e' : Entry α} : e.below? s = some e' ↔ e = e'.under s := by
  obtain ⟨method, segments, value⟩ := e
  cases segments with
  | nil => simp [below?, under]
  | cons t rest =>
    by_cases ht : t = s
    · simp only [below?, under, ht, if_true, Option.some.injEq, Entry.ext_iff, List.cons.injEq,
        true_and]
    · simp [below?, under, ht]

end Entry

/-- The entries that go on with a segment, below it. -/
def entriesBelow (s : Segment) (es : List (Entry α)) : List (Entry α) :=
  es.filterMap (·.below? s)

theorem mem_entriesBelow {s : Segment} {es : List (Entry α)} {e : Entry α} :
    e ∈ entriesBelow s es ↔ e.under s ∈ es := by
  simp [entriesBelow, List.mem_filterMap, Entry.below?_eq_some]

theorem entriesBelow_append (s : Segment) (es es' : List (Entry α)) :
    entriesBelow s (es ++ es') = entriesBelow s es ++ entriesBelow s es' :=
  List.filterMap_append

theorem exists_of_entriesBelow_eq {s : Segment} {es before after : List (Entry α)} {e : Entry α}
    (h : entriesBelow s es = before ++ e :: after) :
    ∃ before' after', es = before' ++ e.under s :: after' ∧
      entriesBelow s before' = before ∧ entriesBelow s after' = after := by
  obtain ⟨before', rest, rfl, hbefore, hrest⟩ := List.filterMap_eq_append_iff.mp h
  obtain ⟨skipped, e', after', rfl, hskipped, he, hafter⟩ := List.filterMap_eq_cons_iff.mp hrest
  have hnone : entriesBelow s skipped = [] := List.filterMap_eq_nil_iff.mpr hskipped
  obtain rfl := Entry.below?_eq_some.mp he
  refine ⟨before' ++ skipped, after', by simp, ?_, hafter⟩
  rw [entriesBelow_append, hnone, List.append_nil]
  exact hbefore

/-- The names that the first segments of entries have, each where it first occurs. -/
def headNames (read : Segment → Option String) (es : List (Entry α)) : List String :=
  (es.filterMap fun e => e.segments.head?.bind read).eraseDups

def Segment.literal? : Segment → Option String
  | .literal text => some text
  | .placeholder _ => none

def Segment.placeholder? : Segment → Option String
  | .literal _ => none
  | .placeholder name => some name

theorem Segment.literal?_eq_some (s : Segment) (text : String) :
    s.literal? = some text ↔ s = .literal text := by
  cases s <;> simp [Segment.literal?]

theorem Segment.placeholder?_eq_some (s : Segment) (name : String) :
    s.placeholder? = some name ↔ s = .placeholder name := by
  cases s <;> simp [Segment.placeholder?]

variable {read : Segment → Option String}

theorem mem_headNames {es : List (Entry α)} {n : String} :
    n ∈ headNames read es ↔ ∃ e ∈ es, e.segments.head?.bind read = some n := by
  rw [headNames, List.mem_eraseDups, List.mem_filterMap]

theorem entriesBelow_of_notMem {s : Segment} {es : List (Entry α)} {n : String}
    (hs : read s = some n) (h : n ∉ headNames read es) : entriesBelow s es = [] := by
  apply List.eq_nil_iff_forall_not_mem.mpr
  intro e he
  have hmem : e.under s ∈ es := mem_entriesBelow.mp he
  have hhead : (e.under s).segments.head?.bind read = some n := hs
  exact h (mem_headNames.mpr ⟨_, hmem, hhead⟩)

theorem eraseDups_concat (ns : List String) (n : String) :
    (ns ++ [n]).eraseDups = if n ∈ ns then ns.eraseDups else ns.eraseDups ++ [n] := by
  rw [List.eraseDups_append]
  by_cases hn : n ∈ ns <;> simp [List.removeAll, hn, List.eraseDups_cons]

theorem headNames_concat (es : List (Entry α)) {e : Entry α} {n : String}
    (he : e.segments.head?.bind read = some n) :
    headNames read (es ++ [e]) =
      if n ∈ headNames read es then headNames read es else headNames read es ++ [n] := by
  simp only [headNames, List.filterMap_append, List.filterMap_cons, he, List.filterMap_nil,
    eraseDups_concat, List.mem_eraseDups]

namespace RouteNode

/-- The branch of a name, empty where there is none. -/
def branch (name : String) (bs : List (String × RouteNode α)) : RouteNode α :=
  ((bs.find? (·.1 == name)).map (·.2)).getD empty

def put (n : RouteNode α) (e : Entry α) : RouteNode α :=
  (n.insert e.method e.value e.segments).2

/-- The tree of entries that are put in one after another. -/
def grow (es : List (Entry α)) : RouteNode α :=
  es.foldl put empty

theorem grow_concat (es : List (Entry α)) (e : Entry α) : grow (es ++ [e]) = (grow es).put e :=
  List.foldl_concat ..

/-! The value that a node holds for the very segments of a template. -/

def lookup (method : Method) : List Segment → RouteNode α → Option α
  | [], n => (n.values.find? (·.1 == method)).map (·.2)
  | .literal text :: rest, n => lookup method rest (branch text n.literals)
  | .placeholder name :: rest, n => lookup method rest (branch name n.placeholders)

theorem setValue_fst (method : Method) (value : α) (vs : List (Method × α)) :
    (setValue method value vs).1 = (vs.find? (·.1 == method)).map (·.2) := by
  induction vs with
  | nil => rfl
  | cons v vs ih =>
    by_cases hv : v.1 = method
    · simp [setValue, hv]
    · simp [setValue, hv, ih]

theorem find?_setValue (method method' : Method) (value : α) (vs : List (Method × α)) :
    ((setValue method value vs).2.find? (·.1 == method')).map (·.2) =
      if method = method' then some value else (vs.find? (·.1 == method')).map (·.2) := by
  induction vs with
  | nil => by_cases hm : method = method' <;> simp [setValue, hm]
  | cons v vs ih =>
    by_cases hv : v.1 = method
    · by_cases hm : method = method'
      · simp [setValue, hv, hm]
      · simp [setValue, hv, hm]
    · by_cases hv' : v.1 = method'
      · have hm : method ≠ method' := fun hm => hv (hv'.trans hm.symm)
        simp [setValue, hv', hm, hm.symm]
      · simp [setValue, hv, hv', ih]

variable {change : RouteNode α → Option α × RouteNode α}

theorem changeBranch_fst (name : String) (bs : List (String × RouteNode α)) :
    (changeBranch name change bs).1 = (change (branch name bs)).1 := by
  induction bs with
  | nil => rfl
  | cons b bs ih =>
    by_cases hb : b.1 = name
    · simp [changeBranch, branch, hb]
    · simp [changeBranch, hb, ih, branch]

theorem branch_changeBranch (name name' : String) (bs : List (String × RouteNode α)) :
    branch name' (changeBranch name change bs).2 =
      if name = name' then (change (branch name bs)).2 else branch name' bs := by
  induction bs with
  | nil => by_cases hn : name = name' <;> simp [changeBranch, branch, hn]
  | cons b bs ih =>
    by_cases hb : b.1 = name
    · by_cases hn : name = name' <;> simp [changeBranch, branch, hb, hn]
    · by_cases hb' : b.1 = name'
      · have hn : name ≠ name' := fun hn => hb (hb'.trans hn.symm)
        simp [changeBranch, branch, hb', hn, hn.symm]
      · simpa [changeBranch, branch, hb, hb'] using ih

theorem lookup_empty (method : Method) (segments : List Segment) :
    lookup method segments (empty : RouteNode α) = none := by
  induction segments with
  | nil => rfl
  | cons s rest ih => cases s <;> exact ih

/-- What is put in replaces what the node holds for the same method and segments. -/
theorem insert_fst (method : Method) (value : α) (segments : List Segment) (n : RouteNode α) :
    (n.insert method value segments).1 = n.lookup method segments := by
  induction segments generalizing n with
  | nil =>
    cases n
    exact setValue_fst method value _
  | cons s rest ih =>
    obtain ⟨values, literals, placeholders⟩ := n
    cases s with
    | literal text => exact (changeBranch_fst text literals).trans (ih _)
    | placeholder name => exact (changeBranch_fst name placeholders).trans (ih _)

theorem lookup_insert (method method' : Method) (value : α) (segments segments' : List Segment)
    (n : RouteNode α) :
    (n.insert method value segments).2.lookup method' segments' =
      if method = method' ∧ segments = segments' then some value
      else n.lookup method' segments' := by
  induction segments generalizing n segments' with
  | nil =>
    obtain ⟨values, literals, placeholders⟩ := n
    cases segments' with
    | nil =>
      simpa [insert, lookup, RouteNode.values] using find?_setValue method method' value values
    | cons s' rest' =>
      rw [if_neg (by simp)]
      cases s' <;> rfl
  | cons s rest ih =>
    obtain ⟨values, literals, placeholders⟩ := n
    cases segments' with
    | nil =>
      rw [if_neg (by simp)]
      cases s <;> rfl
    | cons s' rest' =>
      cases s with
      -- Literals and placeholders are kept in lists of their own: neither disturbs the other.
      | literal text =>
        cases s' with
        | placeholder name => simp [insert, lookup, RouteNode.placeholders]
        | literal text' =>
          simp only [insert, lookup, RouteNode.literals, branch_changeBranch]
          by_cases ht : text = text'
          · rw [if_pos ht, ih]
            simp [ht]
          · rw [if_neg ht]
            simp [ht]
      | placeholder name =>
        cases s' with
        | literal text => simp [insert, lookup, RouteNode.literals]
        | placeholder name' =>
          simp only [insert, lookup, RouteNode.placeholders, branch_changeBranch]
          by_cases hn : name = name'
          · rw [if_pos hn, ih]
            simp [hn]
          · rw [if_neg hn]
            simp [hn]

end RouteNode

def Entry.slot (e : Entry α) : Method × List Segment :=
  (e.method, e.segments)

namespace RouteNode

/-- A tree holds the last value that was put in for a method and segments. -/
theorem lookup_grow {method : Method} {segments : List Segment} {es : List (Entry α)} {value : α} :
    (grow es).lookup method segments = some value ↔
      ∃ e, LastOf Entry.slot es e ∧ e.slot = (method, segments) ∧ e.value = value := by
  induction es using List.reverseRecOn with
  | nil =>
    have hnone : (grow ([] : List (Entry α))).lookup method segments = none :=
      lookup_empty method segments
    simp [hnone, LastOf]
  | append_singleton es e ih =>
    rw [grow_concat, put, lookup_insert]
    simp only [lastOf_concat]
    by_cases he : e.slot = (method, segments)
    · have hput : e.method = method ∧ e.segments = segments := Prod.ext_iff.mp he
      rw [if_pos hput]
      constructor
      · rintro ⟨⟩
        exact ⟨e, .inl rfl, he, rfl⟩
      · rintro ⟨e', rfl | ⟨-, hne⟩, he', rfl⟩
        · rfl
        · exact absurd (he.trans he'.symm) hne
    · have hput : ¬ (e.method = method ∧ e.segments = segments) := fun h => he (Prod.ext h.1 h.2)
      rw [if_neg hput, ih]
      constructor
      · rintro ⟨e', hlast, he', hvalue⟩
        exact ⟨e', .inr ⟨hlast, he' ▸ he⟩, he', hvalue⟩
      · rintro ⟨e', rfl | ⟨hlast, -⟩, he', hvalue⟩
        · exact absurd he' he
        · exact ⟨e', hlast, he', hvalue⟩

/-! The branches of a node, in the order in which they are tried. -/

theorem changeBranch_map {name : String} {names : List String} {f : String → RouteNode α}
    (hnames : names.Nodup) (hf : name ∉ names → f name = empty) :
    (changeBranch name change (names.map fun n => (n, f n))).2 =
      (if name ∈ names then names else names ++ [name]).map fun n =>
        (n, if n = name then (change (f name)).2 else f n) := by
  induction names with
  | nil => simp [changeBranch, hf]
  | cons n names ih =>
    obtain ⟨hn, hnames⟩ := List.nodup_cons.mp hnames
    by_cases heq : n = name
    · subst heq
      have hkeep : ∀ m ∈ names, (m, f m) = (m, if m = n then (change (f n)).2 else f m) := by
        intro m hm
        have hne : m ≠ n := fun h => hn (h ▸ hm)
        rw [if_neg hne]
      simp [changeBranch, List.map_congr_left hkeep]
    · have hmem : name ∈ n :: names ↔ name ∈ names := by simp [Ne.symm heq]
      have hrest := ih hnames fun h => hf (by rwa [hmem])
      simp only [List.map_cons, changeBranch, heq, if_false, hrest, hmem]
      by_cases hin : name ∈ names <;> simp [hin, heq]

variable {read : Segment → Option String} {write : String → Segment}

/-- The branches that entries make for the first segments of one kind. -/
def branchesOf (read : Segment → Option String) (write : String → Segment) (es : List (Entry α)) :
    List (String × RouteNode α) :=
  (headNames read es).map fun n => (n, grow (entriesBelow (write n) es))

theorem branchesOf_concat_other (hread : ∀ s n, read s = some n ↔ s = write n)
    (es : List (Entry α)) {e : Entry α} (he : e.segments.head?.bind read = none) :
    branchesOf read write (es ++ [e]) = branchesOf read write es := by
  have hbelow : ∀ n, e.below? (write n) = none := by
    intro n
    cases hb : e.below? (write n) with
    | none => rfl
    | some e' =>
      have hhead : read (write n) = none := by
        simpa [Entry.below?_eq_some.mp hb, Entry.under] using he
      rw [(hread _ n).mpr rfl] at hhead
      cases hhead
  have hnames : headNames read (es ++ [e]) = headNames read es := by
    simp [headNames, List.filterMap_append, he]
  have hentries : ∀ n, entriesBelow (write n) (es ++ [e]) = entriesBelow (write n) es := by
    intro n
    rw [entriesBelow_append]
    simp [entriesBelow, hbelow]
  simp only [branchesOf, hnames, hentries]

theorem branchesOf_concat (hread : ∀ s n, read s = some n ↔ s = write n) (es : List (Entry α))
    {e : Entry α} {n : String} {rest : List Segment} (he : e.segments = write n :: rest) :
    branchesOf read write (es ++ [e]) =
      (changeBranch n (insert e.method e.value rest) (branchesOf read write es)).2 := by
  have hn : read (write n) = some n := (hread _ n).mpr rfl
  have habsent : n ∉ headNames read es → grow (entriesBelow (write n) es) = empty := by
    intro h
    rw [entriesBelow_of_notMem hn h]
    rfl
  have hnames : headNames read (es ++ [e]) =
      if n ∈ headNames read es then headNames read es else headNames read es ++ [n] :=
    headNames_concat es (by simpa [he] using hn)
  have hnodup : (headNames read es).Nodup := eraseDups_nodup _
  rw [branchesOf, branchesOf, changeBranch_map hnodup habsent, hnames]
  refine List.map_congr_left fun m _ => ?_
  rw [entriesBelow_append]
  by_cases hm : m = n
  · subst hm
    have hbelow : entriesBelow (write m) [e] = [{ e with segments := rest }] := by
      simp [entriesBelow, Entry.below?, he]
    rw [if_pos rfl, hbelow, grow_concat]
    rfl
  · have hne : write n ≠ write m := by
      intro h
      rw [h, (hread _ m).mpr rfl] at hn
      exact hm (Option.some.inj hn)
    have hbelow : entriesBelow (write m) [e] = [] := by simp [entriesBelow, Entry.below?, he, hne]
    rw [if_neg hm, hbelow, List.append_nil]

theorem branches_grow (es : List (Entry α)) :
    (grow es).literals = branchesOf Segment.literal? .literal es ∧
      (grow es).placeholders = branchesOf Segment.placeholder? .placeholder es := by
  induction es using List.reverseRecOn with
  | nil => exact ⟨rfl, rfl⟩
  | append_singleton es e ih =>
    obtain ⟨hliterals, hplaceholders⟩ := ih
    rw [grow_concat, put]
    cases hgrow : grow es with
    | node values literals placeholders =>
      rw [hgrow] at hliterals hplaceholders
      cases hs : e.segments with
      | nil =>
        have hnone : ∀ read, e.segments.head?.bind read = (none : Option String) := by simp [hs]
        rw [branchesOf_concat_other Segment.literal?_eq_some es (hnone _),
          branchesOf_concat_other Segment.placeholder?_eq_some es (hnone _)]
        exact ⟨hliterals, hplaceholders⟩
      | cons s rest =>
        cases s with
        | literal text =>
          rw [branchesOf_concat Segment.literal?_eq_some es hs, ← hliterals,
            branchesOf_concat_other Segment.placeholder?_eq_some es (by rw [hs]; rfl)]
          exact ⟨rfl, hplaceholders⟩
        | placeholder name =>
          rw [branchesOf_concat Segment.placeholder?_eq_some es hs, ← hplaceholders,
            branchesOf_concat_other Segment.literal?_eq_some es (by rw [hs]; rfl)]
          exact ⟨hliterals, rfl⟩

end RouteNode

/-! Trees of insertions. -/

structure Insertion (α : Type) where
  method : Method
  template : String
  value : α

def Insertion.entry (i : Insertion α) : Entry α :=
  ⟨i.method, templateSegments i.template, i.value⟩

namespace RouteTree

/-- The tree of insertions, one after another. -/
def ofInsertions (is : List (Insertion α)) : RouteTree α :=
  is.foldl (fun t i => (t.insert i.method i.template i.value).2) empty

theorem ofInsertions_concat (is : List (Insertion α)) (i : Insertion α) :
    ofInsertions (is ++ [i]) = ((ofInsertions is).insert i.method i.template i.value).2 :=
  List.foldl_concat ..

theorem root_ofInsertions (is : List (Insertion α)) :
    (ofInsertions is).root = RouteNode.grow (is.map (·.entry)) := by
  induction is using List.reverseRecOn with
  | nil => rfl
  | append_singleton is i ih =>
    rw [ofInsertions_concat, List.map_append, List.map_singleton, RouteNode.grow_concat, ← ih]
    rfl

/-- A tree counts the methods and segments for which it holds a value. -/
theorem exists_slots (is : List (Insertion α)) :
    ∃ slots : List (Method × List Segment), slots.Nodup ∧
      (∀ slot, slot ∈ slots ↔ ((ofInsertions is).root.lookup slot.1 slot.2).isSome) ∧
      (ofInsertions is).size = slots.length := by
  induction is using List.reverseRecOn with
  | nil =>
    refine ⟨[], List.nodup_nil, fun slot => ?_, rfl⟩
    have hnone : (ofInsertions ([] : List (Insertion α))).root.lookup slot.1 slot.2 = none :=
      RouteNode.lookup_empty slot.1 slot.2
    simp [hnone]
  | append_singleton is i ih =>
    obtain ⟨slots, hnodup, hslots, hsize⟩ := ih
    let added : Method × List Segment := (i.method, templateSegments i.template)
    have hlookup : ∀ slot : Method × List Segment,
        (ofInsertions (is ++ [i])).root.lookup slot.1 slot.2 =
          if added = slot then some i.value else (ofInsertions is).root.lookup slot.1 slot.2 := by
      intro slot
      rw [ofInsertions_concat]
      refine (RouteNode.lookup_insert ..).trans ?_
      simp only [added, Prod.ext_iff]
    have hgrown : (ofInsertions (is ++ [i])).size =
        if ((ofInsertions is).root.lookup added.1 added.2).isSome then (ofInsertions is).size
        else (ofInsertions is).size + 1 := by
      rw [ofInsertions_concat, ← RouteNode.insert_fst added.1 i.value]
      rfl
    -- A slot that is already there is written over, and the size stays.
    by_cases hmem : added ∈ slots
    · refine ⟨slots, hnodup, fun slot => ?_, ?_⟩
      · rw [hlookup, hslots]
        by_cases heq : added = slot
        · subst heq
          simpa using (hslots added).mp hmem
        · rw [if_neg heq]
      · rw [hgrown, if_pos ((hslots added).mp hmem), hsize]
    · refine ⟨added :: slots, List.nodup_cons.mpr ⟨hmem, hnodup⟩, fun slot => ?_, ?_⟩
      · rw [hlookup, List.mem_cons, hslots]
        by_cases heq : added = slot
        · simp [heq]
        · simp [heq, Ne.symm heq]
      · rw [hgrown, if_neg (mt (hslots added).mpr hmem), hsize, List.length_cons]

end RouteTree

end

end EndpointCompiler
