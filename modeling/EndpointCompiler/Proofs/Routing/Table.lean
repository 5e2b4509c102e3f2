import EndpointCompiler.Proofs.Routing.Growth
import EndpointCompiler.Routing.Router

/-! The table of routes beside the tree. The tree goes by segments and the table by the texts of
templates, so that they keep in step as long as no two texts have the same segments. -/

namespace EndpointCompiler

namespace RouteRow

/-- By which a row is replaced. -/
def key (row : RouteRow) : Method × String :=
  (row.method, row.template)

/-- Where the tree keeps the operation of a row. -/
def slot (row : RouteRow) : Method × List Segment :=
  (row.method, templateSegments row.template)

theorem slot_of_key {row row' : RouteRow} (h : row.key = row'.key) : row.slot = row'.slot := by
  simp only [key, Prod.mk.injEq] at h
  rw [slot, slot, h.1, h.2]

end RouteRow

def RoutedOperation.insertion (o : RoutedOperation) : Insertion RoutedOperation :=
  ⟨o.row.method, o.row.template, o⟩

namespace Router

/-- The operation that the tree holds for a method and segments. -/
def stored (r : Router) (slot : Method × List Segment) : Option RoutedOperation :=
  r.tree.root.lookup slot.1 slot.2

/-- Each row is that of one stored operation, and each stored operation has its row. -/
def Mirrored (r : Router) : Prop :=
  ∃ slots : List (Method × List Segment), slots.Nodup ∧
    (∀ slot, slot ∈ slots ↔ (r.stored slot).isSome) ∧ slots.length = r.tree.size ∧
    List.Forall₂ (fun slot row => ∃ o, r.stored slot = some o ∧ o.row = row) slots r.rows

/-- The router of operations that are added one after another. -/
def ofOperations (os : List RoutedOperation) : Router :=
  os.foldl (fun r o => r.add o.owner o.operation) empty

theorem ofOperations_concat (os : List RoutedOperation) (o : RoutedOperation) :
    ofOperations (os ++ [o]) = (ofOperations os).add o.owner o.operation :=
  List.foldl_concat ..

/-- The routers of a host are made by adding the operations of its types. -/
theorem ofTypes_eq (types : List TypeInfo) :
    ofTypes types =
      ofOperations (types.flatMap fun t => t.operations.map fun o => ⟨t.typeRef, o⟩) := by
  rw [ofTypes, ofOperations, List.foldl_flatMap]
  congr 1
  funext r t
  rw [addType, List.foldl_map]

variable {os : List RoutedOperation} {o : RoutedOperation}

theorem tree_ofOperations (os : List RoutedOperation) :
    (ofOperations os).tree = RouteTree.ofInsertions (os.map (·.insertion)) := by
  induction os using List.reverseRecOn with
  | nil => rfl
  | append_singleton os o ih =>
    rw [ofOperations_concat, List.map_append, List.map_singleton, RouteTree.ofInsertions_concat,
      ← ih]
    rfl

/-- The tree keeps the last operation of those that go to one slot. -/
theorem stored_eq_some {slot : Method × List Segment} :
    (ofOperations os).stored slot = some o ↔ o.row.slot = slot ∧ LastOf (·.row.slot) os o := by
  rw [stored, tree_ofOperations, RouteTree.root_ofInsertions, RouteNode.lookup_grow, List.map_map]
  simp only [lastOf_map]
  constructor
  · rintro ⟨_, ⟨o', hlast, rfl⟩, hslot, rfl⟩
    exact ⟨hslot, hlast⟩
  · rintro ⟨hslot, hlast⟩
    exact ⟨_, ⟨o, hlast, rfl⟩, hslot, rfl⟩

theorem stored_isSome (h : o ∈ os) : ((ofOperations os).stored o.row.slot).isSome := by
  obtain ⟨last, hlast, hslot⟩ := exists_lastOf (f := fun o : RoutedOperation => o.row.slot) h
  rw [stored_eq_some.mpr ⟨hslot, hlast⟩]
  rfl

/-! The rows are those of the last operations with the same method and text, whether or not the tree
still has them. -/

theorem rows_concat (hrows : ∀ row ∈ (ofOperations os).rows, ∃ o ∈ os, o.row = row) :
    (ofOperations (os ++ [o])).rows =
      (ofOperations os).rows.filter (fun row => row.key ≠ o.row.key) ++ [o.row] := by
  have hadd : (ofOperations (os ++ [o])).rows =
      (if ((ofOperations os).stored o.row.slot).isSome then
        (ofOperations os).rows.filter fun old =>
          !(old.method == o.row.method && old.template == o.row.template)
      else (ofOperations os).rows) ++ [o.row] := by
    rw [ofOperations_concat, stored, RouteRow.slot, ← RouteNode.insert_fst o.row.method o]
    rfl
  have hkey : ∀ old : RouteRow, (!(old.method == o.row.method && old.template == o.row.template)) =
      decide (old.key ≠ o.row.key) := by
    intro old
    rw [Bool.eq_iff_iff]
    simp [RouteRow.key]
  simp only [hadd, hkey]
  by_cases hstored : ((ofOperations os).stored o.row.slot).isSome
  · rw [if_pos hstored]
  · rw [if_neg hstored]
    congr 1
    symm
    apply List.filter_eq_self.mpr
    intro row hrow
    obtain ⟨o', ho', rfl⟩ := hrows row hrow
    have hne : o'.row.key ≠ o.row.key := by
      intro hkey
      have hsome := stored_isSome ho'
      rw [RouteRow.slot_of_key hkey] at hsome
      exact hstored hsome
    exact decide_eq_true hne

theorem rows_listed (os : List RoutedOperation) :
    (∀ row, row ∈ (ofOperations os).rows ↔ ∃ o, LastOf (·.row.key) os o ∧ o.row = row) ∧
      ((ofOperations os).rows.map (·.key)).Nodup := by
  induction os using List.reverseRecOn with
  | nil => simp [ofOperations, empty, LastOf]
  | append_singleton os o ih =>
    obtain ⟨hrows, hnodup⟩ := ih
    have hadded : ∀ row ∈ (ofOperations os).rows, ∃ o ∈ os, o.row = row := by
      intro row hrow
      obtain ⟨o', hlast, rfl⟩ := (hrows row).mp hrow
      exact ⟨o', hlast.mem, rfl⟩
    rw [rows_concat hadded]
    constructor
    · intro row
      simp only [List.mem_append, List.mem_filter, List.mem_singleton, hrows, lastOf_concat,
        decide_eq_true_eq]
      constructor
      · rintro (⟨⟨o', hlast, rfl⟩, hne⟩ | rfl)
        · exact ⟨o', .inr ⟨hlast, Ne.symm hne⟩, rfl⟩
        · exact ⟨o, .inl rfl, rfl⟩
      · rintro ⟨o', rfl | ⟨hlast, hne⟩, rfl⟩
        · exact .inr rfl
        · exact .inl ⟨⟨o', hlast, rfl⟩, Ne.symm hne⟩
    · rw [List.map_append, List.nodup_append]
      refine ⟨hnodup.sublist (List.filter_sublist.map _), by simp, ?_⟩
      intro key hkey key' hkey'
      obtain ⟨row, hrow, rfl⟩ := List.mem_map.mp hkey
      obtain rfl : key' = o.row.key := by simpa using hkey'
      exact of_decide_eq_true (List.mem_filter.mp hrow).2

theorem row_mem_of_stored {slot : Method × List Segment}
    (h : (ofOperations os).stored slot = some o) : o.row ∈ (ofOperations os).rows := by
  obtain ⟨rfl, before, after, hos, hafter⟩ := stored_eq_some.mp h
  have hlast : LastOf (·.row.key) os o :=
    ⟨before, after, hos, fun o' ho' hkey => hafter o' ho' (RouteRow.slot_of_key hkey)⟩
  exact ((rows_listed os).1 o.row).mpr ⟨o, hlast, rfl⟩

/-- No two operations have templates of the same segments that are written in different ways. -/
def WrittenAlike (os : List RoutedOperation) : Prop :=
  ∀ o ∈ os, ∀ o' ∈ os, o.row.slot = o'.row.slot → o.row.template = o'.row.template

theorem mirrored_of_writtenAlike (h : WrittenAlike os) : (ofOperations os).Mirrored := by
  obtain ⟨hrows, hnodup⟩ := rows_listed os
  have hstored : ∀ row ∈ (ofOperations os).rows,
      ∃ o, (ofOperations os).stored row.slot = some o ∧ o.row = row := by
    intro row hrow
    obtain ⟨o, ⟨before, after, hos, hafter⟩, rfl⟩ := (hrows row).mp hrow
    refine ⟨o, stored_eq_some.mpr ⟨rfl, before, after, hos, ?_⟩, rfl⟩
    intro o' ho' hslot
    have htemplate := h o' (by simp [hos, ho']) o (by simp [hos]) hslot
    exact hafter o' ho' (Prod.ext (Prod.ext_iff.mp hslot).1 htemplate)
  have hslots : ∀ slot, slot ∈ (ofOperations os).rows.map (·.slot) ↔
      ((ofOperations os).stored slot).isSome := by
    intro slot
    rw [List.mem_map, Option.isSome_iff_exists]
    constructor
    · rintro ⟨row, hrow, rfl⟩
      obtain ⟨o, ho, -⟩ := hstored row hrow
      exact ⟨o, ho⟩
    · rintro ⟨o, ho⟩
      exact ⟨o.row, row_mem_of_stored ho, (stored_eq_some.mp ho).1⟩
  -- Two rows of one slot hold what the tree stores there, so that they are the same row.
  have hdistinct : ((ofOperations os).rows.map (·.slot)).Nodup := by
    refine List.Nodup.map_on ?_ (List.Nodup.of_map _ hnodup)
    intro row hrow row' hrow' hslot
    obtain ⟨o, ho, rfl⟩ := hstored row hrow
    obtain ⟨o', ho', rfl⟩ := hstored row' hrow'
    rw [hslot, ho'] at ho
    cases ho
    rfl
  obtain ⟨slots, hnodup', hslots', hsize⟩ := RouteTree.exists_slots (os.map (·.insertion))
  rw [← tree_ofOperations] at hslots' hsize
  have hperm : ((ofOperations os).rows.map (·.slot)).Perm slots :=
    (List.perm_ext_iff_of_nodup hdistinct hnodup').mpr fun slot =>
      (hslots slot).trans (hslots' slot).symm
  refine ⟨_, hdistinct, hslots, hperm.length_eq.trans hsize.symm, ?_⟩
  rw [List.forall₂_map_left_iff, List.forall₂_same]
  exact hstored

/-- Each stored operation has exactly one row. These are all the rows if and only if no template is
written in two ways. -/
theorem rows_mirror (os : List RoutedOperation) :
    (∀ slot o, (ofOperations os).stored slot = some o →
        (ofOperations os).rows.count o.row = 1) ∧
      ((ofOperations os).Mirrored ↔ WrittenAlike os) := by
  obtain ⟨hrows, hnodup⟩ := rows_listed os
  refine ⟨fun slot o ho => ?_, fun h => ?_, mirrored_of_writtenAlike⟩
  · exact List.count_eq_one_of_mem (List.Nodup.of_map _ hnodup) (row_mem_of_stored ho)
  · obtain ⟨slots, -, -, -, hmatch⟩ := h
    -- Whichever way it was last written, a template has a row, and that row is of the slot.
    have hlisted : ∀ o ∈ os, ∃ last, (ofOperations os).stored o.row.slot = some last ∧
        last.row.key = o.row.key := by
      intro o ho
      obtain ⟨last, hlast, hkey⟩ := exists_lastOf (f := fun o : RoutedOperation => o.row.key) ho
      have hrow := (hrows last.row).mpr ⟨last, hlast, rfl⟩
      obtain ⟨slot, -, kept, hkept, hsame⟩ := exists_left_of_forall₂ hmatch hrow
      obtain ⟨rfl, -⟩ := stored_eq_some.mp hkept
      rw [hsame, RouteRow.slot_of_key hkey] at hkept
      exact ⟨kept, hkept, by rw [hsame, hkey]⟩
    intro o ho o' ho' hslot
    obtain ⟨last, hlast, hkey⟩ := hlisted o ho
    obtain ⟨last', hlast', hkey'⟩ := hlisted o' ho'
    rw [hslot, hlast'] at hlast
    cases hlast
    exact (Prod.ext_iff.mp (hkey.symm.trans hkey')).2

/-- A host's own operation, which fails. -/
def hostOperation (template name : String) : RoutedOperation :=
  ⟨.named none "Host" [], .hosted ⟨name, ⟨.get, template, none⟩,
    fun _ _ => .error (.binding (.missingPathParam name))⟩⟩

/-- The second operation replaces the first in the tree, and the row of the first stays. -/
theorem rows_stale :
    let r := ofOperations [hostOperation "/ping" "Ping", hostOperation "/ping/" "Ping2"]
    r.rows.map (·.operation) = ["Ping", "Ping2"] ∧ r.tree.size = 1 ∧ ¬ r.Mirrored := by
  have hrows : (ofOperations [hostOperation "/ping" "Ping",
      hostOperation "/ping/" "Ping2"]).rows.map (·.operation) = ["Ping", "Ping2"] := by
    decide +kernel
  have hsize : (ofOperations [hostOperation "/ping" "Ping",
      hostOperation "/ping/" "Ping2"]).tree.size = 1 := by
    decide +kernel
  refine ⟨hrows, hsize, ?_⟩
  rintro ⟨slots, -, -, hlength, hmatch⟩
  have hcount := congrArg List.length hrows
  rw [List.length_map, ← hmatch.length_eq, hlength, hsize] at hcount
  simp at hcount

end Router

end EndpointCompiler
