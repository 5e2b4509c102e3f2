import EndpointCompiler.Proofs.Image.Loading

/-! References to locals that are not there. An expression may refer to a local that comes later, to
itself or to none at all: such a reference is null when the expression is evaluated, and it is what
is left of the locals when they are put in the place of their names. -/

namespace EndpointCompiler

namespace ValueExpr

mutual

/-- The locals that an expression refers to. -/
def usedLocals : ValueExpr → List Nat
  | .param _ => []
  | .local i => [i]
  | .field base _ => base.usedLocals
  | .new _ fields => usedLocalsOfFields fields

def usedLocalsOfFields : List (String × ValueExpr) → List Nat
  | [] => []
  | (_, value) :: fields => value.usedLocals ++ usedLocalsOfFields fields

end

/-- A reference that leads to no local: the expression makes it itself, or it refers to a local that
makes it among the locals before it. -/
inductive Dangles : List ValueExpr → ValueExpr → Nat → Prop where
  | missing {locals : List ValueExpr} {e : ValueExpr} {j : Nat} :
      j ∈ e.usedLocals → locals[j]? = none → Dangles locals e j
  | through {locals : List ValueExpr} {e e' : ValueExpr} {i j : Nat} :
      i ∈ e.usedLocals → locals[i]? = some e' → Dangles (locals.take i) e' j → Dangles locals e j

/-- A reference that is left where the given expressions are put in the place of the locals. -/
def LeftBy (done : List ValueExpr) (used : List Nat) (j : Nat) : Prop :=
  ∃ i ∈ used, j ∈ (done[i]?.getD (.local i)).usedLocals

theorem leftBy_append {done : List ValueExpr} {used used' : List Nat} {j : Nat} :
    LeftBy done (used ++ used') j ↔ LeftBy done used j ∨ LeftBy done used' j := by
  simp only [LeftBy, List.mem_append, or_and_right, exists_or]

theorem leftBy_singleton {done : List ValueExpr} {i j : Nat} :
    LeftBy done [i] j ↔ j ∈ (done[i]?.getD (.local i)).usedLocals := by
  simp only [LeftBy, List.mem_singleton, exists_eq_left]

mutual

theorem mem_usedLocals_substitute {done : List ValueExpr} {j : Nat} (e : ValueExpr) :
    j ∈ (e.substitute done).usedLocals ↔ LeftBy done e.usedLocals j := by
  match e with
  | .param i => simp [substitute, usedLocals, LeftBy]
  | .local i => rw [substitute, usedLocals, leftBy_singleton]
  | .field base name => rw [substitute, usedLocals, usedLocals, mem_usedLocals_substitute base]
  | .new type fields =>
    rw [substitute, usedLocals, usedLocals, mem_usedLocalsOfFields_substitute fields]

theorem mem_usedLocalsOfFields_substitute {done : List ValueExpr} {j : Nat}
    (fields : List (String × ValueExpr)) :
    j ∈ usedLocalsOfFields (substituteFields done fields) ↔
      LeftBy done (usedLocalsOfFields fields) j := by
  match fields with
  | [] => simp [substituteFields, usedLocalsOfFields, LeftBy]
  | (name, value) :: fields =>
    rw [substituteFields, usedLocalsOfFields, usedLocalsOfFields, List.mem_append, leftBy_append,
      mem_usedLocals_substitute value, mem_usedLocalsOfFields_substitute fields]

end

/-- Each local is expanded by those before it alone. -/
theorem getElem?_expandLocals (locals : List ValueExpr) (i : Nat) :
    (expandLocals locals)[i]? =
      locals[i]?.map fun e => e.substitute (expandLocals (locals.take i)) := by
  induction locals using List.reverseRecOn with
  | nil => rfl
  | append_singleton locals e ih =>
    have hlength := expandLocals_length locals
    rw [expandLocals_concat]
    rcases Nat.lt_trichotomy i locals.length with hi | rfl | hi
    · rw [List.getElem?_append_left (hlength ▸ hi), ih, List.getElem?_append_left hi,
        List.take_append_of_le_length (Nat.le_of_lt hi)]
    · simp [hlength]
    · rw [List.getElem?_eq_none (by simp; omega), List.getElem?_eq_none (by simp; omega)]
      rfl

theorem getElem?_evalLocals (params : List Json) (locals : List ValueExpr) (i : Nat) :
    (evalLocals params locals)[i]? =
      locals[i]?.map fun e => e.eval params (evalLocals params (locals.take i)) := by
  rw [← eval_expandLocals, List.getElem?_map, getElem?_expandLocals, Option.map_map]
  cases locals[i]? with
  | none => rfl
  | some e => simp only [Option.map_some, Function.comp_apply, eval_substitute, eval_expandLocals]

/-- What is left of references to locals are the dangling ones. -/
theorem mem_usedLocals_expanded {locals : List ValueExpr} {e : ValueExpr} {j : Nat} :
    j ∈ (e.substitute (expandLocals locals)).usedLocals ↔ Dangles locals e j := by
  induction hn : locals.length using Nat.strongRecOn generalizing locals e with
  | ind n ih =>
    -- Of a local that is there, what is left is what dangles among the locals before it.
    have hlocal : ∀ {i : Nat} {e' : ValueExpr}, locals[i]? = some e' →
        (j ∈ ((expandLocals locals)[i]?.getD (.local i)).usedLocals ↔
          Dangles (locals.take i) e' j) := by
      intro i e' he
      have hi : i < locals.length := (List.getElem?_eq_some_iff.mp he).1
      have hshort : (locals.take i).length < n := by
        rw [List.length_take]
        omega
      rw [getElem?_expandLocals, he]
      exact ih _ hshort rfl
    have hmissing : ∀ {i : Nat}, locals[i]? = none →
        (expandLocals locals)[i]?.getD (.local i) = .local i := by
      intro i hi
      rw [getElem?_expandLocals, hi]
      rfl
    rw [mem_usedLocals_substitute]
    constructor
    · rintro ⟨i, hi, hj⟩
      cases he : locals[i]? with
      | some e' => exact .through hi he ((hlocal he).mp hj)
      | none =>
        rw [hmissing he] at hj
        obtain rfl := List.mem_singleton.mp hj
        exact .missing hi he
    · rintro (⟨hj, he⟩ | ⟨hi, he, hdangles⟩)
      · refine ⟨j, hj, ?_⟩
        rw [hmissing he]
        exact List.mem_singleton_self j
      · exact ⟨_, hi, (hlocal he).mpr hdangles⟩

/-- Nothing dangles where every reference is to a local before it. -/
theorem not_dangles {locals : List ValueExpr} {e : ValueExpr} {j : Nat}
    (hlocals : ∀ (k : Nat) (hk : k < locals.length), ∀ i ∈ locals[k].usedLocals, i < k)
    (he : ∀ i ∈ e.usedLocals, i < locals.length) : ¬ Dangles locals e j := by
  intro h
  induction h with
  | missing hj hnone => exact absurd (he _ hj) (Nat.not_lt.mpr (List.getElem?_eq_none_iff.mp hnone))
  | @through locals e e' i j hi hsome _ ih =>
    obtain ⟨hlt, rfl⟩ := List.getElem?_eq_some_iff.mp hsome
    refine ih (fun k hk m hm => ?_) fun k hk => ?_
    · rw [List.length_take] at hk
      rw [List.getElem_take] at hm
      exact hlocals k (by omega) m hm
    · have hki : k < i := hlocals i hlt k hk
      rw [List.length_take]
      omega

end ValueExpr

namespace OperationImage

theorem inlineLocals_arg (op : OperationImage) :
    op.inlineLocals.call.arg = op.call.arg.substitute (ValueExpr.expandLocals op.locals) := by
  unfold inlineLocals
  split
  · rename_i hempty
    rw [List.isEmpty_iff.mp hempty, ValueExpr.expandLocals_nil, ValueExpr.substitute_nil]
  · rfl

/-- Every reference of an operation to a local is to one that comes before it. -/
structure LocalsInOrder (op : OperationImage) : Prop where
  locals : ∀ (k : Nat) (hk : k < op.locals.length), ∀ i ∈ op.locals[k].usedLocals, i < k
  arg : ∀ i ∈ op.call.arg.usedLocals, i < op.locals.length

/-- Whatever an operation refers to, it builds the same request with its locals, which come to
values one after another, as with their definitions in their places. Of its references the dangling
ones are left, so none is if each local refers to those before it. -/
theorem inlineLocals_evaluates (op : OperationImage) (params : List Json) :
    (∀ i : Nat, (ValueExpr.evalLocals params op.locals)[i]? = op.locals[i]?.map fun e =>
        e.eval params (ValueExpr.evalLocals params (op.locals.take i))) ∧
      op.inlineLocals.request params = op.request params ∧
      (∀ j, j ∈ op.inlineLocals.call.arg.usedLocals ↔
        ValueExpr.Dangles op.locals op.call.arg j) ∧
      (op.LocalsInOrder →
        op.inlineLocals.locals = [] ∧ op.inlineLocals.call.arg.usedLocals = []) := by
  have hleft : ∀ j, j ∈ op.inlineLocals.call.arg.usedLocals ↔
      ValueExpr.Dangles op.locals op.call.arg j := fun j => by
    rw [inlineLocals_arg]
    exact ValueExpr.mem_usedLocals_expanded
  refine ⟨ValueExpr.getElem?_evalLocals params op.locals, op.request_inlineLocals params, hleft,
    fun h => ⟨op.inlineLocals_locals, ?_⟩⟩
  rw [List.eq_nil_iff_forall_not_mem]
  exact fun j hj => ValueExpr.not_dangles h.locals h.arg ((hleft j).mp hj)

/-- An operation whose second local is an object that holds the first one twice. -/
def nestedOperation : OperationImage :=
  ⟨"f", "POST", "/", none, [⟨"b", "b", .body, .declared "shop" "B"⟩],
    [.field (.param 0) "n", .new (.declared "shop" "S") [("n", .local 0), ("m", .local 0)]],
    ⟨.declared "shop" "S", Primitive.int.type, false, .local 1⟩⟩

/-- One whose locals refer to themselves, to later ones and to none, and so does its argument. -/
def tangledOperation : OperationImage :=
  ⟨"f", "POST", "/", none, [],
    [.local 0, .field (.local 2) "n", .param 7,
      .new (.declared "shop" "S") [("a", .local 1), ("b", .local 2), ("c", .local 3)]],
    ⟨.declared "shop" "S", Primitive.int.type, false,
      .new (.declared "shop" "S") [("d", .local 3), ("e", .local 0), ("f", .local 4)]⟩⟩

theorem inlineLocals_evaluates_nested (params : List Json) :
    nestedOperation.LocalsInOrder ∧
      nestedOperation.inlineLocals.request params = nestedOperation.request params ∧
      nestedOperation.inlineLocals.call.arg.usedLocals = [] ∧
      tangledOperation.inlineLocals.request params = tangledOperation.request params ∧
      tangledOperation.inlineLocals.call.arg.usedLocals = [2, 3, 0, 4] := by
  have horder : nestedOperation.LocalsInOrder := ⟨by decide, by decide⟩
  have hnested := inlineLocals_evaluates nestedOperation params
  have htangled := inlineLocals_evaluates tangledOperation params
  exact ⟨horder, hnested.2.1, (hnested.2.2.2 horder).2, htangled.2.1, by decide⟩

end OperationImage

end EndpointCompiler
