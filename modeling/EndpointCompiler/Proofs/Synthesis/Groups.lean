import EndpointCompiler.Proofs.Matching
import EndpointCompiler.Synthesis.Operation
import Mathlib.Data.List.Induction
import Mathlib.Data.List.Nodup

/-! The groups of bindings that share a parameter. There is one group for each pair of target and
body-likeness, in the order in which the pairs first appear. -/

namespace EndpointCompiler

/-- What bindings of one group have in common. -/
def ParameterBinding.wireKey (b : ParameterBinding) : Bool × String :=
  (b.kind.isBodyLike, b.target)

/-- The different pairs of target and body-likeness, in the order of their first bindings. -/
def wireKeys (bs : List ParameterBinding) : List (Bool × String) :=
  (bs.map (·.wireKey)).eraseDups

def bindingsOf (bs : List ParameterBinding) (key : Bool × String) : List ParameterBinding :=
  bs.filter (·.wireKey = key)

def groupOf (bs : List ParameterBinding) (key : Bool × String) : ParamGroup :=
  ⟨key.1, key.2, bindingsOf bs key⟩

section

variable {bs : List ParameterBinding} {b : ParameterBinding} {key : Bool × String}

theorem bindingsOf_concat : bindingsOf (bs ++ [b]) key =
    bindingsOf bs key ++ if b.wireKey = key then [b] else [] := by
  by_cases h : b.wireKey = key
  · simp [bindingsOf, h]
  · simp [bindingsOf, h]

theorem wireKeys_concat : wireKeys (bs ++ [b]) =
    wireKeys bs ++ if b.wireKey ∈ wireKeys bs then [] else [b.wireKey] := by
  have hmem : b.wireKey ∈ wireKeys bs ↔ b.wireKey ∈ bs.map (·.wireKey) := List.mem_eraseDups
  have happend : wireKeys (bs ++ [b]) =
      wireKeys bs ++ ([b.wireKey].removeAll (bs.map (·.wireKey))).eraseDups := by
    rw [wireKeys, List.map_append, List.eraseDups_append]
    rfl
  rw [happend]
  by_cases h : b.wireKey ∈ wireKeys bs
  · have hc : (bs.map (·.wireKey)).elem b.wireKey = true := List.elem_eq_true_of_mem (hmem.mp h)
    simp only [List.removeAll, List.filter_cons, List.filter_nil, hc, h, Bool.not_true,
      Bool.false_eq_true, if_true, if_false, List.eraseDups_nil]
  · have hc : (bs.map (·.wireKey)).elem b.wireKey = false := by
      rw [Bool.eq_false_iff]
      exact fun he => h (hmem.mpr (List.mem_of_elem_eq_true he))
    simp only [List.removeAll, List.filter_cons, List.filter_nil, hc, h, Bool.not_false,
      if_true, if_false, List.eraseDups_cons, List.eraseDups_nil]

theorem mem_wireKeys : key ∈ wireKeys bs ↔ ∃ b ∈ bs, b.wireKey = key := by
  rw [wireKeys, List.mem_eraseDups, List.mem_map]

theorem wireKeys_nodup (bs : List ParameterBinding) : (wireKeys bs).Nodup :=
  eraseDups_nodup _

theorem bindingsOf_ne_nil (h : key ∈ wireKeys bs) : bindingsOf bs key ≠ [] := by
  obtain ⟨b, hb, hkey⟩ := mem_wireKeys.mp h
  have hmem : b ∈ bindingsOf bs key := by simp [bindingsOf, hb, hkey]
  exact List.ne_nil_of_mem hmem

theorem mem_bindingsOf : b ∈ bindingsOf bs key ↔ b ∈ bs ∧ b.wireKey = key := by
  simp [bindingsOf]

theorem mem_groupedBindings : b ∈ (wireKeys bs).flatMap (bindingsOf bs) ↔ b ∈ bs := by
  rw [List.mem_flatMap]
  constructor
  · rintro ⟨key, -, hb⟩
    exact (mem_bindingsOf.mp hb).1
  · exact fun hb => ⟨b.wireKey, mem_wireKeys.mpr ⟨b, hb, rfl⟩, mem_bindingsOf.mpr ⟨hb, rfl⟩⟩

/-- A binding is put into the group of its key, or into a new one at the end. -/
theorem insertBinding_map (keys : List (Bool × String)) (hkeys : keys.Nodup)
    (f : Bool × String → List ParameterBinding) :
    insertBinding b (keys.map fun k => ⟨k.1, k.2, f k⟩) =
      keys.map (fun k => ⟨k.1, k.2, f k ++ if b.wireKey = k then [b] else []⟩) ++
        if b.wireKey ∈ keys then [] else [⟨b.wireKey.1, b.wireKey.2, [b]⟩] := by
  induction keys with
  | nil => simp [insertBinding, ParameterBinding.wireKey]
  | cons k keys ih =>
    have hk : k.1 = b.kind.isBodyLike ∧ k.2 = b.target ↔ b.wireKey = k := by
      obtain ⟨k₁, k₂⟩ := k
      simp [ParameterBinding.wireKey, eq_comm]
    rw [List.nodup_cons] at hkeys
    rw [List.map_cons, insertBinding]
    by_cases h : b.wireKey = k
    · have hrest : keys.map (fun k => (⟨k.1, k.2, f k⟩ : ParamGroup)) =
          keys.map fun k => ⟨k.1, k.2, f k ++ if b.wireKey = k then [b] else []⟩ := by
        refine List.map_congr_left fun k' hk' => ?_
        have hne : b.wireKey ≠ k' := fun he => hkeys.1 (h ▸ he ▸ hk')
        simp [hne]
      rw [if_pos (hk.mpr h), hrest]
      simp [h]
    · rw [if_neg fun hc => h (hk.mp hc), ih hkeys.2]
      simp [h]

theorem groupBindings_concat :
    groupBindings (bs ++ [b]) = insertBinding b (groupBindings bs) := by
  simp [groupBindings]

/-- Each group holds the bindings of its key, in order. -/
theorem groupBindings_eq (bs : List ParameterBinding) :
    groupBindings bs = (wireKeys bs).map (groupOf bs) := by
  induction bs using List.reverseRecOn with
  | nil => rfl
  | append_singleton bs b ih =>
    have hinsert := insertBinding_map (b := b) (wireKeys bs) (wireKeys_nodup bs) (bindingsOf bs)
    have hgroups : (wireKeys bs).map (groupOf bs) =
        (wireKeys bs).map fun k => ⟨k.1, k.2, bindingsOf bs k⟩ := rfl
    rw [groupBindings_concat, ih, hgroups, hinsert, wireKeys_concat, List.map_append]
    congr 1
    · refine List.map_congr_left fun k _ => ?_
      rw [groupOf, bindingsOf_concat]
    · by_cases h : b.wireKey ∈ wireKeys bs
      · simp [h]
      · have hnone : bindingsOf bs b.wireKey = [] := by
          rw [List.eq_nil_iff_forall_not_mem]
          intro b' hb'
          obtain ⟨hmem, hkey⟩ := mem_bindingsOf.mp hb'
          exact h (mem_wireKeys.mpr ⟨b', hmem, hkey⟩)
        simp [h, groupOf, bindingsOf_concat, hnone]

end

end EndpointCompiler
