import EndpointCompiler.Image.Value

/-! The objects that expressions make. With different names every initialiser is a field of the
object, and there are no others. -/

namespace EndpointCompiler

namespace ValueExpr

variable {params locals : List Json} {inits : List (String × ValueExpr)}
  {object : List (String × Json)}

theorem evalFields_names (hinits : (inits.map (·.1)).Nodup)
    (hnew : ∀ i ∈ inits, i.1 ∉ object.map (·.1)) :
    ((evalFields params locals inits object).map (·.1)).Perm
      (inits.map (·.1) ++ object.map (·.1)) := by
  induction inits generalizing object with
  | nil =>
    rw [evalFields]
    exact .refl _
  | cons i inits ih =>
    obtain ⟨name, value⟩ := i
    rw [List.map_cons, List.nodup_cons] at hinits
    rw [List.forall_mem_cons] at hnew
    have hinsert : ((Json.insertField name (value.eval params locals) object).map (·.1)).Perm
        (name :: object.map (·.1)) := (insertByName_perm hnew.1).map Prod.fst
    have hrest : ∀ i ∈ inits, i.1 ∉
        (Json.insertField name (value.eval params locals) object).map (·.1) := by
      intro i hi hmem
      rcases List.mem_cons.mp (hinsert.mem_iff.mp hmem) with he | hmem
      · exact hinits.1 (List.mem_map.mpr ⟨i, hi, he⟩)
      · exact hnew.2 i hi hmem
    rw [evalFields]
    exact (ih hinits.2 hrest).trans ((hinsert.append_left _).trans List.perm_middle)

theorem field?_evalFields_of_notMem {name : String} (h : name ∉ inits.map (·.1)) :
    Json.field? name (evalFields params locals inits object) = Json.field? name object := by
  induction inits generalizing object with
  | nil => rw [evalFields]
  | cons i inits ih =>
    obtain ⟨n, value⟩ := i
    rw [List.map_cons, List.mem_cons, not_or] at h
    rw [evalFields, ih h.2, Json.field?_insertField, if_neg h.1]

theorem field?_evalFields (hinits : (inits.map (·.1)).Nodup) {name : String} {e : ValueExpr}
    (h : (name, e) ∈ inits) :
    Json.field? name (evalFields params locals inits object) = some (e.eval params locals) := by
  induction inits generalizing object with
  | nil => cases h
  | cons i inits ih =>
    obtain ⟨n, value⟩ := i
    rw [List.map_cons, List.nodup_cons] at hinits
    rw [evalFields]
    rcases List.mem_cons.mp h with he | h
    · obtain ⟨rfl, rfl⟩ := Prod.mk.inj he
      rw [field?_evalFields_of_notMem hinits.1, Json.field?_insertField, if_pos rfl]
    · exact ih hinits.2 h

theorem evalFields_sorted (h : SortedByName (·.1) object) :
    SortedByName (·.1) (evalFields params locals inits object) := by
  induction inits generalizing object with
  | nil =>
    rw [evalFields]
    exact h
  | cons i inits ih =>
    obtain ⟨name, value⟩ := i
    rw [evalFields]
    exact ih (h.insert (name, value.eval params locals))

end ValueExpr

end EndpointCompiler
