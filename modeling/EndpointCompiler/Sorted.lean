/-! Lists in the order of their names, each name once. -/

namespace EndpointCompiler

section

variable {α : Type} {name : α → String} {a b : α} {bs : List α}

/-- Puts an element into a sorted list, in place of one of the same name. -/
def insertByName (name : α → String) (a : α) : List α → List α
  | [] => [a]
  | b :: bs =>
    if name a < name b then a :: b :: bs
    else if name a = name b then a :: bs
    else b :: insertByName name a bs

/-- Elements stand in the order of their names, each name once. -/
def SortedByName (name : α → String) (bs : List α) : Prop :=
  bs.Pairwise fun b c => name b < name c

theorem mem_of_mem_insertByName (h : b ∈ insertByName name a bs) : b = a ∨ b ∈ bs := by
  induction bs with
  | nil => exact .inl (List.mem_singleton.mp h)
  | cons c bs ih =>
    rw [insertByName] at h
    split at h
    · exact List.mem_cons.mp h
    · split at h
      · exact (List.mem_cons.mp h).imp_right (List.mem_cons_of_mem c)
      · rcases List.mem_cons.mp h with rfl | h
        · exact .inr List.mem_cons_self
        · exact (ih h).imp_right (List.mem_cons_of_mem c)

/-- An element of a new name is one more. -/
theorem insertByName_perm (h : name a ∉ bs.map name) : (insertByName name a bs).Perm (a :: bs) := by
  induction bs with
  | nil => exact .refl _
  | cons b bs ih =>
    rw [List.map_cons, List.mem_cons, not_or] at h
    rw [insertByName]
    split
    · exact .refl _
    · rw [if_neg h.1]
      exact ((ih h.2).cons b).trans (.swap a b bs)

theorem SortedByName.insert (h : SortedByName name bs) (a : α) :
    SortedByName name (insertByName name a bs) := by
  induction bs with
  | nil => exact List.pairwise_singleton _ a
  | cons b bs ih =>
    obtain ⟨hb, hbs⟩ := List.pairwise_cons.mp h
    rw [insertByName]
    split
    · rename_i hlt
      have hfirst : ∀ c ∈ b :: bs, name a < name c :=
        List.forall_mem_cons.mpr ⟨hlt, fun c hc => String.lt_trans hlt (hb c hc)⟩
      exact List.pairwise_cons.mpr ⟨hfirst, h⟩
    · rename_i hge
      split
      · rename_i hname
        exact List.pairwise_cons.mpr ⟨fun c hc => hname ▸ hb c hc, hbs⟩
      · rename_i hne
        have hlt : name b < name a :=
          Std.lt_of_le_of_ne (String.not_lt.mp hge) fun he => hne he.symm
        have hrest : ∀ c ∈ insertByName name a bs, name b < name c := by
          intro c hc
          rcases mem_of_mem_insertByName hc with rfl | hc
          · exact hlt
          · exact hb c hc
        exact List.pairwise_cons.mpr ⟨hrest, ih hbs⟩

theorem SortedByName.nodup (h : SortedByName name bs) : (bs.map name).Nodup := by
  refine List.pairwise_map.mpr (h.imp fun hlt he => ?_)
  rw [he] at hlt
  exact String.lt_irrefl _ hlt

/-- Elements can be sorted in one way only. -/
theorem SortedByName.eq_of_perm {cs : List α} (hb : SortedByName name bs)
    (hc : SortedByName name cs) (h : bs.Perm cs) : bs = cs := by
  refine h.eq_of_pairwise (fun b c _ _ hlt hgt => ?_) hb hc
  exact absurd (String.lt_trans hlt hgt) (String.lt_irrefl _)

/-- An element is found after it is put in, and no other name is touched. -/
theorem find?_insertByName (n : String) :
    (insertByName name a bs).find? (name · == n) =
      if name a = n then some a else bs.find? (name · == n) := by
  induction bs with
  | nil => by_cases h : name a = n <;> simp [insertByName, h]
  | cons b bs ih =>
    rw [insertByName]
    split
    · by_cases h : name a = n <;> simp [h]
    · split
      · rename_i h
        by_cases ha : name a = n
        · simp [ha]
        · simp [ha, ← h]
      · rename_i h
        by_cases hb : name b = n
        · have ha : name a ≠ n := fun he => h (he.trans hb.symm)
          simp [hb, ha]
        · simp [hb, ih]

end

end EndpointCompiler
