import Mathlib.Data.List.Induction

/-! Histories, in which a later event takes the place of an earlier one with the same key. -/

namespace EndpointCompiler

/-- Of several elements with one key, the last. -/
def LastOf {α β : Type} (f : α → β) (as : List α) (a : α) : Prop :=
  ∃ before after, as = before ++ a :: after ∧ ∀ b ∈ after, f b ≠ f a

section

variable {α β : Type} {f : α → β} {as : List α} {a b : α}

theorem LastOf.mem (h : LastOf f as a) : a ∈ as := by
  obtain ⟨before, after, rfl, -⟩ := h
  simp

theorem lastOf_concat_self (f : α → β) (as : List α) (a : α) : LastOf f (as ++ [a]) a :=
  ⟨as, [], rfl, by simp⟩

theorem lastOf_concat : LastOf f (as ++ [b]) a ↔ a = b ∨ (LastOf f as a ∧ f b ≠ f a) := by
  constructor
  · rintro ⟨before, after, heq, hafter⟩
    cases after using List.reverseRecOn with
    | nil => exact .inl (by simpa using (List.append_inj' heq rfl).2.symm)
    | append_singleton after last =>
      have hsplit : as ++ [b] = (before ++ a :: after) ++ [last] := by simpa using heq
      obtain ⟨rfl, hlast⟩ := List.append_inj' hsplit rfl
      obtain rfl : b = last := by simpa using hlast
      have hlower : ∀ c ∈ after, f c ≠ f a := fun c hc => hafter c (List.mem_append_left _ hc)
      exact .inr ⟨⟨before, after, rfl, hlower⟩, hafter b (by simp)⟩
  · rintro (rfl | ⟨⟨before, after, rfl, hafter⟩, hne⟩)
    · exact lastOf_concat_self f as a
    · refine ⟨before, after ++ [b], by simp, ?_⟩
      intro c hc
      rcases List.mem_append.mp hc with hc | hc
      · exact hafter c hc
      · obtain rfl := List.mem_singleton.mp hc
        exact hne

theorem exists_lastOf (h : a ∈ as) : ∃ b, LastOf f as b ∧ f b = f a := by
  induction as using List.reverseRecOn with
  | nil => cases h
  | append_singleton as c ih =>
    by_cases hc : f c = f a
    · exact ⟨c, lastOf_concat_self f as c, hc⟩
    · have hmem : a ∈ as := by
        rcases List.mem_append.mp h with h | h
        · exact h
        · exact absurd (congrArg f (List.mem_singleton.mp h)).symm hc
      obtain ⟨b, hb, hkey⟩ := ih hmem
      exact ⟨b, lastOf_concat.mpr (.inr ⟨hb, hkey ▸ hc⟩), hkey⟩

theorem LastOf.eq_of_eq (ha : LastOf f as a) (hb : LastOf f as b) (h : f a = f b) : a = b := by
  induction as using List.reverseRecOn with
  | nil => cases ha.mem
  | append_singleton as c ih =>
    rcases lastOf_concat.mp ha with rfl | ⟨ha, hne⟩
    · rcases lastOf_concat.mp hb with rfl | ⟨-, hne⟩
      · rfl
      · exact absurd h hne
    · rcases lastOf_concat.mp hb with rfl | ⟨hb, -⟩
      · exact absurd h.symm hne
      · exact ih ha hb

theorem lastOf_map {γ : Type} {g : γ → α} {cs : List γ} :
    LastOf f (cs.map g) a ↔ ∃ c, LastOf (fun c => f (g c)) cs c ∧ g c = a := by
  induction cs using List.reverseRecOn with
  | nil => simp [LastOf]
  | append_singleton cs c ih =>
    rw [List.map_append, List.map_singleton, lastOf_concat, ih]
    simp only [lastOf_concat]
    constructor
    · rintro (rfl | ⟨⟨c', hlast, rfl⟩, hne⟩)
      · exact ⟨c, .inl rfl, rfl⟩
      · exact ⟨c', .inr ⟨hlast, hne⟩, rfl⟩
    · rintro ⟨c', rfl | ⟨hlast, hne⟩, rfl⟩
      · exact .inl rfl
      · exact .inr ⟨⟨c', hlast, rfl⟩, hne⟩

end

end EndpointCompiler
