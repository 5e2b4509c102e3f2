import EndpointCompiler.Checking.Problem
import EndpointCompiler.Proofs.Source.Ranges
import Mathlib.Data.List.Induction

/-! What lines and columns say. They are those of the start of a span, and no other place in the
text has both of them. -/

namespace EndpointCompiler

/-- Line and column after some characters, counted on from those before them. -/
def placeAfter (place : Nat × Nat) (cs : List Char) : Nat × Nat :=
  cs.foldl (fun p c => if c = '\n' then (p.1 + 1, 1) else (p.1, p.2 + 1)) place

theorem lineColumnFrom_append (line column : Nat) (before after : List Char) :
    lineColumnFrom line column (before ++ after) (utf8Length before) =
      placeAfter (line, column) before := by
  induction before generalizing line column with
  | nil =>
    cases after with
    | nil => rfl
    | cons c after => exact if_pos c.utf8Size_pos
  | cons c before ih =>
    have hpast : ¬ utf8Length (c :: before) < c.utf8Size := by simp
    have hrest : utf8Length (c :: before) - c.utf8Size = utf8Length before := by simp
    rw [List.cons_append, lineColumnFrom, if_neg hpast, hrest, ih, ih, placeAfter, placeAfter,
      placeAfter, List.foldl_cons]
    by_cases hc : c = '\n'
    · rw [if_pos hc, if_pos hc]
    · rw [if_neg hc, if_neg hc]

theorem placeAfter_fst (place : Nat × Nat) (cs : List Char) :
    (placeAfter place cs).1 = place.1 + cs.count '\n' := by
  induction cs generalizing place with
  | nil => rfl
  | cons c cs ih =>
    rw [placeAfter, List.foldl_cons]
    refine (ih _).trans ?_
    by_cases hc : c = '\n'
    · rw [if_pos hc, hc, List.count_cons_self]
      omega
    · rw [if_neg hc, List.count_cons_of_ne hc]

/-- Lines are counted by line breaks, columns by characters after the last of them. -/
theorem placeAfter_eq (cs : List Char) :
    placeAfter (1, 1) cs =
      (cs.count '\n' + 1, (cs.reverse.takeWhile (· ≠ '\n')).length + 1) := by
  induction cs using List.reverseRecOn with
  | nil => rfl
  | append_singleton cs c ih =>
    rw [placeAfter] at ih
    rw [placeAfter, List.foldl_append, ih, List.reverse_append, List.count_append]
    by_cases hc : c = '\n'
    · simp [hc]
    · simp [hc]

theorem lineColumn_eq {text : String} {before after : List Char}
    (h : text.toList = before ++ after) :
    lineColumn text (utf8Length before) =
      (before.count '\n' + 1, (before.reverse.takeWhile (· ≠ '\n')).length + 1) := by
  rw [lineColumn, h, lineColumnFrom_append, placeAfter_eq]

/-- What follows so many line breaks. -/
def skipLines : Nat → List Char → List Char
  | 0, cs => cs
  | _ + 1, [] => []
  | n + 1, c :: cs => if c = '\n' then skipLines n cs else skipLines (n + 1) cs

/-- What a text has from a line and a column on. -/
def textAt (text : String) (line column : Nat) : List Char :=
  (skipLines (line - 1) text.toList).drop (column - 1)

theorem reverse_ne_newline {cs : List Char} (h : '\n' ∉ cs) :
    ∀ c ∈ cs.reverse, decide (c ≠ '\n') = true := by
  intro c hc
  have hne : c ≠ '\n' := fun heq => h (heq ▸ List.mem_reverse.mp hc)
  exact decide_eq_true hne

/-- To skip as many lines as end before a place leads to the line of the place. -/
theorem skipLines_append (before after : List Char) :
    skipLines (before.count '\n') (before ++ after) =
      (before.reverse.takeWhile (· ≠ '\n')).reverse ++ after := by
  induction before with
  | nil => rw [List.count_nil, skipLines, List.reverse_nil, List.takeWhile_nil, List.reverse_nil]
  | cons c before ih =>
    by_cases hline : '\n' ∈ before
    · -- The last line begins after `c`.
      obtain ⟨n, hn⟩ := Nat.exists_eq_add_one.mpr (List.count_pos_iff.mpr hline)
      have hstop : (before.reverse.takeWhile (· ≠ '\n')).length ≠ before.reverse.length := by
        intro hlength
        have hall := (List.takeWhile_prefix (· ≠ '\n')).eq_of_length hlength
        have hmem : '\n' ∈ before.reverse.takeWhile (· ≠ '\n') := by
          rw [hall]
          exact List.mem_reverse.mpr hline
        simpa using List.all_eq_true.mp List.all_takeWhile _ hmem
      rw [List.reverse_cons, List.takeWhile_append, if_neg hstop, ← ih]
      by_cases hc : c = '\n'
      · rw [hc, List.count_cons_self, List.cons_append, skipLines, if_pos rfl]
      · rw [List.count_cons_of_ne hc, hn, List.cons_append, skipLines, if_neg hc]
    · have hnone : before.count '\n' = 0 := List.count_eq_zero.mpr hline
      rw [List.reverse_cons, List.takeWhile_append_of_pos (reverse_ne_newline hline)]
      by_cases hc : c = '\n'
      · rw [hc, List.count_cons_self, hnone, List.cons_append, skipLines, if_pos rfl]
        simp [skipLines]
      · rw [List.count_cons_of_ne hc, hnone]
        simp [skipLines, hc]

/-- The line and the column of a place lead back to it. -/
theorem textAt_lineColumn {text : String} {before after : List Char}
    (h : text.toList = before ++ after) :
    textAt text (lineColumn text (utf8Length before)).1 (lineColumn text (utf8Length before)).2 =
      after := by
  rw [lineColumn_eq h, textAt, h, Nat.add_sub_cancel, Nat.add_sub_cancel, skipLines_append]
  exact List.drop_left' (List.length_reverse ..)

example : textAt "// Ω\nop f" 2 4 = ['f'] := by decide +kernel

/-- Any character that follows changes the line or the column. -/
theorem eq_nil_of_place {cs more : List Char} (hline : (cs ++ more).count '\n' = cs.count '\n')
    (hcolumn : ((cs ++ more).reverse.takeWhile (· ≠ '\n')).length =
      (cs.reverse.takeWhile (· ≠ '\n')).length) : more = [] := by
  rw [List.count_append, Nat.add_eq_left, List.count_eq_zero] at hline
  rw [List.reverse_append, List.takeWhile_append_of_pos (reverse_ne_newline hline),
    List.length_append, Nat.add_eq_right, List.length_reverse] at hcolumn
  exact List.length_eq_zero_iff.mp hcolumn

/-- A diagnostic points into a unit: it names it, its span is a range of its text, which is empty
only at the end, and its line and column are those of the start of the span. -/
structure Diagnostic.PointsInto (d : Diagnostic) (u : SourceUnit) : Prop where
  unit : d.unit = u.name
  range : ∃ before inside after, u.text.toList = before ++ inside ++ after ∧
    d.span = ⟨utf8Length before, utf8Length (before ++ inside)⟩ ∧ (inside = [] → after = []) ∧
    d.line = before.count '\n' + 1 ∧
    d.column = (before.reverse.takeWhile (· ≠ '\n')).length + 1

theorem Finding.pointsInto {u : SourceUnit} {f : Finding} (h : f.span.Points u.text.toList) :
    (f.diagnostic u).PointsInto u where
  unit := rfl
  range := by
    obtain ⟨before, inside, after, htext, hspan, hend⟩ := h
    have hplace : lineColumn u.text f.span.start =
        (before.count '\n' + 1, (before.reverse.takeWhile (· ≠ '\n')).length + 1) := by
      rw [hspan]
      exact lineColumn_eq (htext.trans (List.append_assoc ..))
    exact ⟨before, inside, after, htext, hspan, hend, congrArg Prod.fst hplace,
      congrArg Prod.snd hplace⟩

theorem Diagnostic.PointsInto.start_eq {d d' : Diagnostic} {u : SourceUnit} (h : d.PointsInto u)
    (h' : d'.PointsInto u) (hline : d.line = d'.line) (hcolumn : d.column = d'.column) :
    d.span.start = d'.span.start := by
  obtain ⟨before, inside, after, htext, hspan, -, hdline, hdcolumn⟩ := h.range
  obtain ⟨before', inside', after', htext', hspan', -, hdline', hdcolumn'⟩ := h'.range
  rw [hdline, hdline', Nat.add_right_cancel_iff] at hline
  rw [hdcolumn, hdcolumn', Nat.add_right_cancel_iff] at hcolumn
  rw [htext, List.append_assoc, List.append_assoc] at htext'
  have hbefore : before = before' := by
    rcases List.append_eq_append_iff.mp htext' with ⟨more, rfl, -⟩ | ⟨more, rfl, -⟩
    · rw [eq_nil_of_place hline.symm hcolumn.symm, List.append_nil]
    · rw [eq_nil_of_place hline hcolumn, List.append_nil]
  rw [hspan, hspan', hbefore]

end EndpointCompiler
