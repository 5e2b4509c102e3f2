import EndpointCompiler.Diagnostic.Report
import EndpointCompiler.Proofs.Diagnostic.Places
import EndpointCompiler.Proofs.Json.Numbers

/-! The places that reports show. A diagnostic is at a byte, and its lines end with line feeds; its
report takes the byte for a character and ends lines with other characters as well. -/

namespace EndpointCompiler

theorem length_le_utf8Length (cs : List Char) : cs.length ≤ utf8Length cs := by
  induction cs with
  | nil => exact Nat.le_refl 0
  | cons c cs ih =>
    have hc := c.utf8Size_pos
    rw [List.length_cons, utf8Length_cons]
    omega

theorem utf8Length_eq_length_iff {cs : List Char} :
    utf8Length cs = cs.length ↔ ∀ c ∈ cs, c.utf8Size = 1 := by
  induction cs with
  | nil => simp
  | cons c cs ih =>
    have hc := c.utf8Size_pos
    have hcs := length_le_utf8Length cs
    rw [List.forall_mem_cons, ← ih, utf8Length_cons, List.length_cons]
    omega

/-- What stands before and after the first of its kind is determined. -/
theorem append_cons_cancel {α : Type} {a : α} {xs xs' ys ys' : List α} (hx : a ∉ xs)
    (hx' : a ∉ xs') (h : xs ++ a :: ys = xs' ++ a :: ys') : xs = xs' ∧ ys = ys' := by
  rcases List.append_eq_append_iff.mp h with ⟨more, rfl, hmore⟩ | ⟨more, rfl, hmore⟩
  · cases more with
    | nil => exact ⟨(List.append_nil xs).symm, (List.cons.inj hmore).2⟩
    | cons b more => exact absurd (by simp [(List.cons.inj hmore).1]) hx'
  · cases more with
    | nil => exact ⟨List.append_nil xs', (List.cons.inj hmore).2.symm⟩
    | cons b more => exact absurd (by simp [(List.cons.inj hmore).1]) hx

namespace Report

/-- Whether a character ends a line before some others. A carriage return does not before a line
feed, which then ends the line for both. -/
def endsAt (c : Char) (cs : List Char) : Bool :=
  endsLine c && !(c == '\r' && cs.head? == some '\n')

/-- Lines with some characters in front of the first of them. -/
def joinFirst (cs : List Char) : List (List Char) → List (List Char)
  | [] => [cs]
  | line :: lines => (cs ++ line) :: lines

theorem joinFirst_joinFirst (cs ds : List Char) (lines : List (List Char)) :
    joinFirst cs (joinFirst ds lines) = joinFirst (cs ++ ds) lines := by
  cases lines with
  | nil => rfl
  | cons line lines => rw [joinFirst, joinFirst, joinFirst, List.append_assoc]

theorem splitLines_cons (c : Char) (cs : List Char) :
    splitLines (c :: cs) =
      if endsAt c cs then [c] :: splitLines cs else joinFirst [c] (splitLines cs) := by
  by_cases hpair : c = '\r' ∧ cs.head? = some '\n'
  · obtain ⟨rfl, hhead⟩ := hpair
    obtain ⟨ds, rfl⟩ := List.head?_eq_some_iff.mp hhead
    rfl
  · have hends : endsAt c cs = endsLine c := by
      have hpair' : (c == '\r' && cs.head? == some '\n') = false := by simpa using hpair
      rw [endsAt, hpair', Bool.not_false, Bool.and_true]
    rw [splitLines.eq_3 c cs fun ds hc hcs => hpair ⟨hc, by rw [hcs]; rfl⟩, hends]
    cases splitLines cs <;> rfl

theorem exists_splitLines (c : Char) (cs : List Char) :
    ∃ line lines, splitLines (c :: cs) = (c :: line) :: lines := by
  rw [splitLines_cons]
  split
  · exact ⟨_, _, rfl⟩
  · cases splitLines cs <;> exact ⟨_, _, rfl⟩

/-- The line and the column after a character, both counted from one. The last character of a text
begins no line. -/
def placeOver (c : Char) (cs : List Char) (p : Nat × Nat) : Nat × Nat :=
  if endsAt c cs = true ∧ cs ≠ [] then (p.1 + 1, 1) else (p.1, p.2 + 1)

/-- The line and the column of a character, from those of the first one. -/
def placeAt : List Char → Nat → Nat × Nat → Option (Nat × Nat)
  | _, 0, p => some p
  | [], _ + 1, _ => none
  | c :: cs, n + 1, p => placeAt cs n (placeOver c cs p)

/-- A place with line and column counted from one. -/
def Place.fromOne (p : Place) : Nat × Nat :=
  (p.line + 1, p.column + 1)

theorem placeFrom_cons_cons (line n : Nat) (l m : List Char) (ls : List (List Char)) :
    placeFrom line (l :: m :: ls) n =
      if n < l.length then some ⟨line, n⟩ else placeFrom (line + 1) (m :: ls) (n - l.length) :=
  rfl

/-- A place that is found in the lines of a text is found by walking over its characters. The
induction has to carry the part of the line that was walked over. -/
theorem placeFrom_joinFirst (line n : Nat) (before cs : List Char) :
    (placeFrom line (joinFirst before (splitLines cs)) (n + before.length)).map Place.fromOne =
      placeAt cs n (line + 1, before.length + 1) := by
  induction cs generalizing line n before with
  | nil => cases n <;> simp [splitLines, joinFirst, placeFrom, placeAt, Place.fromOne]
  | cons c cs ih =>
    cases n with
    | zero =>
      obtain ⟨l, ls, hlines⟩ := exists_splitLines c cs
      rw [hlines]
      cases ls <;> simp [joinFirst, placeFrom, placeAt, Place.fromOne]
    | succ n =>
      have hlength : n + 1 + before.length = n + (before ++ [c]).length := by
        rw [List.length_append, List.length_singleton]
        omega
      rw [splitLines_cons, placeAt, placeOver, hlength]
      split
      · rename_i hends
        cases cs with
        | nil =>
          -- No line begins at the end of the text.
          rw [if_neg (by simp)]
          exact (ih line n (before ++ [c])).trans (by simp)
        | cons d cs =>
          have hmore := ih (line + 1) n []
          obtain ⟨l, ls, hlines⟩ := exists_splitLines d cs
          rw [hlines] at hmore ⊢
          rw [if_pos ⟨hends, List.cons_ne_nil d cs⟩, joinFirst, placeFrom_cons_cons,
            if_neg (Nat.not_lt.mpr (Nat.le_add_left ..)), Nat.add_sub_cancel]
          exact hmore
      · rename_i hends
        rw [joinFirst_joinFirst, ih, if_neg fun h => hends h.1, List.length_append]
        rfl

theorem place_linesOf (text : String) (n : Nat) :
    (place (linesOf text) n).map Place.fromOne = placeAt text.toList n (1, 1) := by
  have hlines : linesOf text = joinFirst [] (splitLines text.toList) := by
    unfold linesOf
    cases splitLines text.toList <;> rfl
  rw [hlines]
  exact placeFrom_joinFirst 0 n [] text.toList

theorem isSome_placeAt {p : Nat × Nat} {cs : List Char} {n : Nat} :
    (placeAt cs n p).isSome = true ↔ n ≤ cs.length := by
  induction cs generalizing p n with
  | nil => cases n <;> simp [placeAt]
  | cons c cs ih =>
    cases n with
    | zero => simp [placeAt]
    | succ n => rw [placeAt, ih, List.length_cons, Nat.succ_le_succ_iff]

section

variable {p q : Nat × Nat} {c : Char} {cs before rest : List Char} {n : Nat}

theorem placeOver_feed (h : cs ≠ []) : placeOver '\n' cs p = (p.1 + 1, 1) :=
  if_pos ⟨rfl, h⟩

theorem placeOver_of_not (h : endsAt c cs = false) : placeOver c cs p = (p.1, p.2 + 1) :=
  if_neg fun hends => Bool.false_ne_true (h.symm.trans hends.1)

theorem placeOver_fst_le : p.1 ≤ (placeOver c cs p).1 := by
  unfold placeOver
  split
  · exact Nat.le_succ p.1
  · exact Nat.le_refl p.1

/-- Characters lead to a later line, or on in the same line. -/
theorem placeAt_later (h : placeAt cs n p = some q) :
    p.1 < q.1 ∨ p.1 = q.1 ∧ p.2 + n = q.2 := by
  induction cs generalizing p n with
  | nil =>
    cases n with
    | zero =>
      cases h
      exact .inr ⟨rfl, rfl⟩
    | succ n => cases h
  | cons c cs ih =>
    cases n with
    | zero =>
      cases h
      exact .inr ⟨rfl, rfl⟩
    | succ n =>
      have hmore := ih h
      unfold placeOver at hmore
      split at hmore <;> dsimp only at hmore <;> omega

theorem count_le_of_placeAt (hrest : rest ≠ []) (hn : before.length ≤ n)
    (h : placeAt (before ++ rest) n p = some q) : p.1 + before.count '\n' ≤ q.1 := by
  induction before generalizing p n with
  | nil =>
    have hlater := placeAt_later h
    rw [List.count_nil]
    omega
  | cons c before ih =>
    obtain ⟨n, rfl⟩ := Nat.exists_eq_add_one.mpr (Nat.lt_of_lt_of_le (Nat.succ_pos _) hn)
    rw [List.cons_append, placeAt] at h
    have hmore := ih (Nat.le_of_succ_le_succ hn) h
    by_cases hc : c = '\n'
    · rw [hc, placeOver_feed (List.append_ne_nil_of_right_ne_nil _ hrest)] at hmore
      rw [hc, List.count_cons_self]
      omega
    · rw [List.count_cons_of_ne hc]
      exact Nat.le_trans (Nat.add_le_add_right placeOver_fst_le _) hmore

/-- Among some characters before others only line feeds end lines. -/
def OnlyFeeds : List Char → List Char → Prop
  | [], _ => True
  | c :: cs, rest => (endsAt c (cs ++ rest) = true → c = '\n') ∧ OnlyFeeds cs rest

theorem onlyFeeds_of_forall (h : ∀ c ∈ before, endsLine c = true → c = '\n') :
    OnlyFeeds before rest := by
  induction before with
  | nil => trivial
  | cons c before ih =>
    obtain ⟨hc, hbefore⟩ := List.forall_mem_cons.mp h
    exact ⟨fun hends => hc (Bool.and_eq_true_iff.mp hends).1, ih hbefore⟩

theorem placeOver_eq_placeAfter (hcs : cs ≠ []) (h : endsAt c cs = true → c = '\n') :
    placeOver c cs p = placeAfter p [c] := by
  by_cases hc : c = '\n'
  · rw [hc, placeOver_feed hcs]
    rfl
  · rw [placeOver_of_not (Bool.not_eq_true _ ▸ fun hends => hc (h hends))]
    exact (if_neg hc).symm

theorem placeAt_length (hrest : rest ≠ []) (h : OnlyFeeds before rest) :
    placeAt (before ++ rest) before.length p = some (placeAfter p before) := by
  induction before generalizing p with
  | nil => cases rest <;> rfl
  | cons c before ih =>
    have hcs : before ++ rest ≠ [] := List.append_ne_nil_of_right_ne_nil _ hrest
    rw [List.cons_append, List.length_cons, placeAt, placeOver_eq_placeAfter hcs h.1, ih h.2]
    rfl

/-- If a report arrives at the line and the column after some characters, it has gone over them and
no others, and they end no lines but with line feeds. -/
theorem onlyFeeds_of_placeAt (hrest : rest ≠ []) (hn : before.length ≤ n)
    (h : placeAt (before ++ rest) n p = some (placeAfter p before)) :
    n = before.length ∧ OnlyFeeds before rest := by
  induction before generalizing p n with
  | nil =>
    have hlater := placeAt_later h
    rw [placeAfter, List.foldl_nil] at hlater
    exact ⟨by rw [List.length_nil]; omega, trivial⟩
  | cons c before ih =>
    have hcs : before ++ rest ≠ [] := List.append_ne_nil_of_right_ne_nil _ hrest
    obtain ⟨n, rfl⟩ := Nat.exists_eq_add_one.mpr (Nat.lt_of_lt_of_le (Nat.succ_pos _) hn)
    have hbefore := Nat.le_of_succ_le_succ hn
    rw [List.cons_append, placeAt] at h
    have hends : endsAt c (before ++ rest) = true → c = '\n' := by
      intro hends
      by_contra hc
      -- The report has one line more than there are line feeds, and never comes back.
      have hcount := count_le_of_placeAt hrest hbefore h
      rw [placeOver, if_pos ⟨hends, hcs⟩, placeAfter_fst, List.count_cons_of_ne hc] at hcount
      omega
    rw [placeOver_eq_placeAfter hcs hends] at h
    obtain ⟨rfl, hfeeds⟩ := ih hbefore h
    exact ⟨rfl, hends, hfeeds⟩

/-- A report that goes over as many characters as there are bytes arrives where they end only if all
of them are of one byte. -/
theorem placeAt_utf8Length_iff (hrest : rest ≠ []) :
    placeAt (before ++ rest) (utf8Length before) p = some (placeAfter p before) ↔
      (∀ c ∈ before, c.utf8Size = 1) ∧ OnlyFeeds before rest := by
  rw [← utf8Length_eq_length_iff]
  constructor
  · exact onlyFeeds_of_placeAt hrest (length_le_utf8Length before)
  · rintro ⟨hlength, hfeeds⟩
    rw [hlength]
    exact placeAt_length hrest hfeeds

end

/-- The line of a report that shows its place. -/
def headline (width line column : Nat) : String :=
  blanks width ++ "╭─[ <unknown>:" ++ natText line ++ ":" ++ natText column ++ " ]"

theorem headline_toList (width line column : Nat) (below : String) :
    (headline width line column ++ "\n" ++ below).toList =
      List.replicate width ' ' ++ '╭' :: ("─[ <unknown>:".toList ++ ((natText line).toList ++
        ':' :: ((natText column).toList ++ ' ' :: ("]\n".toList ++ below.toList)))) := by
  simp [headline, blanks]

theorem notMem_natText {n : Nat} {c : Char} (hc : c.isDigit = false) : c ∉ (natText n).toList :=
  fun hmem => Bool.false_ne_true (hc.symm.trans (isDigit_of_mem_natText hmem))

theorem headline_inj {width width' line line' column column' : Nat} {below below' : String}
    (h : headline width line column ++ "\n" ++ below =
      headline width' line' column' ++ "\n" ++ below') : line = line' ∧ column = column' := by
  have hblanks : ∀ n, '╭' ∉ List.replicate n ' ' := fun n hmem =>
    absurd (List.eq_of_mem_replicate hmem) (by decide)
  have hlist := congrArg String.toList h
  rw [headline_toList, headline_toList] at hlist
  obtain ⟨-, hplace⟩ := append_cons_cancel (hblanks _) (hblanks _) hlist
  obtain ⟨hline, hrest⟩ := append_cons_cancel (notMem_natText rfl) (notMem_natText rfl)
    (List.append_cancel_left hplace)
  obtain ⟨hcolumn, -⟩ := append_cons_cancel (notMem_natText rfl) (notMem_natText rfl) hrest
  exact ⟨natText_inj (String.toList_inj.mp hline), natText_inj (String.toList_inj.mp hcolumn)⟩

section

variable {text : String} {span : Span} {note : String}

/-- A span that does not reach past the text is shown under its place. -/
theorem body_of_le (hstart : span.start ≤ text.length) (hstop : span.stop ≤ text.length + 1) :
    ∃ width line column below, placeAt text.toList span.start (1, 1) = some (line, column) ∧
      body (linesOf text) span note = headline width line column :: below := by
  have hlast : max span.start (span.stop - 1) ≤ text.length := by omega
  rw [← String.length_toList, ← isSome_placeAt (p := (1, 1)), ← place_linesOf,
    Option.isSome_map] at hstart hlast
  obtain ⟨first, hfirst⟩ := Option.isSome_iff_exists.mp hstart
  obtain ⟨last, hlast⟩ := Option.isSome_iff_exists.mp hlast
  have hplace : placeAt text.toList span.start (1, 1) = some first.fromOne := by
    rw [← place_linesOf, hfirst]
    rfl
  rw [body, hfirst, hlast]
  exact ⟨_, _, _, _, hplace, rfl⟩

theorem body_of_not_le (h : ¬ (span.start ≤ text.length ∧ span.stop ≤ text.length + 1)) :
    body (linesOf text) span note = [] := by
  have hlast : ¬ max span.start (span.stop - 1) ≤ text.length := by omega
  rw [← String.length_toList, ← isSome_placeAt (p := (1, 1)), ← place_linesOf,
    Option.isSome_map, Option.not_isSome_iff_eq_none] at hlast
  rw [body, hlast]
  cases place (linesOf text) span.start <;> rfl

end

end Report

open Report

namespace Diagnostic

variable {d : Diagnostic}

/-- The first line of a report. -/
def heading (d : Diagnostic) : String :=
  "[" ++ d.code ++ "] " ++ d.severity.heading ++ ": " ++ d.message

/-- A report shows a line and a column right below its first line. -/
def Shows (d : Diagnostic) (report : String) (line column : Nat) : Prop :=
  ∃ width below, report = d.heading ++ "\n" ++ (headline width line column ++ "\n" ++ below)

theorem Shows.unique {report : String} {line line' column column' : Nat}
    (h : d.Shows report line column) (h' : d.Shows report line' column') :
    line = line' ∧ column = column' := by
  obtain ⟨_, below, rfl⟩ := h
  obtain ⟨_, below', heq⟩ := h'
  exact headline_inj ((String.append_right_inj _).mp heq)

theorem render_eq (d : Diagnostic) (text : String) :
    d.render text = d.heading ++ "\n" ++ String.join
      ((body (linesOf text) (d.reportSpan text) (d.label.getD d.message)).map (· ++ "\n")) := by
  rw [render, List.map_cons, String.join_cons]
  rfl

/-- A report shows the place of its span, if its span does not reach past the text. -/
theorem render_shows_iff {text : String} {line column : Nat} :
    d.Shows (d.render text) line column ↔
      (d.reportSpan text).stop ≤ text.length + 1 ∧
        placeAt text.toList (d.reportSpan text).start (1, 1) = some (line, column) := by
  by_cases hin : (d.reportSpan text).start ≤ text.length ∧ (d.reportSpan text).stop ≤ text.length + 1
  · obtain ⟨width, line', column', below, hplace, hbody⟩ := body_of_le hin.1 hin.2
    have hshows : d.Shows (d.render text) line' column' := by
      rw [render_eq, hbody, List.map_cons, String.join_cons]
      exact ⟨width, _, rfl⟩
    constructor
    · intro h
      obtain ⟨rfl, rfl⟩ := h.unique hshows
      exact ⟨hin.2, hplace⟩
    · rintro ⟨-, h⟩
      cases hplace.symm.trans h
      exact hshows
  · constructor
    · rintro ⟨width, below, h⟩
      rw [render_eq, body_of_not_le hin] at h
      have hnil := congrArg String.toList ((String.append_right_inj _).mp h)
      rw [headline_toList] at hnil
      simp at hnil
    · rintro ⟨hstop, h⟩
      refine absurd ⟨?_, hstop⟩ hin
      rw [← String.length_toList, ← isSome_placeAt (p := (1, 1)), h]
      rfl

/-- A range of a text with something in it is shown as it is. -/
theorem reportSpan_eq {text : String} {before inside after : List Char}
    (htext : text.toList = before ++ inside ++ after) (hinside : inside ≠ [])
    (hspan : d.span = ⟨utf8Length before, utf8Length (before ++ inside)⟩) :
    d.reportSpan text = d.span := by
  have hpos : 0 < utf8Length inside := Nat.pos_of_ne_zero (mt utf8Length_eq_zero.mp hinside)
  have hlength : utf8Length text.toList =
      utf8Length before + utf8Length inside + utf8Length after := by
    rw [htext, utf8Length_append, utf8Length_append]
  rw [reportSpan, hspan, utf8Length_append, hlength]
  dsimp only
  rw [Nat.min_eq_left (by omega), Nat.min_eq_left (by omega), Nat.max_eq_left (by omega),
    if_pos (by omega)]

/-- The report of a range that is not empty shows the line and the column of the diagnostic only if
bytes and lines before it count alike for both, and it is not cut off. -/
theorem PointsInto.shows_iff {u : SourceUnit} (h : d.PointsInto u)
    (hspan : d.span.start < d.span.stop) :
    ∃ before inside after, u.text.toList = before ++ inside ++ after ∧
      d.span = ⟨utf8Length before, utf8Length (before ++ inside)⟩ ∧
      (d.Shows (d.render u.text) d.line d.column ↔ (∀ c ∈ before, c.utf8Size = 1) ∧
        OnlyFeeds before (inside ++ after) ∧ d.span.stop ≤ u.text.length + 1) := by
  obtain ⟨before, inside, after, htext, hrange, -, hline, hcolumn⟩ := h.range
  refine ⟨before, inside, after, htext, hrange, ?_⟩
  have hinside : inside ≠ [] := by
    rintro rfl
    rw [hrange, List.append_nil] at hspan
    exact Nat.lt_irrefl _ hspan
  have hplace : placeAfter (1, 1) before = (d.line, d.column) := by
    rw [hline, hcolumn, placeAfter_eq]
  rw [render_shows_iff, reportSpan_eq htext hinside hrange, ← hplace, htext, List.append_assoc,
    and_comm, ← and_assoc, ← placeAt_utf8Length_iff (List.append_ne_nil_of_left_ne_nil hinside _)]
  rw [hrange]

end Diagnostic

end EndpointCompiler
