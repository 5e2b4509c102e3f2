import EndpointCompiler.Proofs.Source.Scanning

/-! Where tokens stand. The lexer counts bytes; its spans are ranges of the text all the same, one
after another, and so is what it cannot read. -/

namespace EndpointCompiler

theorem utf8Length_eq_zero {cs : List Char} : utf8Length cs = 0 ↔ cs = [] := by
  cases cs with
  | nil => simp
  | cons c cs =>
    have hc := c.utf8Size_pos
    simp only [utf8Length_cons, reduceCtorEq, iff_false]
    omega

/-- A span is a range of a text: both ends lie between characters, and there is something between
them unless they are at the end. -/
def Span.Points (cs : List Char) (s : Span) : Prop :=
  ∃ before inside after, cs = before ++ inside ++ after ∧
    s = ⟨utf8Length before, utf8Length (before ++ inside)⟩ ∧ (inside = [] → after = [])

namespace Span.Points

variable {cs : List Char} {a b : Span}

theorem of_eq (before inside after : List Char) (hcs : cs = before ++ inside ++ after)
    (hstart : a.start = utf8Length before)
    (hstop : a.stop = utf8Length before + utf8Length inside) (hend : inside = [] → after = []) :
    a.Points cs := by
  obtain ⟨start, stop⟩ := a
  subst hstart hstop
  exact ⟨before, inside, after, hcs, by rw [utf8Length_append], hend⟩

theorem shift (h : a.Points cs) (before : List Char) :
    Span.Points (before ++ cs) ⟨utf8Length before + a.start, utf8Length before + a.stop⟩ := by
  obtain ⟨skipped, inside, after, rfl, rfl, hend⟩ := h
  refine ⟨before ++ skipped, inside, after, by simp, ?_, hend⟩
  simp only [utf8Length_append, Nat.add_assoc]

/-- From the start of a range to the end of a later one. -/
theorem through (ha : a.Points cs) (hb : b.Points cs) (h : a.stop ≤ b.start) :
    Span.Points cs ⟨a.start, b.stop⟩ := by
  obtain ⟨before, inside, after, hcs, rfl, hend⟩ := ha
  obtain ⟨before', inside', after', rfl, rfl, -⟩ := hb
  rw [List.append_assoc before'] at hcs
  obtain ⟨between, hbefore, hafter⟩ :
      ∃ between, before' = before ++ inside ++ between ∧ after = between ++ (inside' ++ after') := by
    rcases List.append_eq_append_iff.mp hcs with ⟨more, hmore, hrest⟩ | ⟨more, hmore, hrest⟩
    · -- The first range would reach past the start of the second.
      have hnone : more = [] := by
        have hlength := congrArg utf8Length hmore
        rw [utf8Length_append before' more] at hlength
        simp only at h
        exact utf8Length_eq_zero.mp (by omega)
      subst hnone
      exact ⟨[], by simpa using hmore.symm, by simpa using hrest.symm⟩
    · exact ⟨more, hmore, hrest⟩
  subst hbefore
  refine ⟨before, inside ++ between ++ inside', after', by simp, by simp [utf8Length_append], ?_⟩
  intro hnil
  simp only [List.append_eq_nil_iff] at hnil
  obtain ⟨⟨hinside, -⟩, -⟩ := hnil
  rw [hend hinside] at hafter
  exact (List.append_eq_nil_iff.mp (List.append_eq_nil_iff.mp hafter.symm).2).2

end Span.Points

namespace Source

/-- No lexeme begins before the one before it ends. -/
def InOrder (ls : List Lexeme) : Prop :=
  ls.Pairwise fun a b => a.span.stop ≤ b.span.start

theorem LiteralFault.shift_eq_unknownEscape {f : LiteralFault} {c : Char} {m n : Nat}
    (h : f.shift m = .unknownEscape c n) : ∃ k, f = .unknownEscape c k ∧ n = m + k := by
  cases f with
  | unterminated => cases h
  | unknownEscape d k =>
    cases h
    exact ⟨k, rfl, rfl⟩

/-- The offset of an unknown escape is that of its backslash. -/
theorem literal_escape_error {cs : List Char} {c : Char} {n : Nat}
    (h : literal cs = .error (.unknownEscape c n)) :
    ∃ before after, cs = before ++ '\\' :: c :: after ∧ n = utf8Length before := by
  fun_induction literal cs generalizing n with
  | case1 => cases h
  | case2 => cases h
  | case3 => cases h
  | case4 => cases h
  | case5 => cases h
  | case6 d cs _ f hf _ _ ih =>
    rw [Except.error.injEq] at h
    obtain ⟨k, rfl, rfl⟩ := LiteralFault.shift_eq_unknownEscape h
    obtain ⟨before, after, rfl, rfl⟩ := ih hf
    exact ⟨'\\' :: d :: before, after, rfl, by simp [Nat.add_assoc]⟩
  | case7 d cs =>
    cases h
    exact ⟨[], cs, rfl, rfl⟩
  | case8 => cases h
  | case9 d cs _ _ _ f hf ih =>
    rw [Except.error.injEq] at h
    obtain ⟨k, rfl, rfl⟩ := LiteralFault.shift_eq_unknownEscape h
    obtain ⟨before, after, rfl, rfl⟩ := ih hf
    exact ⟨d :: before, after, rfl, rfl⟩

theorem element_error_points {c : Char} {cs : List Char} {f : ElementFault}
    (h : element c cs = .error f) : f.span.Points (c :: cs) := by
  unfold element at h
  split at h
  · cases h
  split at h
  · cases h
  split at h
  · rename_i hquote
    split at h
    · cases h
    · cases h
      exact .of_eq [] (c :: cs) [] (by simp) rfl (by simp) nofun
    · rename_i d n hliteral
      cases h
      obtain ⟨before, after, rfl, rfl⟩ := literal_escape_error hliteral
      have hsizes : '"'.utf8Size = 1 ∧ '\\'.utf8Size = 1 := ⟨rfl, rfl⟩
      subst hquote
      refine .of_eq ('"' :: before) ['\\', d] after (by simp) ?_ ?_ nofun
      · simp [hsizes, Nat.add_comm]
      · simp only [utf8Length_cons, utf8Length_nil, hsizes]
        omega
  split at h
  · cases h
  split at h
  · cases h
  · cases h
    exact .of_eq [] [c] cs (by simp) rfl (by simp) nofun

/-- Tokens that are counted from what stands before them are ranges of the whole text, in order. -/
theorem lexemesFrom_points (before : List Char) {cs : List Char} {ls : List Lexeme}
    (h : lexemesFrom (utf8Length before) cs = .ok ls) :
    (∀ l ∈ ls, l.span.Points (before ++ cs) ∧ utf8Length before ≤ l.span.start) ∧ InOrder ls := by
  match cs with
  | [] =>
    rw [lexemesFrom_nil] at h
    cases h
    refine ⟨List.forall_mem_singleton.mpr ⟨?_, Nat.le_refl _⟩, List.pairwise_singleton _ _⟩
    exact .of_eq before [] [] (by simp) rfl rfl fun _ => rfl
  | c :: cs =>
    cases he : element c cs with
    | error f =>
      rw [lexemesFrom_of_error he] at h
      cases h
    | ok e =>
      rw [lexemesFrom_of_ok he, ← utf8Length_append] at h
      cases hmore : lexemesFrom (utf8Length (before ++ e.lexeme)) e.rest with
      | error f =>
        rw [hmore] at h
        cases h
      | ok more =>
        rw [hmore] at h
        cases h
        -- What is read moves from the rest to `before`; the text as a whole stays the same.
        have htext : before ++ e.lexeme ++ e.rest = before ++ c :: cs := by
          rw [List.append_assoc, element_append he]
        obtain ⟨hpoints, horder⟩ := lexemesFrom_points _ hmore
        rw [htext, utf8Length_append] at hpoints
        have hlater : ∀ l ∈ more, l.span.Points (before ++ c :: cs) ∧
            utf8Length before ≤ l.span.start :=
          fun l hl => ⟨(hpoints l hl).1, Nat.le_trans (Nat.le_add_right _ _) (hpoints l hl).2⟩
        cases e.token? with
        | none => exact ⟨hlater, horder⟩
        | some t =>
          have hfirst : Span.Points (before ++ c :: cs)
              ⟨utf8Length before, utf8Length before + utf8Length e.lexeme⟩ :=
            .of_eq _ _ _ htext.symm rfl rfl fun hnil => absurd hnil (element_lexeme_ne_nil he)
          rw [utf8Length_append]
          refine ⟨List.forall_mem_cons.mpr ⟨⟨hfirst, Nat.le_refl _⟩, hlater⟩, ?_⟩
          exact List.pairwise_cons.mpr ⟨fun l hl => (hpoints l hl).2, horder⟩
termination_by cs.length
decreasing_by exact element_rest_lt he

theorem lexemesFrom_error_points (before : List Char) {cs : List Char} {e : SourceError}
    (h : lexemesFrom (utf8Length before) cs = .error e) : e.span.Points (before ++ cs) := by
  match cs with
  | [] =>
    rw [lexemesFrom_nil] at h
    cases h
  | c :: cs =>
    cases he : element c cs with
    | error f =>
      rw [lexemesFrom_of_error he] at h
      cases h
      exact (element_error_points he).shift before
    | ok e =>
      rw [lexemesFrom_of_ok he, ← utf8Length_append] at h
      cases hmore : lexemesFrom (utf8Length (before ++ e.lexeme)) e.rest with
      | ok more =>
        rw [hmore] at h
        cases h
      | error f =>
        rw [hmore] at h
        cases h
        have hpoints := lexemesFrom_error_points _ hmore
        rwa [List.append_assoc, element_append he] at hpoints
termination_by cs.length
decreasing_by exact element_rest_lt he

theorem tokenize_points {text : String} {ls : List Lexeme} (h : tokenize text = .ok ls) :
    (∀ l ∈ ls, l.span.Points text.toList) ∧ InOrder ls := by
  obtain ⟨hpoints, horder⟩ := lexemesFrom_points [] h
  exact ⟨fun l hl => (hpoints l hl).1, horder⟩

theorem tokenize_error_points {text : String} {e : SourceError} (h : tokenize text = .error e) :
    e.span.Points text.toList :=
  lexemesFrom_error_points [] h

end Source

end EndpointCompiler
