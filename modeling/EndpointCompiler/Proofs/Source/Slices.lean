import EndpointCompiler.Proofs.Source.Outline
import EndpointCompiler.Proofs.Source.Shift

/-! Texts cut out of a text. A token ends where it does whatever follows it, or nothing; so the
tokens of what stands within the range of some tokens are these tokens, further to the front. -/

namespace EndpointCompiler

/-- A text before and after so many bytes, if these are whole characters. -/
def splitBytes? : Nat → List Char → Option (List Char × List Char)
  | 0, cs => some ([], cs)
  | _ + 1, [] => none
  | n + 1, c :: cs =>
    if c.utf8Size ≤ n + 1 then
      (splitBytes? (n + 1 - c.utf8Size) cs).map fun halves => (c :: halves.1, halves.2)
    else none

/-- What stands in a text within a range, if both its ends lie between characters. -/
def Span.slice? (s : Span) (text : String) : Option String := do
  let (front, _) ← splitBytes? s.stop text.toList
  let (_, inside) ← splitBytes? s.start front
  return String.ofList inside

theorem splitBytes?_append (before after : List Char) :
    splitBytes? (utf8Length before) (before ++ after) = some (before, after) := by
  induction before with
  | nil => rw [utf8Length_nil, List.nil_append, splitBytes?]
  | cons c before ih =>
    have hc := c.utf8Size_pos
    obtain ⟨n, hn⟩ : ∃ n, utf8Length (c :: before) = n + 1 :=
      Nat.exists_eq_add_one.mpr (by simp only [utf8Length_cons]; omega)
    have hle : c.utf8Size ≤ n + 1 := by simp only [utf8Length_cons] at hn; omega
    have hrest : n + 1 - c.utf8Size = utf8Length before := by
      simp only [utf8Length_cons] at hn
      omega
    rw [hn, List.cons_append, splitBytes?, if_pos hle, hrest, ih]
    rfl

/-- A text that is split at a number of bytes is split between two characters. -/
theorem splitBytes?_eq_some {n : Nat} {cs before after : List Char}
    (h : splitBytes? n cs = some (before, after)) :
    cs = before ++ after ∧ n = utf8Length before := by
  fun_induction splitBytes? n cs generalizing before after with
  | case1 =>
    cases h
    exact ⟨rfl, rfl⟩
  | case2 => cases h
  | case3 n c cs hle ih =>
    obtain ⟨⟨front, back⟩, hsplit, heq⟩ := Option.map_eq_some_iff.mp h
    cases heq
    obtain ⟨rfl, hn⟩ := ih hsplit
    refine ⟨rfl, ?_⟩
    simp only [utf8Length_cons]
    omega
  | case4 => cases h

/-- A slice is what lies between two other parts of the text, as many bytes in as the range says. -/
theorem Span.slice?_eq_some_iff {s : Span} {text slice : String} :
    s.slice? text = some slice ↔ ∃ before after, text.toList = before ++ slice.toList ++ after ∧
      s = ⟨utf8Length before, utf8Length (before ++ slice.toList)⟩ := by
  obtain ⟨start, stop⟩ := s
  constructor
  · intro h
    obtain ⟨⟨front, after⟩, hfront, h⟩ := Option.bind_eq_some_iff.mp h
    obtain ⟨⟨before, inside⟩, hinside, h⟩ := Option.bind_eq_some_iff.mp h
    cases h
    obtain ⟨htext, rfl⟩ := splitBytes?_eq_some hfront
    obtain ⟨rfl, rfl⟩ := splitBytes?_eq_some hinside
    exact ⟨before, after, by rw [String.toList_ofList, htext], by rw [String.toList_ofList]⟩
  · rintro ⟨before, after, htext, heq⟩
    cases heq
    simp only [Span.slice?, htext, splitBytes?_append, Option.bind_eq_bind, Option.bind_some,
      Option.pure_def, String.ofList_toList]

namespace Source

section

variable {c : Char} {cs r after : List Char} {e : Element}

/-- A literal ends with its quote, whatever follows. -/
theorem literal_written {l : Literal} (h : literal cs = .ok l) (r : List Char) :
    literal (l.written ++ r) = .ok ⟨l.value, l.written, r⟩ := by
  fun_induction literal cs generalizing l with
  | case1 => cases h
  | case2 =>
    cases h
    exact literal_end r
  | case3 => cases h
  | case4 => cases h
  | case5 _ _ d m hm _ hd ih =>
    cases h
    simp only [Literal.cons, List.cons_append, List.nil_append]
    rw [literal_escape (Or.symm ‹_›), ih hm]
    rfl
  | case6 => cases h
  | case7 => cases h
  | case8 d _ hquote hline hslash m hm ih =>
    cases h
    simp only [Literal.cons, List.cons_append, List.nil_append]
    rw [literal_plain (by simp [hquote, hslash]) hline, ih hm]
    rfl
  | case9 => cases h

section

variable {α : Type} {p : α → Bool} {as bs more : List α}

theorem dropWhile_cut (h : (as ++ more).dropWhile p = bs ++ more) : as.dropWhile p = bs := by
  rw [List.dropWhile_append] at h
  split at h
  · rename_i hempty
    have hle := (List.dropWhile_suffix (l := more) p).length_le
    rw [h, List.length_append] at hle
    rw [List.isEmpty_iff.mp hempty, List.length_eq_zero_iff.mp (by omega : bs.length = 0)]
  · exact List.append_cancel_right h

theorem takeWhile_cut (h : (as ++ more).dropWhile p = bs ++ more) :
    as.takeWhile p = (as ++ more).takeWhile p := by
  have hcut := List.takeWhile_append_dropWhile (p := p) (l := as)
  have hall := List.takeWhile_append_dropWhile (p := p) (l := as ++ more)
  rw [dropWhile_cut h] at hcut
  rw [h, ← List.append_assoc] at hall
  exact List.append_cancel_right (hcut.trans (List.append_cancel_right hall).symm)

end

/-- Of two colons the first is no mark of its own. -/
theorem head?_ne_colon_of_punct? (h : punct? (':' :: cs) = some .colon) : cs.head? ≠ some ':' := by
  intro hhead
  obtain ⟨more, rfl⟩ := List.head?_eq_some_iff.mp hhead
  have hdouble : punct? (Punct.doubleColon.chars ++ more) = some .doubleColon :=
    punct?_chars nofun
  rw [Punct.chars, List.cons_append, List.cons_append, List.nil_append, h] at hdouble
  cases hdouble

/-- An element does not depend on how far the text goes on behind it. -/
theorem element_cut (h : element c (cs ++ after) = .ok e) (hr : e.rest = r ++ after) :
    element c cs = .ok ⟨e.token?, e.lexeme, r⟩ := by
  have htext : e.lexeme ++ r = c :: cs := by
    have happend := element_append h
    rw [hr, ← List.append_assoc, ← List.cons_append] at happend
    exact List.append_cancel_right happend
  -- Each form of an element stops by itself, except that a slash is only a comment if another
  -- follows, and a colon only a mark of its own if no other does.
  unfold element at h
  split at h
  · rename_i hspace
    cases h
    obtain rfl : r = cs := (List.cons.inj htext).2
    rw [element, if_pos hspace]
  split at h
  · rename_i hspace hstart
    cases h
    rw [element, if_neg hspace, if_pos hstart, takeWhile_cut hr, dropWhile_cut hr]
  split at h
  · rename_i hspace hstart hquote
    split at h
    · rename_i l hl
      cases h
      obtain rfl : l.written ++ r = cs := (List.cons.inj htext).2
      rw [element, if_neg hspace, if_neg hstart, if_pos hquote, literal_written hl]
    · cases h
    · cases h
  split at h
  · rename_i hspace hstart hquote hslash
    cases h
    have hhead : cs.head? = some '/' := by
      cases cs with
      | nil =>
        obtain ⟨more, rfl⟩ := List.head?_eq_some_iff.mp hslash.2
        simp at htext
      | cons d cs => exact hslash.2
    rw [element, if_neg hspace, if_neg hstart, if_neg hquote, if_pos ⟨hslash.1, hhead⟩,
      takeWhile_cut hr, dropWhile_cut hr]
  split at h
  · rename_i p hp
    cases h
    cases hchars : p.chars with
    | nil => cases p <;> cases hchars
    | cons d ds =>
      rw [hchars, List.cons_append] at htext
      obtain ⟨rfl, rfl⟩ := List.cons.inj htext
      rw [← hchars]
      refine element_mark hchars fun hcolon => ?_
      subst hcolon
      cases hchars
      have hhead := head?_ne_colon_of_punct? hp
      cases r with
      | nil => simp
      | cons d r => exact hhead
  · cases h

end

section

variable {c : Char} {cs r after : List Char} {e : Element}

/-- The first element of a text gives a token of some lexemes or what comes before it. -/
theorem lexemesFrom_split {offset : Nat} {ls ms : Tokens} {l : Lexeme}
    (h : lexemesFrom offset (c :: cs) = .ok (ls ++ l :: ms)) :
    ∃ e, element c cs = .ok e ∧
      ((ls = [] ∧ e.token? = some l.token ∧ l.span = ⟨offset, offset + utf8Length e.lexeme⟩) ∨
        ∃ more, ls = (e.token?.map fun t =>
            (⟨t, ⟨offset, offset + utf8Length e.lexeme⟩⟩ : Lexeme)).toList ++ more ∧
          lexemesFrom (offset + utf8Length e.lexeme) e.rest = .ok (more ++ l :: ms)) := by
  cases he : element c cs with
  | error f =>
    rw [lexemesFrom_of_error he] at h
    cases h
  | ok e =>
    rw [lexemesFrom_of_ok he] at h
    refine ⟨e, rfl, ?_⟩
    cases hrest : lexemesFrom (offset + utf8Length e.lexeme) e.rest with
    | error f =>
      rw [hrest] at h
      cases h
    | ok rest =>
      rw [hrest] at h
      have hall := Except.ok.inj h
      cases ht : e.token? with
      | none =>
        rw [ht] at hall
        exact .inr ⟨ls, rfl, congrArg Except.ok hall⟩
      | some t =>
        rw [ht] at hall
        cases ls with
        | nil =>
          obtain ⟨rfl, -⟩ := List.cons.inj hall
          exact .inl ⟨rfl, rfl, rfl⟩
        | cons k ls =>
          obtain ⟨rfl, hmore⟩ := List.cons.inj hall
          exact .inr ⟨ls, rfl, congrArg Except.ok hmore⟩

/-- From the start of a token on, a text is split as it is there. -/
theorem lexemesFrom_drop {offset : Nat} {cs : List Char} {ls ms : Tokens} {l : Lexeme}
    (h : lexemesFrom offset cs = .ok (ls ++ l :: ms)) :
    ∃ before after, cs = before ++ after ∧ l.span.start = offset + utf8Length before ∧
      lexemesFrom l.span.start after = .ok (l :: ms) := by
  match cs with
  | [] =>
    rw [lexemesFrom_nil] at h
    cases ls with
    | nil =>
      cases h
      exact ⟨[], [], rfl, rfl, lexemesFrom_nil offset⟩
    | cons k ls =>
      have hnone := (List.cons.inj (Except.ok.inj h)).2
      simp at hnone
  | c :: cs =>
    obtain ⟨e, he, ⟨rfl, -, hspan⟩ | ⟨more, -, hmore⟩⟩ := lexemesFrom_split h
    · refine ⟨[], c :: cs, rfl, by rw [hspan]; rfl, ?_⟩
      rw [hspan]
      exact h
    · obtain ⟨before, after, hrest, hstart, hl⟩ := lexemesFrom_drop hmore
      refine ⟨e.lexeme ++ before, after, ?_, ?_, hl⟩
      · rw [List.append_assoc, ← hrest, element_append he]
      · rw [hstart, utf8Length_append, Nat.add_assoc]
termination_by cs.length
decreasing_by exact element_rest_lt he

/-- A token but the end is that of the element that stands at its range. -/
theorem lexemesFrom_element {offset : Nat} {cs : List Char} {ls ms : Tokens} {l : Lexeme}
    (h : lexemesFrom offset cs = .ok (ls ++ l :: ms)) (hl : l.token ≠ .eof) :
    ∃ before c ds e, cs = before ++ c :: ds ∧ element c ds = .ok e ∧ e.token? = some l.token ∧
      l.span = ⟨offset + utf8Length before,
        offset + utf8Length before + utf8Length e.lexeme⟩ := by
  match cs with
  | [] =>
    rw [lexemesFrom_nil] at h
    have hmem : l ∈ ls ++ l :: ms := List.mem_append_right _ List.mem_cons_self
    rw [← Except.ok.inj h, List.mem_singleton] at hmem
    exact absurd (congrArg Lexeme.token hmem) hl
  | c :: cs =>
    obtain ⟨e, he, ⟨-, ht, hspan⟩ | ⟨more, -, hmore⟩⟩ := lexemesFrom_split h
    · exact ⟨[], c, cs, e, rfl, he, ht, by rw [hspan]; rfl⟩
    · obtain ⟨before, d, ds, e', hrest, he', ht', hspan⟩ := lexemesFrom_element hmore hl
      refine ⟨e.lexeme ++ before, d, ds, e', ?_, he', ht', ?_⟩
      · rw [List.append_assoc, ← hrest, element_append he]
      · rw [hspan, utf8Length_append, Nat.add_assoc offset (utf8Length e.lexeme)]
termination_by cs.length
decreasing_by exact element_rest_lt he

theorem lexemesFrom_cut (he : element c cs = .ok e) (hrest : e.rest = r ++ after) (offset : Nat) :
    lexemesFrom offset (e.lexeme ++ r) =
      (lexemesFrom (offset + utf8Length e.lexeme) r).map fun more =>
        (e.token?.map fun t => ⟨t, ⟨offset, offset + utf8Length e.lexeme⟩⟩).toList ++ more := by
  have htext := element_append he
  cases hlexeme : e.lexeme with
  | nil => exact absurd hlexeme (element_lexeme_ne_nil he)
  | cons d ds =>
    rw [hlexeme, hrest, List.cons_append] at htext
    obtain ⟨rfl, rfl⟩ := List.cons.inj htext
    rw [← List.append_assoc] at he
    rw [List.cons_append, lexemesFrom_of_ok (element_cut he hrest), hlexeme]

/-- Up to the end of a token, a text is split as it is there. -/
theorem lexemesFrom_take {offset : Nat} {cs : List Char} {ls ms : Tokens} {l : Lexeme}
    (h : lexemesFrom offset cs = .ok (ls ++ l :: ms)) (hl : l.token ≠ .eof) :
    ∃ inside after, cs = inside ++ after ∧ l.span.stop = offset + utf8Length inside ∧
      lexemesFrom offset inside =
        .ok (ls ++ [l, ⟨.eof, ⟨l.span.stop, l.span.stop⟩⟩]) := by
  match cs with
  | [] =>
    rw [lexemesFrom_nil] at h
    cases ls with
    | nil =>
      cases h
      exact absurd rfl hl
    | cons k ls =>
      have hnone := (List.cons.inj (Except.ok.inj h)).2
      simp at hnone
  | c :: cs =>
    obtain ⟨e, he, ⟨rfl, ht, hspan⟩ | ⟨more, rfl, hmore⟩⟩ := lexemesFrom_split h
    · refine ⟨e.lexeme, e.rest, (element_append he).symm, by rw [hspan], ?_⟩
      have hstop : l.span.stop = offset + utf8Length e.lexeme := by rw [hspan]
      have hcut := lexemesFrom_cut he (r := []) rfl offset
      rw [List.append_nil, lexemesFrom_nil, ht, Option.map_some, ← hspan, ← hstop] at hcut
      exact hcut
    · obtain ⟨inside, after, hrest, hstop, hinside⟩ := lexemesFrom_take hmore hl
      refine ⟨e.lexeme ++ inside, after, ?_, ?_, ?_⟩
      · rw [List.append_assoc, ← hrest, element_append he]
      · rw [hstop, utf8Length_append, Nat.add_assoc]
      · rw [lexemesFrom_cut he hrest, hinside]
        exact congrArg Except.ok (List.append_assoc ..).symm
termination_by cs.length
decreasing_by exact element_rest_lt he

/-- The tokens of a text are the same wherever it stands. -/
theorem lexemesFrom_unshift {n : Nat} (offset : Nat) {cs : List Char} {ls : Tokens}
    (h : lexemesFrom (n + offset) cs = .ok ls) :
    ∃ ks, lexemesFrom offset cs = .ok ks ∧ ks.map (·.shift n) = ls := by
  match cs with
  | [] =>
    rw [lexemesFrom_nil] at h
    cases h
    exact ⟨_, lexemesFrom_nil offset, rfl⟩
  | c :: cs =>
    cases he : element c cs with
    | error f =>
      rw [lexemesFrom_of_error he] at h
      cases h
    | ok e =>
      rw [lexemesFrom_of_ok he, Nat.add_assoc] at h
      cases hmore : lexemesFrom (n + (offset + utf8Length e.lexeme)) e.rest with
      | error f =>
        rw [hmore] at h
        cases h
      | ok more =>
        rw [hmore] at h
        cases h
        obtain ⟨ks, hks, rfl⟩ := lexemesFrom_unshift _ hmore
        refine ⟨_, by rw [lexemesFrom_of_ok he, hks]; rfl, ?_⟩
        rw [List.map_append]
        cases e.token? <;> rfl
termination_by cs.length
decreasing_by exact element_rest_lt he

theorem lexemesFrom_nonempty {offset : Nat} {ls : Tokens} (h : lexemesFrom offset cs = .ok ls) :
    ∀ k ∈ ls, k.token ≠ .eof → k.span.start < k.span.stop := by
  fun_induction lexemesFrom offset cs generalizing ls with
  | case1 =>
    cases h
    exact List.forall_mem_singleton.mpr fun hne => absurd rfl hne
  | case2 => cases h
  | case3 => cases h
  | case4 _ _ _ _ _ _ _ hm _ =>
    cases h
    rename_i ih
    exact ih hm
  | case5 offset _ _ e he _ _ hm t ht =>
    cases h
    rename_i ih
    refine List.forall_mem_cons.mpr ⟨fun _ => ?_, ih hm⟩
    have hlexeme : utf8Length e.lexeme ≠ 0 :=
      fun hzero => element_lexeme_ne_nil he (utf8Length_eq_zero.mp hzero)
    exact Nat.lt_add_of_pos_right (Nat.pos_of_ne_zero hlexeme)

end

section

variable {text : String} {ks ms : Tokens} {l : Lexeme}

theorem tokenize_ordered (h : tokenize text = .ok (ks ++ [l])) (hks : ∀ k ∈ ks, k.token ≠ .eof) :
    Ordered ks where
  inOrder := (tokenize_points h).2.sublist (List.sublist_append_left _ _)
  nonempty := fun k hk => lexemesFrom_nonempty h k (List.mem_append_left _ hk) (hks k hk)

/-- The tokens of a slice from the first of some tokens to the last are these. -/
theorem tokenize_slice {s : Span} (h : tokenize text = .ok (ks ++ [l]))
    (hks : ∀ k ∈ ks, k.token ≠ .eof) (hms : ms <:+: ks) (hs : Hull ms s) :
    ∃ slice ns e, s.slice? text = some slice ∧ tokenize slice = .ok (ns ++ [e]) ∧
      e.token = .eof ∧ (∀ k ∈ ns, k.token ≠ .eof) ∧ ns.map (·.shift s.start) = ms := by
  obtain ⟨as, bs, rfl⟩ := hms
  obtain ⟨first, last, hfirst, hlast, rfl⟩ := hs
  obtain ⟨more, hmore⟩ := List.head?_eq_some_iff.mp hfirst
  obtain ⟨front, rfl⟩ := List.getLast?_eq_some_iff.mp hlast
  have hall : as ++ (front ++ [last]) ++ bs ++ [l] = as ++ first :: (more ++ bs ++ [l]) := by
    rw [hmore]
    simp
  rw [hall] at h
  -- What stands before the slice is dropped, then what is behind it, and the offset goes last.
  obtain ⟨before, rest, htext, hstart, hrest⟩ := lexemesFrom_drop h
  have hsplit : first :: (more ++ bs ++ [l]) = front ++ last :: (bs ++ [l]) := by
    rw [← List.cons_append, ← List.cons_append, ← hmore]
    simp
  rw [hsplit] at hrest
  have hopen : last.token ≠ .eof := hks last (by simp)
  obtain ⟨inside, after, rfl, hstop, hinside⟩ := lexemesFrom_take hrest hopen
  obtain ⟨ns, hns, hshift⟩ := lexemesFrom_unshift 0 hinside
  have hfront : front ++ [last, ⟨.eof, ⟨last.span.stop, last.span.stop⟩⟩] =
      front ++ [last] ++ [⟨.eof, ⟨last.span.stop, last.span.stop⟩⟩] := by simp
  rw [hfront] at hshift
  obtain ⟨ns, es, rfl, hns', hes⟩ := List.map_eq_append_iff.mp hshift
  obtain ⟨e, rfl, he⟩ := List.map_eq_singleton_iff.mp hes
  refine ⟨String.ofList inside, ns, e, ?_, ?_, ?_, fun k hk => ?_, hns'⟩
  · refine Span.slice?_eq_some_iff.mpr ⟨before, after, ?_, ?_⟩
    · rw [String.toList_ofList, htext, List.append_assoc]
    · rw [String.toList_ofList, utf8Length_append, hstop, hstart, Nat.zero_add]
  · rw [tokenize, String.toList_ofList]
    exact hns
  · exact congrArg Lexeme.token he
  · have hmoved : k.shift first.span.start ∈ front ++ [last] := hns' ▸ List.mem_map_of_mem hk
    exact hks (k.shift _) (List.mem_append_left bs (List.mem_append_right as hmoved))

end

end Source

end EndpointCompiler
