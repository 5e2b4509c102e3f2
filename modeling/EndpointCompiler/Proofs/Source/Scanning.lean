import EndpointCompiler.Source.Lexer
import EndpointCompiler.Synthesis.Written

/-! Tokens of the front of a text. Each element is read with all that really follows it, so that the
tokens of two pieces are those of both together. -/

namespace EndpointCompiler

theorem isIdentContinue_toNat {c : Char} (h : isIdentContinue c = true) :
    (48 ≤ c.toNat ∧ c.toNat ≤ 57) ∨ (65 ≤ c.toNat ∧ c.toNat ≤ 90) ∨ c.toNat = 95 ∨
      (97 ≤ c.toNat ∧ c.toNat ≤ 122) := by
  have hbool : (decide (65 ≤ c.val ∧ c.val ≤ 90) || (decide (97 ≤ c.val) && decide (c.val ≤ 122)) ||
      (decide (48 ≤ c.val) && decide (c.val ≤ 57)) || c == '_') = true := h
  simp only [Bool.or_eq_true, Bool.and_eq_true, decide_eq_true_eq, beq_iff_eq,
    UInt32.le_iff_toNat_le] at hbool
  rcases hbool with ((h | h) | h) | rfl
  · exact .inr (.inl h)
  · exact .inr (.inr (.inr h))
  · exact .inl h
  · exact .inr (.inr (.inl rfl))

theorem isWhiteSpace_of_isIdentContinue {c : Char} (h : isIdentContinue c = true) :
    isWhiteSpace c = false := by
  have hc := isIdentContinue_toNat h
  simp only [isWhiteSpace, Bool.or_eq_false_iff, Bool.and_eq_false_iff, decide_eq_false_iff_not,
    beq_eq_false_iff_ne, ne_eq]
  omega

namespace Source

/-- The front of a text is split into tokens, up to a rest. -/
inductive Scans : List Char → List Token → List Char → Prop where
  | done (rest : List Char) : Scans rest [] rest
  | step {c : Char} {cs rest : List Char} {e : Element} {ts : List Token} :
      element c cs = .ok e → Scans e.rest ts rest → Scans (c :: cs) (e.token?.toList ++ ts) rest

section

variable {c : Char} {cs ds rest w : List Char} {ts us : List Token}

theorem Scans.append (h : Scans cs ts ds) (h' : Scans ds us rest) : Scans cs (ts ++ us) rest := by
  induction h with
  | done => exact h'
  | step he _ ih =>
    rw [List.append_assoc]
    exact .step he (ih h')

theorem lexemesFrom_nil (offset : Nat) : lexemesFrom offset [] = .ok [⟨.eof, ⟨offset, offset⟩⟩] := by
  rw [lexemesFrom.eq_def]

theorem lexemesFrom_of_ok {e : Element} (he : element c cs = .ok e) (offset : Nat) :
    lexemesFrom offset (c :: cs) =
      (lexemesFrom (offset + utf8Length e.lexeme) e.rest).map fun more =>
        (e.token?.map fun t => ⟨t, ⟨offset, offset + utf8Length e.lexeme⟩⟩).toList ++ more := by
  rw [lexemesFrom.eq_def]
  dsimp only
  split
  · rename_i f hf
    rw [he] at hf
    cases hf
  · rename_i e' he'
    rw [he] at he'
    cases he'
    cases lexemesFrom (offset + utf8Length e.lexeme) e.rest with
    | error f => rfl
    | ok more => cases e.token? <;> rfl

theorem lexemesFrom_of_error {f : ElementFault} (he : element c cs = .error f) (offset : Nat) :
    lexemesFrom offset (c :: cs) =
      .error ⟨.lexical f.cause, ⟨offset + f.span.start, offset + f.span.stop⟩⟩ := by
  rw [lexemesFrom.eq_def]
  dsimp only
  split
  · rename_i f' hf'
    rw [he] at hf'
    cases hf'
    rfl
  · rename_i e' he'
    rw [he] at he'
    cases he'

/-- Splitting goes on with the rest, and fails where it fails there. -/
theorem Scans.lexemesFrom (h : Scans cs ts rest) (offset : Nat) :
    ∃ ls next, ls.map (·.token) = ts ∧
      lexemesFrom offset cs = (lexemesFrom next rest).map (ls ++ ·) := by
  induction h generalizing offset with
  | done rest =>
    refine ⟨[], offset, rfl, ?_⟩
    cases Source.lexemesFrom offset rest <;> rfl
  | @step c cs rest e ts he _ ih =>
    obtain ⟨ls, next, hls, hnext⟩ := ih (offset + utf8Length e.lexeme)
    refine ⟨(e.token?.map fun t => ⟨t, ⟨offset, offset + utf8Length e.lexeme⟩⟩).toList ++ ls, next,
      ?_, ?_⟩
    · rw [List.map_append, hls]
      cases e.token? <;> rfl
    · rw [lexemesFrom_of_ok he, hnext]
      cases Source.lexemesFrom next rest with
      | error f => rfl
      | ok more => simp [Except.map, List.append_assoc]

/-- A text that cannot be split into tokens. -/
def Unscannable (cs : List Char) : Prop :=
  ∀ offset, ∃ e, lexemesFrom offset cs = .error e

theorem Scans.unscannable (h : Scans cs ts ds) (hd : Unscannable ds) : Unscannable cs := by
  intro offset
  obtain ⟨ls, next, -, hnext⟩ := h.lexemesFrom offset
  obtain ⟨e, he⟩ := hd next
  rw [he] at hnext
  exact ⟨e, hnext⟩

theorem Scans.tokenize {text : String} (h : Scans text.toList ts []) :
    ∃ ls, tokenize text = .ok ls ∧ ls.map (·.token) = ts ++ [.eof] := by
  obtain ⟨ls, next, hls, h⟩ := h.lexemesFrom 0
  rw [lexemesFrom_nil] at h
  exact ⟨_, h, by simp [hls]⟩

theorem scans_of_element {e : Element} (h : element c cs = .ok e) :
    Scans (c :: cs) e.token?.toList e.rest := by
  have hs := Scans.step h (.done e.rest)
  rwa [List.append_nil] at hs

theorem scans_space (h : isWhiteSpace c = true) : Scans (c :: rest) [] rest := by
  have he : element c rest = .ok ⟨none, [c], rest⟩ := by rw [element, if_pos h]
  exact scans_of_element he

/-- What may follow a word. -/
def EndsWord (rest : List Char) : Prop :=
  ∀ c, rest.head? = some c → isIdentContinue c = false

theorem takeWhile_isIdentContinue_append (hw : ∀ c ∈ w, isIdentContinue c = true)
    (hr : EndsWord rest) :
    (w ++ rest).takeWhile isIdentContinue = w ∧ (w ++ rest).dropWhile isIdentContinue = rest := by
  have hrest : rest.takeWhile isIdentContinue = [] ∧ rest.dropWhile isIdentContinue = rest := by
    cases rest with
    | nil => exact ⟨rfl, rfl⟩
    | cons c rest => simp [hr c rfl]
  rw [List.takeWhile_append_of_pos hw, List.dropWhile_append_of_pos hw, hrest.1, hrest.2,
    List.append_nil]
  exact ⟨rfl, rfl⟩

theorem element_word (hw : ∀ d ∈ w, isIdentContinue d = true) (hc : isIdentStart c = true)
    (hr : EndsWord rest) :
    element c (w ++ rest) = .ok ⟨some (.ofWord (String.ofList (c :: w))), c :: w, rest⟩ := by
  have hws : isWhiteSpace c = false :=
    isWhiteSpace_of_isIdentContinue (isIdentContinue_of_isIdentStart hc)
  obtain ⟨htake, hdrop⟩ := takeWhile_isIdentContinue_append hw hr
  simp only [element, hws, hc, htake, hdrop, if_true, Bool.false_eq_true, if_false]

theorem scans_word (hw : isWord w = true) (hr : EndsWord rest) :
    Scans (w ++ rest) [.ofWord (String.ofList w)] rest := by
  cases w with
  | nil => cases hw
  | cons c w =>
    simp only [isWord, Bool.and_eq_true, List.all_eq_true] at hw
    exact scans_of_element (element_word hw.2 hw.1 hr)

/-- An identifier is a word that is no keyword, and stands in the text as it is. -/
theorem element_eq_ident {e : Element} {n : String} (h : element c cs = .ok e)
    (ht : e.token? = some (.ident n)) :
    isIdentStart c = true ∧ Keyword.ofText? n = none ∧
      n.toList = c :: cs.takeWhile isIdentContinue ∧ e.rest = cs.dropWhile isIdentContinue := by
  unfold element at h
  split at h
  · cases h
    cases ht
  split at h
  · rename_i hstart
    cases h
    simp only [Token.ofWord, Option.some.injEq] at ht
    split at ht
    · cases ht
    · rename_i hkeyword
      cases ht
      exact ⟨hstart, hkeyword, String.toList_ofList, rfl⟩
  split at h
  · split at h <;> cases h
    cases ht
  split at h
  · cases h
    cases ht
  split at h
  · cases h
    cases ht
  · cases h

theorem punct?_chars {p : Punct} (hp : p = .colon → rest.head? ≠ some ':') :
    punct? (p.chars ++ rest) = some p := by
  cases p with
  | colon =>
    cases rest with
    | nil => rfl
    | cons c rest =>
      have hc : c ≠ ':' := by simpa using hp rfl
      simp [punct?, Punct.all, Punct.chars, hc.symm]
  | _ => simp [punct?, Punct.all, Punct.chars]

/-- A mark stands for itself; only a colon must not have another one after it. -/
theorem element_mark {p : Punct} (hchars : p.chars = c :: cs)
    (hp : p = .colon → rest.head? ≠ some ':') :
    element c (cs ++ rest) = .ok ⟨some (.punct p), p.chars, rest⟩ := by
  have hpunct := punct?_chars hp
  have hspecial : isWhiteSpace c = false ∧ isIdentStart c = false ∧ c ≠ '"' ∧ c ≠ '/' := by
    cases p <;> cases hchars <;> decide
  rw [hchars, List.cons_append] at hpunct
  rw [element, hspecial.1, hspecial.2.1, if_neg Bool.false_ne_true, if_neg Bool.false_ne_true,
    if_neg hspecial.2.2.1, if_neg fun h => hspecial.2.2.2 h.1, hpunct]
  simp [hchars]

theorem scans_mark {p : Punct} {r : List Char} (hp : p = .colon → r.head? ≠ some ':') :
    Scans (p.chars ++ r) [.punct p] r := by
  cases hchars : p.chars with
  | nil => cases p <;> cases hchars
  | cons c cs => exact scans_of_element (element_mark hchars hp)

/-- The characters between the quotes of a literal. -/
def escaped (w : List Char) : List Char :=
  w.flatMap fun c => if c = '\\' ∨ c = '"' then ['\\', c] else [c]

theorem escapeText_toList (raw : String) : (escapeText raw).toList = escaped raw.toList := by
  simp [escapeText, escaped]

theorem escaped_cons (c : Char) (w : List Char) :
    escaped (c :: w) = (if c = '\\' ∨ c = '"' then ['\\', c] else [c]) ++ escaped w :=
  List.flatMap_cons

theorem literal_end (rest : List Char) : literal ('"' :: rest) = .ok ⟨[], ['"'], rest⟩ := by
  rw [literal.eq_def]
  rfl

theorem literal_escape (hc : c = '\\' ∨ c = '"') (cs : List Char) :
    literal ('\\' :: c :: cs) = match literal cs with
      | .ok l => .ok (l.cons c ['\\', c])
      | .error f => .error (f.shift (utf8Length ['\\', c])) := by
  rw [literal.eq_def]
  cases hl : literal cs with
  | ok l => simp only [hc.symm, Char.reduceEq, if_true, if_false, hl]
  | error f => simp only [hc.symm, Char.reduceEq, if_true, if_false, hl]

theorem literal_plain (hc : ¬ (c = '\\' ∨ c = '"')) (hn : c ≠ '\n') (cs : List Char) :
    literal (c :: cs) = match literal cs with
      | .ok l => .ok (l.cons c [c])
      | .error f => .error (f.shift c.utf8Size) := by
  simp only [not_or] at hc
  rw [literal.eq_def]
  cases hl : literal cs with
  | ok l => simp only [hc.1, hc.2, hn, if_false, hl]
  | error f => simp only [hc.1, hc.2, hn, if_false, hl]

theorem literal_escaped (hw : '\n' ∉ w) :
    literal (escaped w ++ '"' :: rest) = .ok ⟨w, escaped w ++ ['"'], rest⟩ := by
  induction w with
  | nil => exact literal_end rest
  | cons c w ih =>
    simp only [List.mem_cons, not_or] at hw
    rw [escaped_cons]
    split
    · rename_i hc
      simp only [List.cons_append, List.nil_append]
      rw [literal_escape hc, ih hw.2]
      rfl
    · rename_i hc
      simp only [List.cons_append, List.nil_append]
      rw [literal_plain hc (Ne.symm hw.1), ih hw.2]
      rfl

theorem literal_escaped_newline (hw : '\n' ∈ w) :
    literal (escaped w ++ '"' :: rest) = .error .unterminated := by
  induction w with
  | nil => cases hw
  | cons c w ih =>
    rw [escaped_cons]
    by_cases hn : c = '\n'
    · subst hn
      rw [if_neg (by decide), literal.eq_def]
      rfl
    · have hw' : '\n' ∈ w := by simpa [Ne.symm hn] using hw
      split
      · rename_i hc
        simp only [List.cons_append, List.nil_append]
        rw [literal_escape hc, ih hw']
        rfl
      · rename_i hc
        simp only [List.cons_append, List.nil_append]
        rw [literal_plain hc hn, ih hw']
        rfl

theorem element_text (hw : '\n' ∉ w) (r : List Char) :
    element '"' (escaped w ++ '"' :: r) =
      .ok ⟨some (.text (String.ofList w)), '"' :: (escaped w ++ ['"']), r⟩ := by
  rw [element, if_neg (by decide), if_neg (by decide), if_pos rfl, literal_escaped hw]

theorem scans_text {r : List Char} (hw : '\n' ∉ w) :
    Scans ('"' :: (escaped w ++ '"' :: r)) [.text (String.ofList w)] r :=
  scans_of_element (element_text hw r)

/-- A line break in a literal is an error, whatever follows. -/
theorem element_newline (hw : '\n' ∈ w) :
    element '"' (escaped w ++ '"' :: rest) =
      .error ⟨.unterminatedText, ⟨0, utf8Length ('"' :: (escaped w ++ '"' :: rest))⟩⟩ := by
  rw [element, if_neg (by decide), if_neg (by decide), if_pos rfl, literal_escaped_newline hw]

theorem lexemesFrom_newline (hw : '\n' ∈ w) (offset : Nat) :
    ∃ e, lexemesFrom offset ('"' :: (escaped w ++ '"' :: rest)) = .error e :=
  ⟨_, lexemesFrom_of_error (element_newline hw) offset⟩

end

/-! The end of input stands once, after all other tokens. -/

theorem element_ne_eof {c : Char} {cs : List Char} {e : Element} {t : Token}
    (h : element c cs = .ok e) (ht : e.token? = some t) : t ≠ .eof := by
  rintro rfl
  unfold element at h
  split at h
  · cases h
    cases ht
  split at h
  · cases h
    simp only [Option.some.injEq, Token.ofWord] at ht
    split at ht <;> cases ht
  split at h
  · split at h <;> cases h
    cases ht
  split at h
  · cases h
    cases ht
  split at h
  · cases h
    cases ht
  · cases h

theorem lexemesFrom_ends {cs : List Char} {offset : Nat} {ls : List Lexeme}
    (h : lexemesFrom offset cs = .ok ls) :
    ∃ ks l, ls = ks ++ [l] ∧ l.token = .eof ∧ ∀ k ∈ ks, k.token ≠ .eof := by
  fun_induction lexemesFrom offset cs generalizing ls with
  | case1 =>
    cases h
    exact ⟨[], _, rfl, rfl, by simp⟩
  | case2 => cases h
  | case3 => cases h
  | case4 _ _ _ _ _ _ _ hm _ =>
    cases h
    rename_i ih
    exact ih hm
  | case5 _ _ _ _ he _ _ hm t ht =>
    cases h
    rename_i ih
    obtain ⟨ks, l, rfl, hl, hks⟩ := ih hm
    refine ⟨_ :: ks, l, rfl, hl, ?_⟩
    exact List.forall_mem_cons.mpr ⟨element_ne_eof he ht, hks⟩

end Source

end EndpointCompiler
