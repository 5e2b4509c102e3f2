import EndpointCompiler.Proofs.Source.Naming
import EndpointCompiler.Proofs.Source.Tiling
import EndpointCompiler.Proofs.Synthesis.Names

/-! Generated names and literals as the lexer reads them. What passes for a name of a property, what
a text is made into to be a name, and how a literal is written agree with it on all texts. -/

namespace EndpointCompiler

open Source

section

variable {s : String}

theorem isDigit_eq_false_of_isIdentStart {c : Char} (h : isIdentStart c = true) :
    c.isDigit = false := by
  have hbool : (decide (65 ≤ c.val ∧ c.val ≤ 90) || (decide (97 ≤ c.val) && decide (c.val ≤ 122)) ||
      c == '_') = true := h
  simp only [Bool.or_eq_true, Bool.and_eq_true, decide_eq_true_eq, beq_iff_eq,
    UInt32.le_iff_toNat_le] at hbool
  rw [Bool.eq_false_iff]
  intro hdigit
  simp only [Char.isDigit, Bool.and_eq_true, decide_eq_true_eq, UInt32.le_iff_toNat_le] at hdigit
  have hnine : c.val.toNat ≤ 57 := hdigit.2
  rcases hbool with (hupper | hlower) | rfl
  · have hletter : 65 ≤ c.val.toNat := hupper.1
    omega
  · have hletter : 97 ≤ c.val.toNat := hlower.1
    omega
  · exact absurd hnine (by decide)

/-- A name passes exactly if it is one identifier, from its first byte to its last. -/
theorem isPropertyName_iff_lexesAs : isPropertyName s = true ↔ LexesAs s (.ident s) := by
  constructor
  · intro hs
    have hword := isWord_of_isPropertyName hs
    cases hchars : s.toList with
    | nil =>
      rw [hchars] at hword
      cases hword
    | cons c cs =>
      rw [hchars, isWord, Bool.and_eq_true, List.all_eq_true] at hword
      have he := element_word hword.2 hword.1 endsWord_nil
      rw [List.append_nil, ← hchars, String.ofList_toList, ofWord_of_isPropertyName hs] at he
      exact lexesAs_of_element hchars he rfl rfl
  · exact fun hs => lexemesFrom_named hs _ List.mem_cons_self s rfl

/-- Names are left as they are. -/
theorem sanitizeIdent_of_isPropertyName (hs : isPropertyName s = true) : sanitizeIdent s = s := by
  have hword := isWord_of_isPropertyName hs
  have hkeyword : Keyword.ofText? s = none := by
    simp only [isPropertyName, Bool.and_eq_true, Option.isNone_iff_eq_none] at hs
    exact hs.2
  cases hchars : s.toList with
  | nil =>
    rw [hchars] at hword
    cases hword
  | cons c cs =>
    rw [hchars, isWord, Bool.and_eq_true, List.all_eq_true] at hword
    have hkept : (c :: cs).map (fun d => if isIdentContinue d then d else '_') = c :: cs := by
      refine (List.map_congr_left fun d hd => ?_).trans (List.map_id _)
      refine if_pos ?_
      rcases List.mem_cons.mp hd with rfl | hd
      · exact isIdentContinue_of_isIdentStart hword.1
      · exact hword.2 d hd
    unfold sanitizeIdent
    simp only [hchars, hkept, isDigit_eq_false_of_isIdentStart hword.1, Bool.false_eq_true,
      if_false]
    rw [← hchars, String.ofList_toList, hkeyword]
    rfl

theorem sanitizeIdent_eq_self_iff : sanitizeIdent s = s ↔ isPropertyName s = true :=
  ⟨fun h => h ▸ isPropertyName_sanitizeIdent s, sanitizeIdent_of_isPropertyName⟩

theorem quoted_toList (s : String) :
    ("\"" ++ escapeText s ++ "\"").toList = '"' :: (escaped s.toList ++ ['"']) := by
  rw [String.toList_append, String.toList_append, escapeText_toList]
  rfl

theorem lexesAs_quoted (hs : '\n' ∉ s.toList) :
    LexesAs ("\"" ++ escapeText s ++ "\"") (.text s) := by
  have he : element '"' (escaped s.toList ++ ['"']) =
      .ok ⟨some (.text s), '"' :: (escaped s.toList ++ ['"']), []⟩ := by
    rw [element_text hs, String.ofList_toList]
  exact lexesAs_of_element (quoted_toList s) he rfl rfl

theorem tokenize_quoted_newline (hs : '\n' ∈ s.toList) :
    tokenize ("\"" ++ escapeText s ++ "\"") = .error ⟨.lexical .unterminatedText,
      ⟨0, utf8Length ("\"" ++ escapeText s ++ "\"").toList⟩⟩ := by
  have hfault : element '"' (escaped s.toList ++ ['"']) = .error ⟨.unterminatedText,
      ⟨0, utf8Length ('"' :: (escaped s.toList ++ ['"']))⟩⟩ := element_newline hs
  rw [tokenize, quoted_toList, lexemesFrom_of_error hfault]
  simp only [Nat.zero_add]

end

/-- The rules for names and literals are the lexer's: a name passes if and only if it is one
identifier, every text is made into such a name and only such names are left as they are; and a
literal stands for its text if and only if there is no line break in it, and has no end
otherwise. -/
theorem names_and_literals_lex (s : String) :
    (isPropertyName s = true ↔ LexesAs s (.ident s)) ∧
      LexesAs (sanitizeIdent s) (.ident (sanitizeIdent s)) ∧
      (sanitizeIdent s = s ↔ LexesAs s (.ident s)) ∧
      sanitizeIdent (sanitizeIdent s) = sanitizeIdent s ∧
      (LexesAs ("\"" ++ escapeText s ++ "\"") (.text s) ↔ '\n' ∉ s.toList) ∧
      (tokenize ("\"" ++ escapeText s ++ "\"") = .error ⟨.lexical .unterminatedText,
        ⟨0, utf8Length ("\"" ++ escapeText s ++ "\"").toList⟩⟩ ↔ '\n' ∈ s.toList) := by
  have hsanitized := isPropertyName_sanitizeIdent s
  refine ⟨isPropertyName_iff_lexesAs, isPropertyName_iff_lexesAs.mp hsanitized,
    sanitizeIdent_eq_self_iff.trans isPropertyName_iff_lexesAs,
    sanitizeIdent_of_isPropertyName hsanitized, ?_⟩
  by_cases hs : '\n' ∈ s.toList
  · have herror := tokenize_quoted_newline hs
    refine ⟨⟨fun hlexes => ?_, fun hnone => absurd hs hnone⟩, fun _ => hs, fun _ => herror⟩
    cases hlexes.symm.trans herror
  · have hlexes := lexesAs_quoted hs
    refine ⟨⟨fun _ => hs, fun _ => hlexes⟩, fun herror => ?_, fun hmem => absurd hmem hs⟩
    cases herror.symm.trans hlexes

end EndpointCompiler
