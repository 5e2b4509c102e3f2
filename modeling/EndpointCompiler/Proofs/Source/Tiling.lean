import EndpointCompiler.Proofs.Source.Slices
import Mathlib.Data.List.TakeWhile

/-! Tokens tile their text. From the first byte to the last a text is gaps and tokens in turn: a gap
is white space and comments, and a token is what its own piece of the text is read as. -/

namespace EndpointCompiler.Source

/-- White space and comments in front of a rest, each comment up to the end of its line. -/
inductive GapBefore (rest : List Char) : List Char → Prop where
  | nil : GapBefore rest []
  | space {c : Char} {gap : List Char} :
      isWhiteSpace c = true → GapBefore rest gap → GapBefore rest (c :: gap)
  | comment {body gap : List Char} :
      '\n' ∉ body → (∀ c, (gap ++ rest).head? = some c → c = '\n') → GapBefore rest gap →
      GapBefore rest ('/' :: '/' :: (body ++ gap))

/-- A range of a text, both of whose ends lie between characters, is a gap. -/
def IsGap (cs : List Char) (s : Span) : Prop :=
  ∃ before gap after, cs = before ++ gap ++ after ∧
    s = ⟨utf8Length before, utf8Length (before ++ gap)⟩ ∧ GapBefore after gap

/-- The ranges from an offset to the first of some tokens, and from each of them to the next. -/
def gapsFrom : Nat → Tokens → List Span
  | _, [] => []
  | offset, l :: ls => ⟨offset, l.span.start⟩ :: gapsFrom l.span.stop ls

/-- A text is one token, from its first byte to its last. -/
def LexesAs (text : String) (t : Token) : Prop :=
  tokenize text = .ok [⟨t, ⟨0, utf8Length text.toList⟩⟩,
    ⟨.eof, ⟨utf8Length text.toList, utf8Length text.toList⟩⟩]

/-- Tokens and the gaps around them make up a text. -/
structure Tiles (text : String) (ls : Tokens) : Prop where
  ends : ∃ ks : Tokens,
    ls = ks ++ [⟨.eof, ⟨utf8Length text.toList, utf8Length text.toList⟩⟩] ∧
      ∀ k ∈ ks, k.token ≠ .eof
  nonempty : ∀ k ∈ ls, k.token ≠ .eof → k.span.start < k.span.stop
  increasing : ls.Pairwise fun a b => a.span.start < b.span.start ∧ a.span.stop ≤ b.span.start
  gaps : ∀ g ∈ gapsFrom 0 ls, IsGap text.toList g
  alone : ∀ k ∈ ls, k.token ≠ .eof →
    ∃ slice, k.span.slice? text = some slice ∧ LexesAs slice k.token

section

variable {c : Char} {cs rest : List Char} {e : Element} {t : Token} {offset : Nat} {ls : Tokens}

theorem GapBefore.append {gap more : List Char} (h : GapBefore (more ++ rest) gap)
    (h' : GapBefore rest more) : GapBefore rest (gap ++ more) := by
  induction h with
  | nil => exact h'
  | space hc _ ih => exact .space hc ih
  | comment hbody hline _ ih =>
    rw [List.cons_append, List.cons_append, List.append_assoc]
    rw [← List.append_assoc] at hline
    exact .comment hbody hline ih

theorem gapBefore_comment (hslash : cs.head? = some '/') :
    GapBefore (cs.dropWhile (· ≠ '\n')) ('/' :: cs.takeWhile (· ≠ '\n')) := by
  obtain ⟨body, rfl⟩ := List.head?_eq_some_iff.mp hslash
  have hbody : '\n' ∉ body.takeWhile (· ≠ '\n') := fun hmem => by
    simpa using List.mem_takeWhile_imp hmem
  have hline : ∀ c, (body.dropWhile (· ≠ '\n')).head? = some c → c = '\n' := by
    intro c hc
    have hstop := List.head?_dropWhile_not (· ≠ '\n') body
    rw [hc] at hstop
    simpa using hstop
  have hgap := GapBefore.comment hbody hline .nil
  rwa [List.append_nil] at hgap

/-- An element without a token is part of a gap. -/
theorem element_gap (he : element c cs = .ok e) (ht : e.token? = none) :
    GapBefore e.rest e.lexeme := by
  unfold element at he
  split at he
  · rename_i hspace
    cases he
    exact .space hspace .nil
  split at he
  · cases he
    cases ht
  split at he
  · split at he <;> cases he
    cases ht
  split at he
  · rename_i hslash
    cases he
    rw [hslash.1]
    exact gapBefore_comment hslash.2
  split at he
  · cases he
    cases ht
  · cases he

/-- What stands between the tokens of a text is gaps, where a gap has begun already in front of
the part that is still to be split. -/
theorem lexemesFrom_gaps (before : List Char) {begun cs : List Char} {ls : Tokens}
    (hbegun : GapBefore cs begun)
    (h : lexemesFrom (utf8Length (before ++ begun)) cs = .ok ls) :
    ∀ g ∈ gapsFrom (utf8Length before) ls, IsGap (before ++ begun ++ cs) g := by
  match cs with
  | [] =>
    rw [lexemesFrom_nil] at h
    cases h
    exact List.forall_mem_singleton.mpr ⟨before, begun, [], rfl, rfl, hbegun⟩
  | c :: cs =>
    cases he : element c cs with
    | error f =>
      rw [lexemesFrom_of_error he] at h
      cases h
    | ok e =>
      have htext : e.lexeme ++ e.rest = c :: cs := element_append he
      rw [lexemesFrom_of_ok he, ← utf8Length_append] at h
      cases hmore : lexemesFrom (utf8Length (before ++ begun ++ e.lexeme)) e.rest with
      | error f =>
        rw [hmore] at h
        cases h
      | ok more =>
        rw [hmore] at h
        rw [← htext] at hbegun ⊢
        cases ht : e.token? with
        | none =>
          -- The element goes on with the gap that has begun.
          rw [ht] at h
          cases h
          rw [List.append_assoc before] at hmore
          have hgaps := lexemesFrom_gaps before (hbegun.append (element_gap he ht)) hmore
          rwa [← List.append_assoc, List.append_assoc _ e.lexeme] at hgaps
        | some t =>
          rw [ht] at h
          cases h
          rw [← List.append_nil (before ++ begun ++ e.lexeme)] at hmore
          have hgaps := lexemesFrom_gaps (before ++ begun ++ e.lexeme) .nil hmore
          rw [List.append_nil, List.append_assoc _ e.lexeme] at hgaps
          exact List.forall_mem_cons.mpr ⟨⟨before, begun, _, rfl, rfl, hbegun⟩, hgaps⟩
termination_by cs.length
decreasing_by all_goals exact element_rest_lt he

/-- The end of input stands where the text ends. -/
theorem getLast?_lexemesFrom (h : lexemesFrom offset cs = .ok ls) :
    ls.getLast? = some ⟨.eof, ⟨offset + utf8Length cs, offset + utf8Length cs⟩⟩ := by
  fun_induction lexemesFrom offset cs generalizing ls with
  | case1 =>
    cases h
    rfl
  | case2 => cases h
  | case3 => cases h
  | case4 offset _ _ e he _ _ hm _ =>
    cases h
    rename_i ih
    rw [ih hm, ← element_append he, utf8Length_append, ← Nat.add_assoc]
  | case5 offset _ _ e he _ _ hm _ _ =>
    cases h
    rename_i ih
    rw [List.getLast?_cons, ih hm, ← element_append he, utf8Length_append, ← Nat.add_assoc]
    rfl

/-- A text with one element alone. -/
theorem lexesAs_of_element {text : String} (htext : text.toList = c :: cs)
    (he : element c cs = .ok e) (hrest : e.rest = []) (ht : e.token? = some t) :
    LexesAs text t := by
  have hlexeme : e.lexeme = text.toList := by
    rw [htext, ← element_append he, hrest, List.append_nil]
  have hall := lexemesFrom_of_ok he 0
  rw [hrest, lexemesFrom_nil, ht, hlexeme, ← htext, Nat.zero_add] at hall
  exact hall

theorem lexesAs_lexeme (he : element c cs = .ok e) (ht : e.token? = some t) :
    LexesAs (String.ofList e.lexeme) t := by
  have htext := element_append he
  cases hlexeme : e.lexeme with
  | nil => exact absurd hlexeme (element_lexeme_ne_nil he)
  | cons d ds =>
    rw [hlexeme, List.cons_append] at htext
    obtain ⟨rfl, rfl⟩ := List.cons.inj htext
    have hcut : element d ds = .ok ⟨e.token?, e.lexeme, []⟩ :=
      element_cut he (List.nil_append _).symm
    exact lexesAs_of_element String.toList_ofList hcut rfl ht

theorem element_error_nonempty {f : ElementFault} (h : element c cs = .error f) :
    f.span.start < f.span.stop := by
  have hsize := c.utf8Size_pos
  unfold element at h
  split at h
  · cases h
  split at h
  · cases h
  split at h
  · split at h
    · cases h
    · cases h
      simp only [utf8Length_cons]
      omega
    · cases h
      simp only
      omega
  split at h
  · cases h
  split at h
  · cases h
  · cases h
    exact hsize

theorem lexemesFrom_error_nonempty {e : SourceError} (h : lexemesFrom offset cs = .error e) :
    e.span.start < e.span.stop := by
  fun_induction lexemesFrom offset cs with
  | case1 => cases h
  | case2 offset _ _ f hf =>
    cases h
    exact Nat.add_lt_add_left (element_error_nonempty hf) offset
  | case3 offset _ _ e he stop f hf ih =>
    cases h
    exact ih hf
  | case4 => cases h
  | case5 => cases h

end

section

variable {text : String} {ls : Tokens}

theorem exists_slice_of_points {s : Span} (h : s.Points text.toList) :
    ∃ slice, s.slice? text = some slice := by
  obtain ⟨before, inside, after, htext, hspan, -⟩ := h
  refine ⟨String.ofList inside, Span.slice?_eq_some_iff.mpr ⟨before, after, ?_, ?_⟩⟩
  · rw [String.toList_ofList, htext]
  · rw [String.toList_ofList, hspan]

/-- A token but the end is all that the text at its range is read as. -/
theorem tokenize_alone (h : tokenize text = .ok ls) {k : Lexeme} (hk : k ∈ ls)
    (hopen : k.token ≠ .eof) :
    ∃ slice, k.span.slice? text = some slice ∧ LexesAs slice k.token := by
  obtain ⟨ks, ms, rfl⟩ := List.append_of_mem hk
  obtain ⟨before, c, ds, e, htext, he, ht, hspan⟩ := lexemesFrom_element h hopen
  refine ⟨String.ofList e.lexeme, Span.slice?_eq_some_iff.mpr ⟨before, e.rest, ?_, ?_⟩,
    lexesAs_lexeme he ht⟩
  · rw [String.toList_ofList, List.append_assoc, element_append he, htext]
  · rw [String.toList_ofList, utf8Length_append, hspan, Nat.zero_add]

theorem tokenize_increasing (h : tokenize text = .ok ls) :
    ls.Pairwise fun a b => a.span.start < b.span.start ∧ a.span.stop ≤ b.span.start := by
  obtain ⟨ks, l, rfl, -, hks⟩ := lexemesFrom_ends h
  have hstart : ∀ k ∈ ks, k.span.start < k.span.stop := fun k hk =>
    lexemesFrom_nonempty h k (List.mem_append_left _ hk) (hks k hk)
  obtain ⟨hfront, -, hend⟩ := List.pairwise_append.mp (tokenize_points h).2
  refine List.pairwise_append.mpr ⟨?_, List.pairwise_singleton _ _, fun a ha b hb => ?_⟩
  · refine hfront.imp_of_mem fun {a b} ha _ hab => ?_
    have hlt := hstart a ha
    omega
  · have hlt := hstart a ha
    have hle := hend a ha b hb
    omega

theorem tiles_of_tokenize (h : tokenize text = .ok ls) : Tiles text ls where
  ends := by
    obtain ⟨ks, l, rfl, -, hks⟩ := lexemesFrom_ends h
    have hlast := getLast?_lexemesFrom h
    rw [List.getLast?_concat, Nat.zero_add] at hlast
    exact ⟨ks, by rw [Option.some.inj hlast], hks⟩
  nonempty := lexemesFrom_nonempty h
  increasing := tokenize_increasing h
  gaps := lexemesFrom_gaps [] .nil h
  alone := fun _ hk hopen => tokenize_alone h hk hopen

end

/-- The tokens of a text and the gaps around them make it up, and a text that has none is refused at
a piece of it. -/
theorem tokenize_tiles (text : String) :
    (∀ ls, tokenize text = .ok ls → Tiles text ls) ∧
      ∀ e, tokenize text = .error e →
        e.span.start < e.span.stop ∧ ∃ slice, e.span.slice? text = some slice :=
  ⟨fun _ h => tiles_of_tokenize h,
    fun _ h => ⟨lexemesFrom_error_nonempty h, exists_slice_of_points (tokenize_error_points h)⟩⟩

/-- Comments with and without a line after them, tokens side by side, and an escape. -/
def mixedText : String :=
  "// größer\nlet x::\"ä\\\"\" // ö\n->//"

theorem tokenize_tiles_mixedText :
    (∃ ls, tokenize mixedText = .ok ls ∧
        ls.map (·.span) = [⟨12, 15⟩, ⟨16, 17⟩, ⟨17, 19⟩, ⟨19, 25⟩, ⟨32, 34⟩, ⟨36, 36⟩] ∧
        Tiles mixedText ls) ∧
      ∃ e, tokenize "// ä\n\"ö" = .error e ∧ e.span = ⟨6, 9⟩ ∧
        ∃ slice, e.span.slice? "// ä\n\"ö" = some slice := by
  have hspans : (tokenize mixedText).map (List.map (·.span)) =
      .ok [⟨12, 15⟩, ⟨16, 17⟩, ⟨17, 19⟩, ⟨19, 25⟩, ⟨32, 34⟩, ⟨36, 36⟩] := by decide +kernel
  have herror : tokenize "// ä\n\"ö" = .error ⟨.lexical .unterminatedText, ⟨6, 9⟩⟩ := by
    decide +kernel
  refine ⟨?_, _, herror, rfl, ((tokenize_tiles _).2 _ herror).2⟩
  cases hls : tokenize mixedText with
  | error e =>
    rw [hls] at hspans
    cases hspans
  | ok ls =>
    rw [hls] at hspans
    exact ⟨ls, rfl, Except.ok.inj hspans, (tokenize_tiles mixedText).1 ls hls⟩

end EndpointCompiler.Source
