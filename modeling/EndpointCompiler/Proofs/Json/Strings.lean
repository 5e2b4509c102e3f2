import EndpointCompiler.Json.Printer
import EndpointCompiler.Json.Reader
import EndpointCompiler.Proofs.Text.Parsed

/-! Strings in JSON are read back as they were before they were quoted. -/

namespace EndpointCompiler.Json

section

variable {strict : Bool} {s rest : List Char}

/-- The rest of a quoted string is read, whatever the first character is. -/
def ReadsBack (strict : Bool) (s rest cs : List Char) : Prop :=
  Reads (readString strict cs) (· = .ok s) rest

theorem readsBack_plain {c : Char} {cs : List Char} (hq : c ≠ '"') (hb : c ≠ '\\')
    (hc : ¬ c.toNat < 0x20) (h : ReadsBack strict s rest cs) :
    ReadsBack strict (c :: s) rest (c :: cs) := by
  rw [ReadsBack, readString, if_neg hq, if_neg hb, if_neg hc]
  refine Reads.bind h ?_
  rintro _ hs rfl
  exact reads_ok rfl

theorem readsBack_escape {c : Char} {e cs : List Char}
    (he : Reads (readEscape (e ++ cs)) (· = .ok c) cs) (h : ReadsBack strict s rest cs) :
    ReadsBack strict (c :: s) rest ('\\' :: (e ++ cs)) := by
  rw [ReadsBack, readString, if_neg (by decide), if_pos rfl]
  refine Reads.bind he ?_
  rintro _ hs rfl
  cases strict <;>
  · refine Reads.bind h ?_
    rintro _ hs' rfl
    exact reads_ok rfl

theorem readEscape_short {c e : Char} (h : shortEscape? e = some c) (cs : List Char) :
    Reads (readEscape ([e] ++ cs)) (· = .ok c) cs := by
  simp only [List.singleton_append, readEscape, h]
  exact reads_ok rfl

theorem hexNumber?_small : ∀ n : Fin 0x20, hexNumber? ['0', '0', Nat.digitChar (n / 16),
    Nat.digitChar (n % 16)] = some n := by
  decide

/-- The escape of a control character. -/
theorem readEscape_hex {c : Char} (hc : c.toNat < 0x20) (cs : List Char) :
    Reads (readEscape (['u', '0', '0', Nat.digitChar (c.toNat / 16),
      Nat.digitChar (c.toNat % 16)] ++ cs)) (· = .ok c) cs := by
  have hlow : isLowSurrogate c.toNat = false := by
    simp only [isLowSurrogate, Bool.and_eq_false_iff, decide_eq_false_iff_not]
    omega
  have hhigh : isHighSurrogate c.toNat = false := by
    simp only [isHighSurrogate, Bool.and_eq_false_iff, decide_eq_false_iff_not]
    omega
  have hhex := hexNumber?_small ⟨c.toNat, hc⟩
  have hread : Reads (readHex (['0', '0', Nat.digitChar (c.toNat / 16),
      Nat.digitChar (c.toNat % 16)] ++ cs)) (· = c.toNat) cs := by
    simp only [List.cons_append, List.nil_append, readHex, hhex]
    exact reads_ok rfl
  have hu : shortEscape? 'u' = none := by decide
  rw [List.cons_append, readEscape, hu]
  refine Reads.weaken (m := _) (Reads.bind hread ?_) _
  rintro _ hs rfl
  simp only [hlow, hhigh, Bool.false_eq_true, if_false]
  exact ⟨_, rfl, by rw [Parsed.map_value, Char.ofNat_toNat], rfl⟩

theorem readsBack_escapeChar (c : Char) {cs : List Char} (h : ReadsBack strict s rest cs) :
    ReadsBack strict (c :: s) rest (escapeChar c ++ cs) := by
  unfold escapeChar
  have short : ∀ e, shortEscape? e = some c → ReadsBack strict (c :: s) rest (['\\', e] ++ cs) :=
    fun e he => readsBack_escape (readEscape_short he cs) h
  split
  · rename_i hc
    exact short '"' (by subst hc; decide)
  split
  · rename_i hc
    exact short '\\' (by subst hc; decide)
  split
  · rename_i hc
    have hc : c = '\x08' := Char.toNat_inj.mp hc
    exact short 'b' (by subst hc; decide)
  split
  · rename_i hc
    have hc : c = '\x0c' := Char.toNat_inj.mp hc
    exact short 'f' (by subst hc; decide)
  split
  · rename_i hc
    exact short 'n' (by subst hc; decide)
  split
  · rename_i hc
    exact short 'r' (by subst hc; decide)
  split
  · rename_i hc
    exact short 't' (by subst hc; decide)
  split
  · rename_i hc
    exact readsBack_escape (readEscape_hex hc cs) h
  · rename_i hq hb _ _ _ _ _ hc
    exact readsBack_plain hq hb hc h

theorem readString_quoted (s : List Char) :
    Reads (readString strict (s.flatMap escapeChar ++ '"' :: rest)) (· = .ok s) rest := by
  induction s with
  | nil =>
    rw [List.flatMap_nil, List.nil_append, readString, if_pos rfl]
    exact reads_ok rfl
  | cons c s ih =>
    rw [List.flatMap_cons, List.append_assoc]
    exact readsBack_escapeChar c ih

theorem quote_toList (s : String) :
    (quote s).toList = '"' :: (s.toList.flatMap escapeChar ++ ['"']) := by
  simp [quote]

end

end EndpointCompiler.Json
