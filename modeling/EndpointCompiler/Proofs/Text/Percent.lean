import EndpointCompiler.Text.Percent

/-! Percent-encoding, and that it is undone by decoding. -/

namespace EndpointCompiler

namespace Utf8

theorem toNat_cases (c : Char) : c.toNat < 0xD800 ∨ 0xDFFF < c.toNat ∧ c.toNat < 0x110000 :=
  c.valid

theorem encodeChar_lt {c : Char} {b : Nat} (h : b ∈ encodeChar c) : b < 256 := by
  have hc := toNat_cases c
  unfold encodeChar at h
  dsimp only at h
  split at h
  · simp only [List.mem_singleton] at h
    omega
  split at h
  · simp only [List.mem_cons, List.not_mem_nil, or_false] at h
    omega
  split at h
  · simp only [List.mem_cons, List.not_mem_nil, or_false] at h
    omega
  · simp only [List.mem_cons, List.not_mem_nil, or_false] at h
    omega

theorem encode_lt {cs : List Char} {b : Nat} (h : b ∈ encode cs) : b < 256 := by
  obtain ⟨c, -, hb⟩ := List.mem_flatMap.mp h
  exact encodeChar_lt hb

theorem encodeChar_ascii {c : Char} (h : c.toNat < 0x80) : encodeChar c = [c.toNat] := by
  simp [encodeChar, h]

theorem tail_done (low high bits : Nat) (bs : List Nat) :
    tail ⟨low, high, 0, bits⟩ bs = (some bits, bs) := by
  cases bs <;> rfl

theorem tail_step {low high n bits b : Nat} (bs : List Nat) (h : low ≤ b ∧ b ≤ high) :
    tail ⟨low, high, n + 1, bits⟩ (b :: bs) =
      tail ⟨0x80, 0xBF, n, bits * 0x40 + (b - 0x80)⟩ bs := by
  rw [tail, if_pos h]

theorem decodeChars_lead {b : Nat} {bs rest : List Nat} {l : Lead} {c : Char} (hb : ¬ b < 0x80)
    (hl : lead? b = some l) (htail : tail l bs = (some c.toNat, rest)) :
    decodeChars (b :: bs) = some c :: decodeChars rest := by
  rw [decodeChars, if_neg hb, hl]
  simp only [htail, Option.map_some, Char.ofNat_toNat]

/-- The second byte of three is bounded so that no sequence is overlong and none is a surrogate. -/
theorem lead?_three {n : Nat} (hlow : 0x800 ≤ n) (hhigh : n < 0x10000)
    (hn : n < 0xD800 ∨ 0xDFFF < n) :
    ∃ low high, lead? (0xE0 + n / 0x1000) = some ⟨low, high, 2, n / 0x1000⟩ ∧
      low ≤ 0x80 + n / 0x40 % 0x40 ∧ 0x80 + n / 0x40 % 0x40 ≤ high := by
  unfold lead?
  by_cases hE0 : n / 0x1000 = 0
  · refine ⟨0xA0, 0xBF, ?_, by omega, by omega⟩
    simp [hE0]
  by_cases hED : n / 0x1000 = 0xD
  · refine ⟨0x80, 0x9F, ?_, by omega, by omega⟩
    simp [hED]
  · refine ⟨0x80, 0xBF, ?_, by omega, by omega⟩
    rw [if_neg (by omega), if_neg (by omega), if_neg (by omega), if_pos (by omega),
      Nat.add_sub_cancel_left]

/-- The second byte of four is bounded so that no sequence is overlong and none goes past
U+10FFFF. -/
theorem lead?_four {n : Nat} (hlow : 0x10000 ≤ n) (hhigh : n < 0x110000) :
    ∃ low high, lead? (0xF0 + n / 0x40000) = some ⟨low, high, 3, n / 0x40000⟩ ∧
      low ≤ 0x80 + n / 0x1000 % 0x40 ∧ 0x80 + n / 0x1000 % 0x40 ≤ high := by
  unfold lead?
  by_cases hF0 : n / 0x40000 = 0
  · refine ⟨0x90, 0xBF, ?_, by omega, by omega⟩
    simp [hF0]
  by_cases hF4 : n / 0x40000 = 4
  · refine ⟨0x80, 0x8F, ?_, by omega, by omega⟩
    simp [hF4]
  · refine ⟨0x80, 0xBF, ?_, by omega, by omega⟩
    rw [if_neg (by omega), if_neg (by omega), if_neg (by omega), if_neg (by omega),
      if_neg (by omega), if_pos (by omega), Nat.add_sub_cancel_left]

theorem decodeChars_encodeChar (c : Char) (bs : List Nat) :
    decodeChars (encodeChar c ++ bs) = some c :: decodeChars bs := by
  have hc := toNat_cases c
  unfold encodeChar
  generalize hn : c.toNat = n at hc
  dsimp only
  -- The cases are the lengths of a character; in each the bits of its bytes make up the character.
  by_cases h1 : n < 0x80
  · rw [if_pos h1, List.singleton_append, decodeChars, if_pos h1, ← hn, Char.ofNat_toNat]
  rw [if_neg h1]
  by_cases h2 : n < 0x800
  · rw [if_pos h2, List.cons_append, List.singleton_append]
    have hlead : lead? (0xC0 + n / 0x40) = some ⟨0x80, 0xBF, 1, n / 0x40⟩ := by
      rw [lead?, if_pos (by omega), Nat.add_sub_cancel_left]
    refine decodeChars_lead (by omega) hlead ?_
    have hbits : n / 0x40 * 0x40 + (0x80 + n % 0x40 - 0x80) = n := by omega
    rw [tail_step _ (by omega), tail_done, hn, hbits]
  rw [if_neg h2]
  by_cases h3 : n < 0x10000
  · rw [if_pos h3]
    simp only [List.cons_append, List.nil_append]
    obtain ⟨low, high, hlead, hsecond⟩ := lead?_three (by omega) h3 (by omega)
    refine decodeChars_lead (by omega) hlead ?_
    have hbits : (n / 0x1000 * 0x40 + (0x80 + n / 0x40 % 0x40 - 0x80)) * 0x40 +
        (0x80 + n % 0x40 - 0x80) = n := by omega
    rw [tail_step _ hsecond, tail_step _ (by omega), tail_done, hn, hbits]
  · rw [if_neg h3]
    simp only [List.cons_append, List.nil_append]
    obtain ⟨low, high, hlead, hsecond⟩ := lead?_four (n := n) (by omega) (by omega)
    refine decodeChars_lead (by omega) hlead ?_
    have hbits : ((n / 0x40000 * 0x40 + (0x80 + n / 0x1000 % 0x40 - 0x80)) * 0x40 +
        (0x80 + n / 0x40 % 0x40 - 0x80)) * 0x40 + (0x80 + n % 0x40 - 0x80) = n := by omega
    rw [tail_step _ hsecond, tail_step _ (by omega), tail_step _ (by omega), tail_done, hn, hbits]

theorem decodeChars_encode (cs : List Char) : decodeChars (encode cs) = cs.map some := by
  induction cs with
  | nil => rw [encode, List.flatMap_nil, decodeChars, List.map_nil]
  | cons c cs ih =>
    rw [encode, List.flatMap_cons, decodeChars_encodeChar, List.map_cons]
    exact congrArg (some c :: ·) ih

theorem decode?_encode (cs : List Char) : decode? (encode cs) = some cs := by
  rw [decode?, decodeChars_encode]
  induction cs with
  | nil => rfl
  | cons c cs ih => simp [ih]

end Utf8

/-- The bytes of characters that need no escape: letters, digits, `-`, `.`, `_` and `~`. -/
def isUnreserved (b : Nat) : Bool :=
  (48 ≤ b && b ≤ 57) || (65 ≤ b && b ≤ 90) || (97 ≤ b && b ≤ 122) || [45, 46, 95, 126].contains b

def hexDigit (n : Nat) : Char :=
  Char.ofNat (if n < 10 then 48 + n else 55 + n)

def percentEncodeByte (b : Nat) : List Char :=
  if isUnreserved b then [Char.ofNat b] else ['%', hexDigit (b / 16), hexDigit (b % 16)]

def percentEncode (text : String) : String :=
  String.ofList ((Utf8.encode text.toList).flatMap percentEncodeByte)

theorem toNat_unreserved {b : Nat} (h : isUnreserved b = true) :
    b < 0x80 ∧ (Char.ofNat b).toNat = b := by
  have hb : b < 0x80 := by
    simp only [isUnreserved, Bool.or_eq_true, Bool.and_eq_true, decide_eq_true_eq,
      List.contains_eq_mem, List.mem_cons, List.not_mem_nil, or_false] at h
    omega
  have hvalid : b.isValidChar := .inl (by omega)
  refine ⟨hb, ?_⟩
  rw [Char.ofNat, dif_pos hvalid]
  rfl

theorem hexByte?_hexDigit : ∀ n < 16, hexByte? (hexDigit n).toNat = some n := by
  decide +kernel

theorem hexDigit_plain :
    ∀ n < 16, (hexDigit n).toNat < 0x80 ∧ hexDigit n ∉ ['/', '?', '\x7b', '\x7d'] := by
  decide +kernel

/-- Encoded text is ASCII and has no characters that separate or mark parts of a path. -/
theorem percentEncodeByte_plain {b : Nat} (hb : b < 256) {c : Char}
    (hc : c ∈ percentEncodeByte b) : c.toNat < 0x80 ∧ c ∉ ['/', '?', '\x7b', '\x7d'] := by
  unfold percentEncodeByte at hc
  by_cases hplain : isUnreserved b = true
  · obtain ⟨hlt, hchar⟩ := toNat_unreserved hplain
    rw [if_pos hplain, List.mem_singleton] at hc
    subst hc
    refine ⟨by rwa [hchar], fun hmark => ?_⟩
    have hmarks : ['/', '?', '\x7b', '\x7d'].all (fun d => !isUnreserved d.toNat) = true := by
      decide
    have hreserved := List.all_eq_true.mp hmarks _ hmark
    rw [hchar, hplain] at hreserved
    cases hreserved
  · rw [if_neg hplain] at hc
    simp only [List.mem_cons, List.not_mem_nil, or_false] at hc
    rcases hc with rfl | rfl | rfl
    · exact ⟨by decide, by decide⟩
    · exact hexDigit_plain _ (by omega)
    · exact hexDigit_plain _ (by omega)

theorem mem_percentEncode {text : String} {c : Char} (h : c ∈ (percentEncode text).toList) :
    c.toNat < 0x80 ∧ c ∉ ['/', '?', '\x7b', '\x7d'] := by
  rw [percentEncode, String.toList_ofList] at h
  obtain ⟨b, hb, hc⟩ := List.mem_flatMap.mp h
  exact percentEncodeByte_plain (Utf8.encode_lt hb) hc

theorem encode_ascii {cs : List Char} (h : ∀ c ∈ cs, c.toNat < 0x80) :
    Utf8.encode cs = cs.map Char.toNat := by
  induction cs with
  | nil => rfl
  | cons c cs ih =>
    obtain ⟨hc, hcs⟩ := List.forall_mem_cons.mp h
    rw [Utf8.encode, List.flatMap_cons, Utf8.encodeChar_ascii hc, List.map_cons]
    exact congrArg (c.toNat :: ·) (ih hcs)

theorem percentDecode_cons {b : Nat} (h : b ≠ 37) (bs : List Nat) :
    percentDecode (b :: bs) = b :: percentDecode bs := by
  match bs with
  | [] => simp [percentDecode]
  | [_] => simp [percentDecode]
  | _ :: _ :: _ => simp [percentDecode, h]

theorem percentDecode_encodeByte {b : Nat} (h : b < 256) (bs : List Nat) :
    percentDecode ((percentEncodeByte b).map Char.toNat ++ bs) = b :: percentDecode bs := by
  unfold percentEncodeByte
  by_cases hb : isUnreserved b = true
  · have hne : b ≠ 37 := by
      rintro rfl
      exact absurd hb (by decide)
    have hchar := (toNat_unreserved hb).2
    rw [if_pos hb, List.map_singleton, hchar, List.singleton_append, percentDecode_cons hne]
  · have hhigh := hexByte?_hexDigit (b / 16) (by omega)
    have hlow := hexByte?_hexDigit (b % 16) (by omega)
    have hescape : '%'.toNat = 37 := rfl
    rw [if_neg hb]
    simp only [List.map_cons, List.map_nil, List.cons_append, List.nil_append, hescape,
      percentDecode, hhigh, hlow]
    rw [Nat.div_add_mod]

theorem percentDecode_encodeBytes {bs : List Nat} (h : ∀ b ∈ bs, b < 256) :
    percentDecode ((bs.flatMap percentEncodeByte).map Char.toNat) = bs := by
  induction bs with
  | nil => rfl
  | cons b bs ih =>
    obtain ⟨hb, hbs⟩ := List.forall_mem_cons.mp h
    rw [List.flatMap_cons, List.map_append, percentDecode_encodeByte hb, ih hbs]

@[simp] theorem decodeSegment_percentEncode (text : String) :
    decodeSegment (percentEncode text) = text := by
  have hascii : ∀ c ∈ (percentEncode text).toList, c.toNat < 0x80 :=
    fun c hc => (mem_percentEncode hc).1
  have hbytes : percentDecode (Utf8.encode (percentEncode text).toList) =
      Utf8.encode text.toList := by
    rw [encode_ascii hascii, percentEncode, String.toList_ofList]
    exact percentDecode_encodeBytes fun b hb => Utf8.encode_lt hb
  rw [decodeSegment, hbytes, Utf8.decode?_encode]
  simp

theorem percentEncode_ne_empty {text : String} (h : text ≠ "") : percentEncode text ≠ "" := by
  intro hempty
  have hdecoded := decodeSegment_percentEncode text
  have hnone : decodeSegment "" = "" := by decide +kernel
  rw [hempty, hnone] at hdecoded
  exact h hdecoded.symm

end EndpointCompiler
