import EndpointCompiler.Document.Basic
import EndpointCompiler.Proofs.Text.Parsed
import Mathlib.Algebra.GroupWithZero.Nat
import Mathlib.Algebra.Group.Int.Defs

/-! Natural numbers in JSON: what is read where one is written. A number of more than 64 bits is read
as a float, or cannot be read. -/

namespace EndpointCompiler

open Shortest

theorem digitsOf_lt_ten {n d : Nat} (h : d ∈ digitsOf n) : d < 10 := by
  induction n using Nat.strongRecOn with
  | ind n ih =>
    rw [digitsOf] at h
    split at h
    · cases h
    · rename_i hn
      rcases List.mem_append.mp h with h | h
      · exact ih (n / 10) (by omega) h
      · rw [List.mem_singleton.mp h]
        omega

theorem foldl_digitsOf (n : Nat) : (digitsOf n).foldl (fun m d => 10 * m + d) 0 = n := by
  induction n using Nat.strongRecOn with
  | ind n ih =>
    rw [digitsOf]
    split
    · rename_i hn
      exact hn.symm
    · rename_i hn
      rw [List.foldl_append, ih (n / 10) (by omega), List.foldl_cons, List.foldl_nil]
      omega

/-- Digits begin with one that is not zero. -/
theorem head?_digitsOf {n : Nat} (hn : n ≠ 0) : ∃ d ds, digitsOf n = d :: ds ∧ d ≠ 0 := by
  induction n using Nat.strongRecOn with
  | ind n ih =>
    rw [digitsOf, if_neg hn]
    by_cases h : n / 10 = 0
    · refine ⟨n % 10, [], by rw [h, digitsOf, if_pos rfl, List.nil_append], by omega⟩
    · obtain ⟨d, ds, hd, hne⟩ := ih (n / 10) (by omega) h
      exact ⟨d, ds ++ [n % 10], by rw [hd, List.cons_append], hne⟩

theorem isDigit_digitChar : ∀ {d : Nat}, d < 10 → (digitChar d).isDigit = true := by decide

theorem digitValue_digitChar : ∀ {d : Nat}, d < 10 → digitValue (digitChar d) = d := by decide

theorem digitChar_ne_zero : ∀ {d : Nat}, d < 10 → d ≠ 0 → digitChar d ≠ '0' := by decide

theorem natText_toList (n : Nat) :
    (natText n).toList = if n = 0 then ['0'] else (digitsOf n).map digitChar := by
  unfold natText digitsText
  split <;> simp

theorem isDigit_of_mem_natText {n : Nat} {c : Char} (h : c ∈ (natText n).toList) :
    c.isDigit = true := by
  rw [natText_toList] at h
  split at h
  · rw [List.mem_singleton.mp h]
    rfl
  · obtain ⟨d, hd, rfl⟩ := List.mem_map.mp h
    exact isDigit_digitChar (digitsOf_lt_ten hd)

theorem foldl_digitChar {ds : List Nat} (h : ∀ d ∈ ds, d < 10) (n : Nat) :
    (ds.map digitChar).foldl (fun n c => 10 * n + digitValue c) n =
      ds.foldl (fun n d => 10 * n + d) n := by
  induction ds generalizing n with
  | nil => rfl
  | cons d ds ih =>
    rw [List.map_cons, List.foldl_cons, List.foldl_cons, digitValue_digitChar (h d (by simp)),
      ih fun e he => h e (by simp [he])]

theorem digitsValue_natText (n : Nat) : digitsValue (natText n).toList = n := by
  rw [natText_toList, digitsValue]
  split
  · rename_i h
    rw [h]
    rfl
  · rw [foldl_digitChar (fun d hd => digitsOf_lt_ten hd), foldl_digitsOf]

theorem natText_inj {n k : Nat} (h : natText n = natText k) : n = k := by
  have hvalue : digitsValue (natText n).toList = digitsValue (natText k).toList := by rw [h]
  rwa [digitsValue_natText, digitsValue_natText] at hvalue

namespace Json

/-- What may follow a number: nothing that would go on with it. -/
def EndsNumber (rest : List Char) : Prop :=
  ∀ c, rest.head? = some c → c.isDigit = false ∧ c ≠ '.' ∧ c ≠ 'e' ∧ c ≠ 'E'

theorem takeWhile_isDigit_append {ds rest : List Char} (hd : ∀ c ∈ ds, c.isDigit = true)
    (hr : EndsNumber rest) :
    (ds ++ rest).takeWhile Char.isDigit = ds ∧ (ds ++ rest).dropWhile Char.isDigit = rest := by
  have hrest : rest.takeWhile Char.isDigit = [] ∧ rest.dropWhile Char.isDigit = rest := by
    cases rest with
    | nil => exact ⟨rfl, rfl⟩
    | cons c rest => simp [(hr c rfl).1]
  rw [List.takeWhile_append_of_pos hd, List.dropWhile_append_of_pos hd, hrest.1, hrest.2,
    List.append_nil]
  exact ⟨rfl, rfl⟩

theorem readWhole_zero {rest : List Char} (hr : EndsNumber rest) :
    Reads (readWhole ('0' :: rest)) (· = ['0']) rest := by
  have hz : (rest.head?.any Char.isDigit) = false := by
    cases rest with
    | nil => rfl
    | cons c rest => simpa using (hr c rfl).1
  rw [readWhole, if_pos rfl, hz]
  exact reads_ok rfl

theorem readWhole_digits {c : Char} {cs rest : List Char} (hc : c ≠ '0') (hd : c.isDigit = true)
    (hds : ∀ c ∈ cs, c.isDigit = true) (hr : EndsNumber rest) :
    Reads (readWhole (c :: (cs ++ rest))) (· = c :: cs) rest := by
  have hrest := takeWhile_isDigit_append hds hr
  rw [readWhole, if_neg hc, if_pos hd]
  exact ⟨_, rfl, congrArg (c :: ·) hrest.1, hrest.2⟩

theorem readWhole_natText (n : Nat) {rest : List Char} (hr : EndsNumber rest) :
    Reads (readWhole ((natText n).toList ++ rest)) (· = (natText n).toList) rest := by
  have hd := fun c hc => @isDigit_of_mem_natText n c hc
  rw [natText_toList] at hd ⊢
  by_cases hn : n = 0
  · rw [if_pos hn]
    exact readWhole_zero hr
  · obtain ⟨d, ds, hds, hne⟩ := head?_digitsOf hn
    have hlt : d < 10 := digitsOf_lt_ten (hds ▸ List.mem_cons_self)
    rw [if_neg hn, hds] at hd ⊢
    exact readWhole_digits (digitChar_ne_zero hlt hne) (isDigit_digitChar hlt)
      (fun c hc => hd c (List.mem_cons_of_mem _ hc)) hr

theorem readFraction_none {rest : List Char} (hr : EndsNumber rest) :
    Reads (readFraction rest) (· = none) rest := by
  unfold readFraction
  split
  · exact absurd rfl (hr '.' rfl).2.1
  · exact reads_ok rfl

theorem readExponent_none {rest : List Char} (hr : EndsNumber rest) :
    Reads (readExponent rest) (· = none) rest := by
  unfold readExponent
  split
  · exact reads_ok rfl
  · rename_i c rest
    have hc := hr c rfl
    rw [if_neg (by simp [hc.2.2])]
    exact reads_ok rfl

theorem le_foldl_digits (n : Nat) (ds : List Char) :
    n ≤ ds.foldl (fun n c => 10 * n + digitValue c) n := by
  induction ds generalizing n with
  | nil => exact Nat.le_refl n
  | cons d ds ih =>
    have hn : n ≤ 10 * n + digitValue d := by omega
    exact Nat.le_trans hn (ih _)

/-- All digits are taken in if their number has at most 64 bits. -/
theorem appendDigits_of_lt {m : Nat} {ds : List Char}
    (h : ds.foldl (fun n c => 10 * n + digitValue c) m < 2 ^ 64) :
    appendDigits m ds = (ds.foldl (fun n c => 10 * n + digitValue c) m, ds.length) := by
  induction ds generalizing m with
  | nil => rfl
  | cons d ds ih =>
    have hd : 10 * m + digitValue d < Nat.pow 2 64 := Nat.lt_of_le_of_lt (le_foldl_digits _ ds) h
    rw [appendDigits, if_pos hd, ih h]
    rfl

theorem appendDigits_of_le {m : Nat} {ds : List Char} (hm : m < 2 ^ 64)
    (h : 2 ^ 64 ≤ ds.foldl (fun n c => 10 * n + digitValue c) m) :
    (appendDigits m ds).2 < ds.length := by
  induction ds generalizing m with
  | nil => exact absurd hm (Nat.not_lt.mpr h)
  | cons d ds ih =>
    rw [appendDigits]
    split
    · rename_i hd
      have := ih hd h
      simp only [List.length_cons]
      omega
    · simp

end Json

/-- What the text of a natural number is read as. -/
def Document.ofNatText (n : Nat) : Document :=
  match Json.NumberParts.value false ⟨(natText n).toList, none, none⟩ with
  | .ok x => ofNumber x
  | .error _ => .unreadable

namespace Json

theorem value_of_lt {ds : List Char} (h : digitsValue ds < 2 ^ 64) :
    NumberParts.value false ⟨ds, none, none⟩ = .ok (.int (digitsValue ds)) := by
  have ha := appendDigits_of_lt (m := 0) h
  simp only [NumberParts.value, ha]
  simp [digitsValue]

theorem value_of_le {ds : List Char} (h : 2 ^ 64 ≤ digitsValue ds) :
    (∃ x, NumberParts.value false ⟨ds, none, none⟩ = .ok (.float x)) ∨
      ∃ k, NumberParts.value false ⟨ds, none, none⟩ = .error k := by
  have ha := appendDigits_of_le (m := 0) (by decide) h
  unfold NumberParts.value
  dsimp only
  rw [if_neg fun hc => Nat.ne_of_lt ha hc.1]
  split
  · split
    · exact .inr ⟨_, rfl⟩
    · exact .inl ⟨_, rfl⟩
  · split
    · exact .inl ⟨_, rfl⟩
    · exact .inr ⟨_, rfl⟩

theorem readNumber_natText (n : Nat) {rest : List Char} (hr : EndsNumber rest) :
    Reads (Document.target.readNumber false ((natText n).toList ++ rest))
      (· = Document.ofNatText n) rest := by
  have hread : Reads (readNumber false ((natText n).toList ++ rest))
      (fun v => ∃ k : Nat → Fault,
        v = (NumberParts.value false ⟨(natText n).toList, none, none⟩).mapError k) rest := by
    refine (readWhole_natText n hr).bind ?_
    rintro _ hs rfl
    refine (readFraction_none hr).bind ?_
    rintro _ hs' rfl
    refine (readExponent_none hr).bind ?_
    rintro _ hs'' rfl
    exact ⟨_, rfl, ⟨_, rfl⟩, rfl⟩
  refine hread.bind ?_
  rintro _ hs ⟨k, rfl⟩
  unfold Document.ofNatText
  cases NumberParts.value false ⟨(natText n).toList, none, none⟩ with
  | ok x => exact reads_ok rfl
  | error e => exact reads_ok rfl

end Json

namespace Document

theorem ofNatText_of_lt {n : Nat} (hn : n < 2 ^ 64) : ofNatText n = .integer n := by
  rw [ofNatText, Json.value_of_lt (by rwa [digitsValue_natText]), digitsValue_natText]
  rfl

/-- A larger number is none that is asked for. -/
theorem asNatural_ofNatText_of_le {n : Nat} (hn : 2 ^ 64 ≤ n) (bits : Nat) :
    asNatural bits (ofNatText n) = .error (.unexpected "number") := by
  have hlarge : 2 ^ 64 ≤ digitsValue (natText n).toList := by rwa [digitsValue_natText]
  rw [ofNatText]
  rcases Json.value_of_le hlarge with ⟨x, hx⟩ | ⟨e, he⟩
  · rw [hx]
    rfl
  · rw [he]
    rfl

theorem asNatural_integer {n bits : Nat} (hn : n < 2 ^ bits) :
    asNatural bits (.integer n) = .ok n := by
  have h : (0 : Int) ≤ n ∧ (n : Int) < Nat.pow 2 bits := ⟨Int.natCast_nonneg n, Int.ofNat_lt.mpr hn⟩
  simp only [asNatural, untagged]
  exact (if_pos h).trans rfl

end Document

end EndpointCompiler
