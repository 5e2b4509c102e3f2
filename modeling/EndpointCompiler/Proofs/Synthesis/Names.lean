import EndpointCompiler.Handler.Definition
import EndpointCompiler.Synthesis.Operation
import EndpointCompiler.Proofs.Json.Numbers

/-! Generated names are words that are no keywords, and a name is never given twice. -/

namespace EndpointCompiler

open Source

theorem Keyword.text_lower (k : Keyword) : ∀ c ∈ k.text.toList, 'a' ≤ c ∧ c ≤ 'z' := by
  have hall : k.text.toList.all (fun c => decide ('a' ≤ c ∧ c ≤ 'z')) = true := by
    cases k <;> decide
  intro c hc
  simpa using List.all_eq_true.mp hall c hc

/-- A keyword has only small letters. -/
theorem isPropertyName_of_mem {n : String} {c : Char} (hn : isWord n.toList = true)
    (hc : c ∈ n.toList) (hlower : ¬ ('a' ≤ c ∧ c ≤ 'z')) : isPropertyName n = true := by
  have hnone : Keyword.ofText? n = none := by
    cases hk : Keyword.ofText? n with
    | none => rfl
    | some k =>
      have htext : k.text = n := by simpa using List.find?_some hk
      exact absurd (Keyword.text_lower k c (htext ▸ hc)) hlower
  rw [isPropertyName, hn, hnone]
  rfl

theorem isWord_append {n w : List Char} (hn : isWord n = true)
    (hw : ∀ c ∈ w, isIdentContinue c = true) : isWord (n ++ w) = true := by
  cases n with
  | nil => cases hn
  | cons c n =>
    simp only [isWord, Bool.and_eq_true, List.all_eq_true] at hn
    simp only [List.cons_append, isWord, Bool.and_eq_true, List.all_eq_true, List.mem_append]
    exact ⟨hn.1, fun d hd => hd.elim (hn.2 d) (hw d)⟩

theorem isWord_of_isPropertyName {n : String} (hn : isPropertyName n = true) :
    isWord n.toList = true := by
  rw [isPropertyName, Bool.and_eq_true] at hn
  exact hn.1

theorem isIdentContinue_of_isDigit {c : Char} (h : c.isDigit = true) : isIdentContinue c = true := by
  simp [isIdentContinue, Char.isAlphanum, h]

theorem natText_ne_nil (n : Nat) : (natText n).toList ≠ [] := by
  rw [natText_toList]
  split
  · simp
  · rename_i hn
    obtain ⟨d, ds, hd, -⟩ := head?_digitsOf hn
    simp [hd]

theorem isPropertyName_numbered {n : String} (hn : isPropertyName n = true) (k : Nat) :
    isPropertyName (n ++ natText k) = true := by
  obtain ⟨c, cs, hc⟩ := List.exists_cons_of_ne_nil (natText_ne_nil k)
  have hdigit : c.isDigit = true := isDigit_of_mem_natText (n := k) (by simp [hc])
  have hdigits : ∀ d ∈ (natText k).toList, isIdentContinue d = true :=
    fun d hd => isIdentContinue_of_isDigit (isDigit_of_mem_natText hd)
  have hmem : c ∈ (n ++ natText k).toList := by simp [hc]
  refine isPropertyName_of_mem ?_ hmem fun hlower => ?_
  · rw [String.toList_append]
    exact isWord_append (isWord_of_isPropertyName hn) hdigits
  · simp only [Char.isDigit, Bool.and_eq_true, decide_eq_true_eq] at hdigit
    have h₁ : 97 ≤ c.val.toNat := UInt32.le_iff_toNat_le.mp hlower.1
    have h₂ : c.val.toNat ≤ 57 := UInt32.le_iff_toNat_le.mp hdigit.2
    omega

theorem isIdentStart_of_not_isDigit {c : Char} (h : isIdentContinue c = true)
    (hd : c.isDigit = false) : isIdentStart c = true := by
  simpa [isIdentContinue, isIdentStart, Char.isAlphanum, hd] using h

theorem isIdentContinue_replaced (c : Char) :
    isIdentContinue (if isIdentContinue c then c else '_') = true := by
  by_cases h : isIdentContinue c = true
  · rw [if_pos h]
    exact h
  · rw [if_neg h]
    decide

/-- An underscore makes a keyword a name. -/
theorem isPropertyName_apart {w : List Char} (hw : isWord w = true) :
    isPropertyName (if (Keyword.ofText? (String.ofList w)).isSome then String.ofList w ++ "_"
      else String.ofList w) = true := by
  by_cases hk : (Keyword.ofText? (String.ofList w)).isSome = true
  · rw [if_pos hk]
    refine isPropertyName_of_mem (c := '_') ?_ (by simp) (by decide)
    rw [String.toList_append, String.toList_ofList]
    exact isWord_append hw (List.all_eq_true.mp (by decide))
  · rw [if_neg hk, isPropertyName, String.toList_ofList, hw]
    simpa using hk

/-- Every text is made into a word that is no keyword. -/
theorem isPropertyName_sanitizeIdent (raw : String) : isPropertyName (sanitizeIdent raw) = true := by
  have hcs : ∀ c ∈ raw.toList.map (fun c => if isIdentContinue c then c else '_'),
      isIdentContinue c = true := by
    intro c hc
    obtain ⟨d, -, rfl⟩ := List.mem_map.mp hc
    exact isIdentContinue_replaced d
  unfold sanitizeIdent
  dsimp only
  cases hw : raw.toList.map (fun c => if isIdentContinue c then c else '_') with
  | nil => decide
  | cons c cs =>
    rw [hw] at hcs
    refine isPropertyName_apart (w := if c.isDigit then '_' :: c :: cs else c :: cs) ?_
    by_cases hd : c.isDigit = true
    · rw [if_pos hd, isWord, Bool.and_eq_true, List.all_eq_true]
      exact ⟨by decide, hcs⟩
    · rw [if_neg hd, isWord, Bool.and_eq_true, List.all_eq_true]
      exact ⟨isIdentStart_of_not_isDigit (hcs c (by simp)) (Bool.eq_false_iff.mpr hd),
        fun d hd => hcs d (List.mem_cons_of_mem _ hd)⟩

namespace SurrogateSource

theorem mem_padded {width n : Nat} {c : Char} (hc : c ∈ (padded width n).toList) :
    c.isDigit = true := by
  rw [padded, String.toList_append, List.mem_append, String.toList_ofList] at hc
  rcases hc with hc | hc
  · rw [(List.mem_replicate.mp hc).2]
    rfl
  · exact isDigit_of_mem_natText hc

theorem mem_letters {n : Nat} {c : Char} (hc : c ∈ (letters n).toList) :
    isIdentContinue c = true := by
  have halphabet : ∀ i, isIdentContinue (alphabet.getD i '0') = true := by
    intro i
    have hall : ∀ c ∈ alphabet, isIdentContinue c = true := List.all_eq_true.mp (by decide)
    rw [List.getD_eq_getElem?_getD]
    cases hi : alphabet[i]? with
    | none => decide
    | some c => exact hall c (List.mem_of_getElem? hi)
  rw [letters, String.toList_ofList, List.mem_map] at hc
  obtain ⟨k, -, rfl⟩ := hc
  exact halphabet _

theorem mem_next (s : SurrogateSource) {c : Char} (hc : c ∈ s.next.1.toList) :
    isIdentContinue c = true := by
  cases s with
  | random bits => exact mem_letters hc
  | sequential n => exact isIdentContinue_of_isDigit (mem_padded hc)

end SurrogateSource

theorem isPropertyName_surrogate {n id : String} (hn : isWord n.toList = true)
    (hmark : '_' ∈ n.toList) (hid : ∀ c ∈ id.toList, isIdentContinue c = true) :
    isPropertyName (n ++ id) = true := by
  refine isPropertyName_of_mem (c := '_') ?_ (by simp [hmark]) (by decide)
  rw [String.toList_append]
  exact isWord_append hn hid

namespace NameTable

variable {t t' : NameTable} {base name : String}

theorem contains_iff {n : String} : t.contains n = true ↔ n ∈ t.assigned := by
  rw [contains, List.contains_iff_mem]

/-- The forms of a name: as it is, and followed by each of so many numbers from two on. -/
def formsOf (base : String) (count : Nat) : List String :=
  base :: (List.range' 2 count).map fun k => base ++ natText k

theorem mem_formsOf {count : Nat} (h : name ∈ formsOf base count) :
    name = base ∨ ∃ k, name = base ++ natText k := by
  refine (List.mem_cons.mp h).imp_right fun hk => ?_
  obtain ⟨k, -, rfl⟩ := List.mem_map.mp hk
  exact ⟨k, rfl⟩

theorem firstNumbered?_eq (t : NameTable) (base : String) (suffix count : Nat) :
    t.firstNumbered? base suffix count =
      ((List.range' suffix count).map fun k => base ++ natText k).find? (· ∉ t.assigned) := by
  induction count generalizing suffix with
  | zero => rfl
  | succ count ih =>
    rw [firstNumbered?, List.range'_succ, List.map_cons, ih]
    by_cases hc : base ++ natText suffix ∈ t.assigned
    · rw [if_pos (contains_iff.mpr hc), List.find?_cons_of_neg (by simpa using hc)]
    · rw [if_neg (mt contains_iff.mp hc), List.find?_cons_of_pos (by simpa using hc)]

theorem firstFree?_eq (t : NameTable) (base : String) :
    t.firstFree? base = (formsOf base (t.maxSuffix - 1)).find? (· ∉ t.assigned) := by
  rw [firstFree?, formsOf, firstNumbered?_eq]
  by_cases hc : base ∈ t.assigned
  · rw [if_pos (contains_iff.mpr hc), List.find?_cons_of_neg (by simpa using hc)]
  · rw [if_neg (mt contains_iff.mp hc), List.find?_cons_of_pos (by simpa using hc)]

/-- The two ways in which an allocation ends. -/
theorem allocate_cases (t : NameTable) (base : String) :
    (∃ name, (formsOf base (t.maxSuffix - 1)).find? (· ∉ t.assigned) = some name ∧
        t.allocate base = .ok (name, { t with assigned := name :: t.assigned })) ∨
      (formsOf base (t.maxSuffix - 1)).find? (· ∉ t.assigned) = none ∧
        t.allocate base = .error ⟨base, t.maxSuffix⟩ := by
  rw [allocate, firstFree?_eq]
  cases hfind : (formsOf base (t.maxSuffix - 1)).find? (· ∉ t.assigned) with
  | some name => exact .inl ⟨name, rfl, rfl⟩
  | none => exact .inr ⟨rfl, rfl⟩

theorem find?_of_allocate (h : t.allocate base = .ok (name, t')) :
    (formsOf base (t.maxSuffix - 1)).find? (· ∉ t.assigned) = some name ∧
      t'.assigned = name :: t.assigned := by
  rcases allocate_cases t base with ⟨n, hfind, halloc⟩ | ⟨-, halloc⟩
  · rw [halloc] at h
    cases h
    exact ⟨hfind, rfl⟩
  · rw [halloc] at h
    cases h

theorem allocate_ok (h : t.allocate base = .ok (name, t')) (hbase : isPropertyName base = true) :
    isPropertyName name = true ∧ name ∉ t.assigned ∧ t'.assigned = name :: t.assigned := by
  obtain ⟨hfind, hassigned⟩ := find?_of_allocate h
  refine ⟨?_, by simpa using List.find?_some hfind, hassigned⟩
  obtain rfl | ⟨k, rfl⟩ := mem_formsOf (List.mem_of_find?_eq_some hfind)
  · exact hbase
  · exact isPropertyName_numbered hbase k

theorem allocate_begins (h : t.allocate base = .ok (name, t')) : ∃ rest, name = base ++ rest := by
  obtain rfl | ⟨k, rfl⟩ := mem_formsOf (List.mem_of_find?_eq_some (find?_of_allocate h).1)
  · exact ⟨"", String.append_empty.symm⟩
  · exact ⟨natText k, rfl⟩

/-- The first form of a name that is not taken: the name itself, or else the one with the smallest
number from two on. -/
inductive FirstFree (Taken : String → Prop) (base : String) : String → Prop where
  | plain : ¬ Taken base → FirstFree Taken base base
  | numbered (k : Nat) : 2 ≤ k → Taken base → (∀ j, 2 ≤ j → j < k → Taken (base ++ natText j)) →
      ¬ Taken (base ++ natText k) → FirstFree Taken base (base ++ natText k)

theorem FirstFree.congr {Taken Taken' : String → Prop} (hsame : ∀ n, Taken n ↔ Taken' n)
    (h : FirstFree Taken base name) : FirstFree Taken' base name := by
  obtain rfl : Taken = Taken' := funext fun n => propext (hsame n)
  exact h

theorem allocate_firstFree (h : t.allocate base = .ok (name, t')) :
    FirstFree (· ∈ t.assigned) base name := by
  have hfind := (find?_of_allocate h).1
  by_cases hbase : base ∈ t.assigned
  · rw [formsOf, List.find?_cons_of_neg (by simpa using hbase), List.find?_map,
      Option.map_eq_some_iff] at hfind
    obtain ⟨k, hk, rfl⟩ := hfind
    obtain ⟨hfree, hrange, hleast⟩ := List.find?_range'_eq_some.mp hk
    refine .numbered k (List.mem_range'_1.mp hrange).1 hbase (fun j hj hlt => ?_) ?_
    · simpa using hleast j hj hlt
    · simpa using hfree
  · rw [formsOf, List.find?_cons_of_pos (by simpa using hbase)] at hfind
    cases hfind
    exact .plain hbase

end NameTable

end EndpointCompiler
