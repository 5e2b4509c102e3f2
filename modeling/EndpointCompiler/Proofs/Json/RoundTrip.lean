import EndpointCompiler.Proofs.Json.Numbers
import EndpointCompiler.Proofs.Json.Strings

/-! The document that is read from the text of a JSON value, compact or spread over lines, is that of
the value. Lists and objects are read alike, as elements with commas between them. -/

namespace EndpointCompiler

namespace Json

mutual

/-- All numbers in a value are natural numbers. -/
def Natural : Json → Prop
  | .null | .bool _ | .string _ => True
  | .number (.int (.ofNat _)) => True
  | .number _ => False
  | .array items => NaturalItems items
  | .object fields => NaturalFields fields

def NaturalItems : List Json → Prop
  | [] => True
  | v :: items => v.Natural ∧ NaturalItems items

def NaturalFields : List (String × Json) → Prop
  | [] => True
  | (_, v) :: fields => v.Natural ∧ NaturalFields fields

end

theorem naturalItems_iff {items : List Json} : NaturalItems items ↔ ∀ v ∈ items, v.Natural := by
  induction items with
  | nil => simp [NaturalItems]
  | cons v items ih => simp [NaturalItems, ih]

theorem naturalFields_iff {fields : List (String × Json)} :
    NaturalFields fields ↔ ∀ f ∈ fields, f.2.Natural := by
  induction fields with
  | nil => simp [NaturalFields]
  | cons f fields ih => simp [NaturalFields, ih]

mutual

/-- How many lists and objects stand around each other in a value. -/
def nesting : Json → Nat
  | .null | .bool _ | .string _ | .number _ => 0
  | .array items => nestingItems items + 1
  | .object fields => nestingFields fields + 1

def nestingItems : List Json → Nat
  | [] => 0
  | v :: items => max v.nesting (nestingItems items)

def nestingFields : List (String × Json) → Nat
  | [] => 0
  | (_, v) :: fields => max v.nesting (nestingFields fields)

end

theorem nestingItems_le_iff {items : List Json} {n : Nat} :
    nestingItems items ≤ n ↔ ∀ v ∈ items, v.nesting ≤ n := by
  induction items with
  | nil => simp [nestingItems]
  | cons v items ih => rw [nestingItems, Nat.max_le, ih, List.forall_mem_cons]

theorem nestingFields_le_iff {fields : List (String × Json)} {n : Nat} :
    nestingFields fields ≤ n ↔ ∀ f ∈ fields, f.2.nesting ≤ n := by
  induction fields with
  | nil => simp [nestingFields]
  | cons f fields ih => rw [nestingFields, Nat.max_le, ih, List.forall_mem_cons]

theorem sizeOf_lt_array {items : List Json} {v : Json} (h : v ∈ items) :
    sizeOf v < sizeOf (array items) := by
  have hlt := List.sizeOf_lt_of_mem h
  simp only [array.sizeOf_spec]
  omega

theorem sizeOf_lt_object {fields : List (String × Json)} {f : String × Json} (h : f ∈ fields) :
    sizeOf f.2 < sizeOf (object fields) := by
  have hlt := List.sizeOf_lt_of_mem h
  have hsnd : sizeOf f.2 < sizeOf f := by
    cases f
    simp +arith
  simp only [object.sizeOf_spec]
  omega

/-- Nothing but blanks stands before members and brackets and after colons. -/
structure Layout.Blank (l : Layout) : Prop where
  lead : ∀ depth, ∀ c ∈ (l.lead depth).toList, isBlank c = true
  colon : ∃ blanks, l.colon.toList = ':' :: blanks ∧ ∀ c ∈ blanks, isBlank c = true

theorem Layout.compact_blank : Layout.compact.Blank where
  lead := fun depth c hc => by simp [Layout.compact] at hc
  colon := ⟨[], rfl, by simp⟩

theorem Layout.pretty_blank : Layout.pretty.Blank where
  lead := fun depth c hc => by
    simp only [Layout.pretty, String.toList_append, String.toList_ofList, List.mem_append,
      List.mem_replicate] at hc
    rcases hc with hc | ⟨-, rfl⟩
    · rw [List.mem_singleton.mp hc]
      rfl
    · rfl
  colon := ⟨[' '], rfl, by simp [isBlank]⟩

end Json

namespace Document

mutual

/-- The document that the text of a value writes. -/
def written : Json → Document
  | .null => .null
  | .bool b => .bool b
  | .number (.int (.ofNat n)) => ofNatText n
  | .number n => ofNumber n
  | .string s => .text s
  | .array items => .list true (writtenItems items)
  | .object fields => .map (writtenFields fields)

def writtenItems : List Json → List Document
  | [] => []
  | v :: items => written v :: writtenItems items

def writtenFields : List (String × Json) → List (Document × Document)
  | [] => []
  | (n, v) :: fields => (.text n, written v) :: writtenFields fields

end

theorem writtenItems_eq (items : List Json) : writtenItems items = items.map written := by
  induction items with
  | nil => rfl
  | cons v items ih => rw [writtenItems, List.map_cons, ih]

theorem writtenFields_eq (fields : List (String × Json)) :
    writtenFields fields = fields.map fun f => (.text f.1, written f.2) := by
  induction fields with
  | nil => rfl
  | cons f fields ih => rw [writtenFields, List.map_cons, ih]

end Document

namespace Json

section

variable {κ α : Type} {t : Target κ α} {P : α → Prop} {n : Nat} {c : Char}
  {cs bs rest after : List Char}

theorem skipBlanks_append (hb : ∀ c ∈ bs, isBlank c = true) :
    skipBlanks (bs ++ cs) = skipBlanks cs :=
  List.dropWhile_append_of_pos hb

theorem skipBlanks_of_not (h : isBlank c = false) : skipBlanks (c :: cs) = c :: cs := by
  simp [skipBlanks, h]

theorem readValue_string (h : skipBlanks cs = '"' :: rest) (hr : Reads (t.readString rest) P after) :
    Reads (readValue t n cs) P after := by
  rw [readValue]
  split
  · rename_i hn
    simp [h] at hn
  · rename_i hc
    obtain ⟨rfl, rfl⟩ := List.cons.inj (hc.symm.trans h)
    rw [if_pos rfl]
    exact hr.bind fun a hs ha => reads_ok ha

theorem readValue_array {Q : List α → Prop} (h : skipBlanks cs = '[' :: rest)
    (hr : Reads (readElements .list (readValue t n) rest) Q after) (hQ : ∀ items, Q items → P (t.array items)) :
    Reads (readValue t (n + 1) cs) P after := by
  rw [readValue]
  split
  · rename_i hn
    simp [h] at hn
  · rename_i hc
    obtain ⟨rfl, rfl⟩ := List.cons.inj (hc.symm.trans h)
    rw [if_neg (by decide), if_pos rfl]
    exact hr.bind fun a hs ha => reads_ok (hQ a ha)

theorem readValue_object {Q : List (κ × α) → Prop} (h : skipBlanks cs = '\x7b' :: rest)
    (hr : Reads (readElements .object (readField t (readValue t n)) rest) Q after)
    (hQ : ∀ fields, Q fields → P (t.object fields)) : Reads (readValue t (n + 1) cs) P after := by
  rw [readValue]
  split
  · rename_i hn
    simp [h] at hn
  · rename_i hc
    obtain ⟨rfl, rfl⟩ := List.cons.inj (hc.symm.trans h)
    rw [if_neg (by decide), if_neg (by decide), if_pos rfl]
    exact hr.bind fun a hs ha => reads_ok (hQ a ha)

theorem readValue_digit (h : skipBlanks cs = c :: rest) (hd : c.isDigit = true)
    (hr : Reads (t.readNumber false (c :: rest)) P after) : Reads (readValue t n cs) P after := by
  have hne : ∀ d : Char, d.isDigit = false → c ≠ d := by
    rintro d hd' rfl
    simp [hd] at hd'
  rw [readValue]
  split
  · rename_i hn
    simp [h] at hn
  · rename_i hc
    obtain ⟨rfl, rfl⟩ := List.cons.inj (hc.symm.trans h)
    rw [if_neg (hne '"' rfl), if_neg (hne '[' rfl), if_neg (hne '\x7b' rfl), if_neg (hne '-' rfl),
      if_pos hd]
    exact hr.bind fun a hs ha => reads_ok ha

theorem readWord_append {β : Type} (word : List Char) (value : β) (cs : List Char) :
    Reads (readWord word value (word ++ cs)) (· = value) cs := by
  induction word with
  | nil => exact reads_ok rfl
  | cons w word ih =>
    rw [List.cons_append, readWord, if_pos rfl]
    exact ih.weaken _

theorem readValue_null (h : skipBlanks cs = 'n' :: 'u' :: 'l' :: 'l' :: rest) :
    Reads (readValue t n cs) (· = t.null) rest := by
  rw [readValue]
  split
  · rename_i hn
    simp [h] at hn
  · rename_i hc
    obtain ⟨rfl, rfl⟩ := List.cons.inj (hc.symm.trans h)
    exact (readWord_append ['u', 'l', 'l'] _ rest).weaken _

theorem readValue_true (h : skipBlanks cs = 't' :: 'r' :: 'u' :: 'e' :: rest) :
    Reads (readValue t n cs) (· = t.bool true) rest := by
  rw [readValue]
  split
  · rename_i hn
    simp [h] at hn
  · rename_i hc
    obtain ⟨rfl, rfl⟩ := List.cons.inj (hc.symm.trans h)
    exact (readWord_append ['r', 'u', 'e'] _ rest).weaken _

theorem readValue_false (h : skipBlanks cs = 'f' :: 'a' :: 'l' :: 's' :: 'e' :: rest) :
    Reads (readValue t n cs) (· = t.bool false) rest := by
  rw [readValue]
  split
  · rename_i hn
    simp [h] at hn
  · rename_i hc
    obtain ⟨rfl, rfl⟩ := List.cons.inj (hc.symm.trans h)
    exact (readWord_append ['a', 'l', 's', 'e'] _ rest).weaken _

theorem readField_reads {value : ValueReader α} {k : κ} {a : α} {named colon : List Char}
    (hk : Reads (t.readName rest) (· = k) named) (hn : skipBlanks named = ':' :: colon)
    (hv : Reads (value colon) (· = a) after) :
    Reads (readField t value ('"' :: rest)) (· = (k, a)) after := by
  rw [readField, if_neg (by decide)]
  refine hk.bind ?_
  rintro _ hs rfl
  dsimp only
  split
  · rename_i h
    simp [hn] at h
  · rename_i h
    obtain ⟨rfl, rfl⟩ := List.cons.inj (h.symm.trans hn)
    rw [if_pos rfl]
    refine hv.bind ?_
    rintro _ hs' rfl
    exact reads_ok rfl

section

variable {γ : Type} {closing : Closing} {element : ValueReader α} {value : γ → α}
  {text : γ → List Char} {lead outer : List Char} {Q : List α → Prop}

theorem readMore_end (h : skipBlanks cs = closing.bracket :: rest) :
    Reads (readMore closing element cs) (· = []) rest := by
  rw [readMore]
  split
  · rename_i hn
    simp [h] at hn
  · rename_i hc
    obtain ⟨rfl, rfl⟩ := List.cons.inj (hc.symm.trans h)
    rw [if_pos rfl]
    exact reads_ok rfl

theorem readMore_comma (a : α) (h : skipBlanks cs = ',' :: rest) (hbracket : closing.bracket ≠ ',')
    (hs : skipBlanks rest = c :: bs) (hc : c ≠ closing.bracket)
    (he : Reads (element (c :: bs)) (· = a) after) {last : List Char}
    (hm : Reads (readMore closing element after) Q last) :
    Reads (readMore closing element cs) (fun as => ∃ more, Q more ∧ as = a :: more) last := by
  rw [readMore]
  split
  · rename_i hn
    simp [h] at hn
  · rename_i hcs
    obtain ⟨rfl, rfl⟩ := List.cons.inj (hcs.symm.trans h)
    rw [if_neg hbracket.symm, if_pos rfl]
    split
    · rename_i hn
      simp [hs] at hn
    · rename_i hn
      obtain ⟨rfl, rfl⟩ := List.cons.inj (hn.symm.trans hs)
      rw [if_neg hc]
      refine he.bind ?_
      rintro _ hs' rfl
      exact hm.bind fun more hs'' hq => reads_ok ⟨more, hq, rfl⟩

theorem readElements_nil (h : skipBlanks cs = closing.bracket :: rest) :
    Reads (readElements closing element cs) (· = []) rest := by
  rw [readElements]
  split
  · rename_i hn
    simp [h] at hn
  · rename_i hc
    obtain ⟨rfl, rfl⟩ := List.cons.inj (hc.symm.trans h)
    rw [if_pos rfl]
    exact reads_ok rfl

theorem readElements_cons (a : α) (h : skipBlanks cs = c :: rest) (hc : c ≠ closing.bracket)
    (he : Reads (element (c :: rest)) (· = a) after) {last : List Char}
    (hm : Reads (readMore closing element after) Q last) :
    Reads (readElements closing element cs) (fun as => ∃ more, Q more ∧ as = a :: more) last := by
  rw [readElements]
  split
  · rename_i hn
    simp [h] at hn
  · rename_i hcs
    obtain ⟨rfl, rfl⟩ := List.cons.inj (hcs.symm.trans h)
    rw [if_neg hc]
    refine he.bind ?_
    rintro _ hs' rfl
    exact hm.bind fun more hs'' hq => reads_ok ⟨more, hq, rfl⟩

/-- The elements that follow a first one, each after a comma. -/
def separated (lead : List Char) (text : γ → List Char) (xs : List γ) : List Char :=
  xs.flatMap fun x => ',' :: (lead ++ text x)

/-- The text of an element is read as its value, if what follows does not go on with a number. -/
def ReadsElement (closing : Closing) (element : ValueReader α) (lead : List Char)
    (text : γ → List Char) (value : γ → α) (x : γ) : Prop :=
  ∀ rest, EndsNumber rest → ∃ c cs, c ≠ closing.bracket ∧
    skipBlanks (lead ++ (text x ++ rest)) = c :: cs ∧ Reads (element (c :: cs)) (· = value x) rest

theorem endsNumber_comma : EndsNumber (',' :: rest) := by
  rintro c ⟨⟩
  exact ⟨rfl, by decide, by decide, by decide⟩

theorem endsNumber_separated (xs : List γ) (h : EndsNumber rest) :
    EndsNumber (separated lead text xs ++ rest) := by
  cases xs with
  | nil => exact h
  | cons x xs => exact endsNumber_comma

/-- Elements are read one after the other, up to a bracket that ends numbers like a comma does. -/
theorem readMore_separated (hbracket : closing.bracket ≠ ',')
    (hclose : skipBlanks (outer ++ closing.bracket :: rest) = closing.bracket :: rest)
    (hends : EndsNumber (outer ++ closing.bracket :: rest)) (xs : List γ)
    (hxs : ∀ x ∈ xs, ReadsElement closing element lead text value x) :
    Reads (readMore closing element
      (separated lead text xs ++ (outer ++ closing.bracket :: rest))) (· = xs.map value) rest := by
  induction xs with
  | nil => exact readMore_end hclose
  | cons x xs ih =>
    rw [List.forall_mem_cons] at hxs
    obtain ⟨c, cs, hc, hs, hread⟩ := hxs.1 _ (endsNumber_separated xs hends)
    have htext : separated lead text (x :: xs) ++ (outer ++ closing.bracket :: rest) =
        ',' :: (lead ++ (text x ++
          (separated lead text xs ++ (outer ++ closing.bracket :: rest)))) := by
      simp [separated]
    rw [htext]
    refine (readMore_comma _ (skipBlanks_of_not rfl) hbracket hs hc hread (ih hxs.2)).imp ?_
    rintro _ ⟨_, rfl, rfl⟩
    rfl

theorem readElements_separated (hbracket : closing.bracket ≠ ',')
    (hclose : skipBlanks (outer ++ closing.bracket :: rest) = closing.bracket :: rest)
    (hends : EndsNumber (outer ++ closing.bracket :: rest)) (x : γ) (xs : List γ)
    (hxs : ∀ y ∈ x :: xs, ReadsElement closing element lead text value y) :
    Reads (readElements closing element (lead ++ (text x ++
      (separated lead text xs ++ (outer ++ closing.bracket :: rest)))))
      (· = (x :: xs).map value) rest := by
  rw [List.forall_mem_cons] at hxs
  obtain ⟨c, cs, hc, hs, hread⟩ := hxs.1 _ (endsNumber_separated xs hends)
  have hmore := readMore_separated hbracket hclose hends xs hxs.2
  refine (readElements_cons _ hs hc hread hmore).imp ?_
  rintro _ ⟨_, rfl, rfl⟩
  rfl

end

end

section

variable {l : Layout} {n depth : Nat} {cs rest : List Char}

theorem readString_document (s : String) (rest : List Char) :
    Reads (Document.target.readString (s.toList.flatMap escapeChar ++ '"' :: rest))
      (· = .text s) rest := by
  refine (readString_quoted s.toList).bind ?_
  rintro _ hs rfl
  exact reads_ok (congrArg Document.text String.ofList_toList)

theorem readName_document (s : String) (rest : List Char) :
    Reads (Document.target.readName (s.toList.flatMap escapeChar ++ '"' :: rest))
      (· = .text s) rest := by
  refine (readString_quoted s.toList).bind ?_
  rintro _ hs rfl
  exact reads_ok (congrArg Document.text String.ofList_toList)

theorem natText_head (n : Nat) :
    ∃ c cs, (natText n).toList = c :: cs ∧ c.isDigit = true := by
  obtain ⟨c, cs, h⟩ : ∃ c cs, (natText n).toList = c :: cs := by
    rw [natText_toList]
    split
    · exact ⟨_, _, rfl⟩
    · rename_i hn
      obtain ⟨d, ds, hds, -⟩ := head?_digitsOf hn
      exact ⟨_, _, by rw [hds, List.map_cons]⟩
  exact ⟨c, cs, h, isDigit_of_mem_natText (n := n) (h ▸ List.mem_cons_self)⟩

theorem isBlank_of_isDigit {c : Char} (h : c.isDigit = true) : isBlank c = false := by
  cases hb : isBlank c with
  | false => rfl
  | true =>
    simp only [isBlank, Bool.or_eq_true, beq_iff_eq] at hb
    rcases hb with ((rfl | rfl) | rfl) | rfl <;> cases h

/-- A member, from the quote that opens its name. -/
def memberText (l : Layout) (depth : Nat) (f : String × Json) : List Char :=
  '"' :: (f.1.toList.flatMap escapeChar ++
    '"' :: (l.colon.toList ++ (f.2.textAt l depth).toList))

attribute [local simp] textAt itemsText fieldsText

theorem itemsText_toList (l : Layout) (depth : Nat) (items : List Json) :
    (itemsText l depth items).toList =
      separated (l.lead depth).toList (fun v => (v.textAt l depth).toList) items := by
  induction items with
  | nil => simp [separated]
  | cons v items ih =>
    simp only [itemsText, separated, List.flatMap_cons, String.toList_append] at ih ⊢
    rw [ih]
    simp

theorem fieldsText_toList (l : Layout) (depth : Nat) (fields : List (String × Json)) :
    (fieldsText l depth fields).toList =
      separated (l.lead depth).toList (memberText l depth) fields := by
  induction fields with
  | nil => simp [separated]
  | cons f fields ih =>
    simp only [fieldsText, separated, List.flatMap_cons, String.toList_append] at ih ⊢
    rw [ih]
    simp [memberText, quote_toList]

theorem array_toList (v : Json) (items : List Json) :
    (textAt l depth (.array (v :: items))).toList =
      '[' :: ((l.lead (depth + 1)).toList ++ ((v.textAt l (depth + 1)).toList ++
        (separated (l.lead (depth + 1)).toList (fun v => (v.textAt l (depth + 1)).toList) items ++
          ((l.lead depth).toList ++ [']'])))) := by
  simp [itemsText_toList]

theorem object_toList (f : String × Json) (fields : List (String × Json)) :
    (textAt l depth (.object (f :: fields))).toList =
      '\x7b' :: ((l.lead (depth + 1)).toList ++ (memberText l (depth + 1) f ++
        (separated (l.lead (depth + 1)).toList (memberText l (depth + 1)) fields ++
          ((l.lead depth).toList ++ ['\x7d'])))) := by
  simp [memberText, quote_toList, fieldsText_toList]

theorem null_toList : (textAt l depth .null).toList = ['n', 'u', 'l', 'l'] := by
  simp

theorem true_toList : (textAt l depth (.bool true)).toList = ['t', 'r', 'u', 'e'] := by
  simp

theorem false_toList : (textAt l depth (.bool false)).toList = ['f', 'a', 'l', 's', 'e'] := by
  simp

theorem emptyArray_toList : (textAt l depth (.array [])).toList = ['[', ']'] := by
  simp

theorem emptyObject_toList : (textAt l depth (.object [])).toList = ['\x7b', '\x7d'] := by
  simp

/-- The first character of a value is no blank, and does not end a list. -/
theorem textAt_head {v : Json} (hv : v.Natural) (l : Layout) (depth : Nat) :
    ∃ c cs, (v.textAt l depth).toList = c :: cs ∧ isBlank c = false ∧ c ≠ ']' := by
  match v with
  | .null => exact ⟨'n', _, null_toList, rfl, by decide⟩
  | .bool true => exact ⟨'t', _, true_toList, rfl, by decide⟩
  | .bool false => exact ⟨'f', _, false_toList, rfl, by decide⟩
  | .number (.int (.ofNat n)) =>
    obtain ⟨c, cs, h, hd⟩ := natText_head n
    exact ⟨c, cs, h, isBlank_of_isDigit hd, by rintro rfl; cases hd⟩
  | .number (.int (.negSucc _)) => exact absurd hv id
  | .number (.float _) => exact absurd hv id
  | .string s => exact ⟨'"', _, quote_toList s, rfl, by decide⟩
  | .array [] => exact ⟨'[', _, emptyArray_toList, rfl, by decide⟩
  | .array (v :: items) => exact ⟨'[', _, array_toList v items, rfl, by decide⟩
  | .object [] => exact ⟨'\x7b', _, emptyObject_toList, rfl, by decide⟩
  | .object (f :: fields) => exact ⟨'\x7b', _, object_toList f fields, rfl, by decide⟩

/-- What ends a list or an object begins with a blank or with its bracket. -/
theorem endsNumber_lead (hl : l.Blank) {c : Char} (hc : c = ']' ∨ c = '\x7d') :
    EndsNumber ((l.lead depth).toList ++ c :: rest) := by
  intro d hd
  cases hlead : (l.lead depth).toList with
  | nil =>
    rw [hlead, List.nil_append, List.head?_cons, Option.some.injEq] at hd
    subst hd
    rcases hc with rfl | rfl <;> exact ⟨rfl, by decide, by decide, by decide⟩
  | cons b bs =>
    rw [hlead, List.cons_append, List.head?_cons, Option.some.injEq] at hd
    have hb := hl.lead depth b (by simp [hlead])
    subst hd
    simp only [isBlank, Bool.or_eq_true, beq_iff_eq] at hb
    rcases hb with ((rfl | rfl) | rfl) | rfl <;> exact ⟨rfl, by decide, by decide, by decide⟩

theorem skipBlanks_lead (hl : l.Blank) (hc : isBlank c = false) :
    skipBlanks ((l.lead depth).toList ++ c :: rest) = c :: rest := by
  rw [skipBlanks_append (hl.lead depth), skipBlanks_of_not hc]

/-- The text of a value is read as its document, if what follows does not go on with a number. -/
def ReadsValue (l : Layout) (depth : Nat) (value : ValueReader Document) (v : Json) : Prop :=
  ∀ rest, EndsNumber rest → ∀ cs, skipBlanks cs = (v.textAt l depth).toList ++ rest →
    Reads (value cs) (· = Document.written v) rest

/-- A value is read as an element wherever it is read as a value. -/
theorem readsElement_item (hl : l.Blank) {v : Json} (hv : v.Natural) {value : ValueReader Document}
    (hread : ReadsValue l depth value v) :
    ReadsElement .list value (l.lead depth).toList (fun v => (v.textAt l depth).toList)
      Document.written v := by
  intro rest hr
  obtain ⟨c, cs, hcs, hc, hne⟩ := textAt_head hv l depth
  have htext : (v.textAt l depth).toList ++ rest = c :: (cs ++ rest) := by
    rw [hcs, List.cons_append]
  refine ⟨c, cs ++ rest, hne, ?_, hread rest hr _ ?_⟩
  · show skipBlanks ((l.lead depth).toList ++ ((v.textAt l depth).toList ++ rest)) = _
    rw [htext, skipBlanks_lead hl hc]
  · rw [htext, skipBlanks_of_not hc]

/-- A member is read up to its colon by itself, and the rest of it is a value. -/
theorem readsElement_member (hl : l.Blank) {f : String × Json} (hv : f.2.Natural)
    {value : ValueReader Document} (hread : ReadsValue l depth value f.2) :
    ReadsElement .object (readField Document.target value) (l.lead depth).toList
      (memberText l depth) (fun f => (.text f.1, Document.written f.2)) f := by
  intro rest hr
  obtain ⟨blanks, hcolon, hblank⟩ := hl.colon
  obtain ⟨c, cs, hcs, hc, -⟩ := textAt_head hv l depth
  have htext : memberText l depth f ++ rest = '"' :: (f.1.toList.flatMap escapeChar ++
      '"' :: (':' :: (blanks ++ ((f.2.textAt l depth).toList ++ rest)))) := by
    simp [memberText, hcolon]
  have hvalue : skipBlanks (blanks ++ ((f.2.textAt l depth).toList ++ rest)) =
      (f.2.textAt l depth).toList ++ rest := by
    rw [skipBlanks_append hblank, hcs, List.cons_append, skipBlanks_of_not hc]
  rw [htext]
  refine ⟨_, _, by decide, skipBlanks_lead hl rfl, ?_⟩
  exact readField_reads (readName_document f.1 _) (skipBlanks_of_not rfl) (hread rest hr _ hvalue)

theorem readsValue_array (hl : l.Blank) {items : List Json} (hv : ∀ v ∈ items, v.Natural)
    (hread : ∀ v ∈ items, ReadsValue l (depth + 1) (readValue Document.target n) v) :
    ReadsValue l depth (readValue Document.target (n + 1)) (.array items) := by
  intro rest hr cs h
  cases items with
  | nil =>
    rw [emptyArray_toList] at h
    refine readValue_array h (readElements_nil (skipBlanks_of_not rfl)) ?_
    rintro _ rfl
    rfl
  | cons v items =>
    simp only [array_toList, List.cons_append, List.append_assoc, List.nil_append] at h
    have hclose : skipBlanks ((l.lead depth).toList ++ ']' :: rest) = ']' :: rest :=
      skipBlanks_lead hl rfl
    have hitems := readElements_separated (by decide) hclose (endsNumber_lead hl (.inl rfl)) v items
      fun w hw => readsElement_item hl (hv w hw) (hread w hw)
    refine readValue_array h hitems ?_
    rintro _ rfl
    rw [← Document.writtenItems_eq]
    rfl

theorem readsValue_object (hl : l.Blank) {fields : List (String × Json)}
    (hv : ∀ f ∈ fields, f.2.Natural)
    (hread : ∀ f ∈ fields, ReadsValue l (depth + 1) (readValue Document.target n) f.2) :
    ReadsValue l depth (readValue Document.target (n + 1)) (.object fields) := by
  intro rest hr cs h
  cases fields with
  | nil =>
    rw [emptyObject_toList] at h
    refine readValue_object h (readElements_nil (skipBlanks_of_not rfl)) ?_
    rintro _ rfl
    rfl
  | cons f fields =>
    simp only [object_toList, List.cons_append, List.append_assoc, List.nil_append] at h
    have hclose : skipBlanks ((l.lead depth).toList ++ '\x7d' :: rest) = '\x7d' :: rest :=
      skipBlanks_lead hl rfl
    have hfields := readElements_separated (by decide) hclose (endsNumber_lead hl (.inr rfl)) f
      fields fun g hg => readsElement_member hl (hv g hg) (hread g hg)
    refine readValue_object h hfields ?_
    rintro _ rfl
    rw [← Document.writtenFields_eq]
    rfl

/-- A document deep enough for a value reads its text: a number has to know what follows, and after
an element that is a comma, a blank or a bracket. -/
theorem readsValue_textAt (hl : l.Blank) (v : Json) (hv : v.Natural) {n : Nat} (depth : Nat)
    (hd : v.nesting ≤ n) : ReadsValue l depth (readValue Document.target n) v := by
  match v, n with
  | .null, _ =>
    intro rest _ cs h
    rw [null_toList] at h
    exact readValue_null h
  | .bool true, _ =>
    intro rest _ cs h
    rw [true_toList] at h
    exact readValue_true h
  | .bool false, _ =>
    intro rest _ cs h
    rw [false_toList] at h
    exact readValue_false h
  | .number (.int (.ofNat m)), _ =>
    intro rest hr cs h
    obtain ⟨c, ds, hm, hc⟩ := natText_head m
    have hread := readNumber_natText m hr
    have h : skipBlanks cs = (natText m).toList ++ rest := h
    rw [hm, List.cons_append] at h hread
    exact readValue_digit h hc hread
  | .number (.int (.negSucc _)), _ => exact absurd hv id
  | .number (.float _), _ => exact absurd hv id
  | .string s, _ =>
    intro rest _ cs h
    have h : skipBlanks cs = (quote s).toList ++ rest := h
    rw [quote_toList, List.cons_append, List.append_assoc] at h
    exact readValue_string h (readString_document s rest)
  | .array _, 0 => simp [nesting] at hd
  | .object _, 0 => simp [nesting] at hd
  | .array items, n + 1 =>
    have hnatural : ∀ w ∈ items, w.Natural := naturalItems_iff.mp hv
    have hnesting : ∀ w ∈ items, w.nesting ≤ n :=
      nestingItems_le_iff.mp (Nat.le_of_succ_le_succ hd)
    exact readsValue_array hl hnatural fun w hw =>
      readsValue_textAt hl w (hnatural w hw) (depth + 1) (hnesting w hw)
  | .object fields, n + 1 =>
    have hnatural : ∀ g ∈ fields, g.2.Natural := naturalFields_iff.mp hv
    have hnesting : ∀ g ∈ fields, g.2.nesting ≤ n :=
      nestingFields_le_iff.mp (Nat.le_of_succ_le_succ hd)
    exact readsValue_object hl hnatural fun g hg =>
      readsValue_textAt hl g.2 (hnatural g hg) (depth + 1) (hnesting g hg)
termination_by sizeOf v
decreasing_by
  · exact sizeOf_lt_array hw
  · exact sizeOf_lt_object hg

/-- Every element takes at least the characters of its own text. -/
theorem length_le_separated {γ : Type} (lead : List Char) (text : γ → List Char) {x : γ}
    {xs : List γ} (hx : x ∈ xs) : (text x).length ≤ (separated lead text xs).length := by
  induction xs with
  | nil => cases hx
  | cons y xs ih =>
    simp only [separated, List.flatMap_cons, List.length_append, List.length_cons] at ih ⊢
    rcases List.mem_cons.mp hx with rfl | hx
    · omega
    · have hrest := ih hx
      omega

/-- Every list and object takes characters of its own. -/
theorem nesting_le_length (l : Layout) (v : Json) (depth : Nat) :
    v.nesting ≤ (v.textAt l depth).toList.length := by
  match v with
  | .null | .bool _ | .string _ | .number _ => exact Nat.zero_le _
  | .array [] => simp [nesting, nestingItems]
  | .array (v :: items) =>
    have hall : nestingItems (v :: items) ≤ (v.textAt l (depth + 1)).toList.length +
        (separated (l.lead (depth + 1)).toList (fun v => (v.textAt l (depth + 1)).toList)
          items).length := by
      refine nestingItems_le_iff.mpr fun w hw => ?_
      have hdepth := nesting_le_length l w (depth + 1)
      rcases List.mem_cons.mp hw with rfl | hw
      · omega
      · have hlength := length_le_separated (l.lead (depth + 1)).toList
          (fun v => (v.textAt l (depth + 1)).toList) hw
        omega
    simp only [array_toList, nesting, List.length_cons, List.length_append]
    omega
  | .object [] => simp [nesting, nestingFields]
  | .object (f :: fields) =>
    have hmember : ∀ g : String × Json,
        (g.2.textAt l (depth + 1)).toList.length ≤ (memberText l (depth + 1) g).length := by
      intro g
      simp only [memberText, List.length_cons, List.length_append]
      omega
    have hall : nestingFields (f :: fields) ≤ (memberText l (depth + 1) f).length +
        (separated (l.lead (depth + 1)).toList (memberText l (depth + 1)) fields).length := by
      refine nestingFields_le_iff.mpr fun g hg => ?_
      have hdepth := nesting_le_length l g.2 (depth + 1)
      have hown := hmember g
      rcases List.mem_cons.mp hg with rfl | hg
      · omega
      · have hlength := length_le_separated (l.lead (depth + 1)).toList
          (memberText l (depth + 1)) hg
        omega
    simp only [object_toList, nesting, List.length_cons, List.length_append]
    omega
termination_by sizeOf v
decreasing_by
  · exact sizeOf_lt_array hw
  · exact sizeOf_lt_object hg

end

end Json

/-- A text that a value was printed to is read as the document of the value, if so much nesting can
be read. -/
theorem Document.readText_textAt {l : Json.Layout} (hl : l.Blank) {v : Json} (hv : v.Natural)
    {n : Nat} (hn : v.nesting ≤ n) :
    Json.readText target n (v.textAt l 0) = .ok (written v) := by
  obtain ⟨c, cs, hcs, hc, -⟩ := Json.textAt_head hv l 0
  have hskip : Json.skipBlanks (v.textAt l 0).toList = (v.textAt l 0).toList ++ [] := by
    rw [List.append_nil, hcs, Json.skipBlanks_of_not hc]
  obtain ⟨p, hp, hvalue, hrest⟩ := Json.readsValue_textAt hl v hv 0 hn [] (fun _ h => by cases h) _ hskip
  have hread : Json.readChars target n (v.textAt l 0).toList = .ok (written v) := by
    rw [Json.readChars, hp]
    simp [hrest, hvalue, Json.skipBlanks, bind, Except.bind, pure, Except.pure]
  rw [Json.readText, hread]
  rfl

/-- No text is too short for its nesting: what limits it is only how deep a document can be read. -/
theorem Document.readJson_textAt {l : Json.Layout} (hl : l.Blank) {v : Json} (hv : v.Natural) :
    readJson (v.textAt l 0) = .ok (limitDepth Json.maxDepth (written v)) := by
  have hlength : v.nesting ≤ (v.textAt l 0).length := by
    rw [← String.length_toList]
    exact Json.nesting_le_length l v 0
  rw [readJson, readText_textAt hl hv hlength]
  rfl

end EndpointCompiler
