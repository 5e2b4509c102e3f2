import EndpointCompiler.Proofs.Json.RoundTrip
import Mathlib.Data.List.Nodup

/-! Decoding values out of what was printed for them. A value that nests too deep or holds too large
a number is not decoded; nothing is ever decoded to another value. -/

namespace EndpointCompiler

namespace Json

mutual

/-- Values that can be read: their lists and objects nest no deeper than so much, and their numbers
are natural ones of 64 bits. -/
def Readable (depth : Nat) : Json → Prop
  | .null | .bool _ | .string _ => True
  | .number (.int (.ofNat n)) => n < 2 ^ 64
  | .number _ => False
  | .array items =>
    match depth with
    | 0 => False
    | depth + 1 => ReadableItems depth items
  | .object fields =>
    match depth with
    | 0 => False
    | depth + 1 => ReadableFields depth fields

def ReadableItems (depth : Nat) : List Json → Prop
  | [] => True
  | v :: items => v.Readable depth ∧ ReadableItems depth items

def ReadableFields (depth : Nat) : List (String × Json) → Prop
  | [] => True
  | (_, v) :: fields => v.Readable depth ∧ ReadableFields depth fields

end

mutual

def decidableReadable (depth : Nat) : (v : Json) → Decidable (v.Readable depth)
  | .null | .bool _ | .string _ => .isTrue trivial
  | .number (.int (.ofNat n)) => inferInstanceAs (Decidable (n < 2 ^ 64))
  | .number (.int (.negSucc _)) | .number (.float _) => .isFalse id
  | .array items =>
    match depth with
    | 0 => .isFalse id
    | depth + 1 => decidableReadableItems depth items
  | .object fields =>
    match depth with
    | 0 => .isFalse id
    | depth + 1 => decidableReadableFields depth fields

def decidableReadableItems (depth : Nat) : (items : List Json) → Decidable (ReadableItems depth items)
  | [] => .isTrue trivial
  | v :: items =>
    @instDecidableAnd _ _ (decidableReadable depth v) (decidableReadableItems depth items)

def decidableReadableFields (depth : Nat) :
    (fields : List (String × Json)) → Decidable (ReadableFields depth fields)
  | [] => .isTrue trivial
  | (_, v) :: fields =>
    @instDecidableAnd _ _ (decidableReadable depth v) (decidableReadableFields depth fields)

end

instance (depth : Nat) (v : Json) : Decidable (v.Readable depth) :=
  decidableReadable depth v

mutual

/-- All numbers of a value are natural ones of 64 bits. -/
def InWords : Json → Prop
  | .null | .bool _ | .string _ => True
  | .number (.int (.ofNat n)) => n < 2 ^ 64
  | .number _ => False
  | .array items => ItemsInWords items
  | .object fields => FieldsInWords fields

def ItemsInWords : List Json → Prop
  | [] => True
  | v :: items => v.InWords ∧ ItemsInWords items

def FieldsInWords : List (String × Json) → Prop
  | [] => True
  | (_, v) :: fields => v.InWords ∧ FieldsInWords fields

end

mutual

theorem InWords.readable {v : Json} (hv : v.InWords) {depth : Nat} (hd : v.nesting ≤ depth) :
    v.Readable depth := by
  match v, depth with
  | .null, _ | .bool _, _ | .string _, _ => trivial
  | .number (.int (.ofNat _)), _ => exact hv
  | .number (.int (.negSucc _)), _ | .number (.float _), _ => exact absurd hv id
  | .array _, 0 | .object _, 0 => exact absurd hd (Nat.not_succ_le_zero _)
  | .array items, depth + 1 => exact itemsInWords_readable hv (Nat.le_of_succ_le_succ hd)
  | .object fields, depth + 1 => exact fieldsInWords_readable hv (Nat.le_of_succ_le_succ hd)

theorem itemsInWords_readable {items : List Json} (hv : ItemsInWords items) {depth : Nat}
    (hd : nestingItems items ≤ depth) : ReadableItems depth items := by
  match items with
  | [] => trivial
  | v :: items =>
    rw [nestingItems, Nat.max_le] at hd
    exact ⟨InWords.readable hv.1 hd.1, itemsInWords_readable hv.2 hd.2⟩

theorem fieldsInWords_readable {fields : List (String × Json)} (hv : FieldsInWords fields)
    {depth : Nat} (hd : nestingFields fields ≤ depth) : ReadableFields depth fields := by
  match fields with
  | [] => trivial
  | (_, v) :: fields =>
    rw [nestingFields, Nat.max_le] at hd
    exact ⟨InWords.readable hv.1 hd.1, fieldsInWords_readable hv.2 hd.2⟩

end

theorem readableItems_iff {depth : Nat} {items : List Json} :
    ReadableItems depth items ↔ ∀ v ∈ items, v.Readable depth := by
  induction items with
  | nil => simp [ReadableItems]
  | cons v items ih => simp [ReadableItems, ih]

theorem readableFields_iff {depth : Nat} {fields : List (String × Json)} :
    ReadableFields depth fields ↔ ∀ f ∈ fields, f.2.Readable depth := by
  induction fields with
  | nil => simp [ReadableFields]
  | cons f fields ih => simp [ReadableFields, ih]

@[simp] theorem natural_string (s : String) : (Json.string s).Natural := trivial

@[simp] theorem natural_bool (b : Bool) : (Json.bool b).Natural := trivial

@[simp] theorem natural_ofNat (n : Nat) : (Json.ofNat n).Natural := trivial

end Json

namespace Document

/-- What the text of a value is read as where so much nesting can be read. -/
def readAs (depth : Nat) (v : Json) : Document :=
  limitDepth depth (written v)

section

variable {depth n : Nat}

@[simp] theorem readAs_string (s : String) : readAs depth (.string s) = .text s := rfl

@[simp] theorem readAs_bool (b : Bool) : readAs depth (.bool b) = .bool b := rfl

theorem limitDepth_ofNatText (depth n : Nat) : limitDepth depth (ofNatText n) = ofNatText n := by
  unfold ofNatText
  split
  · rename_i x _
    cases x <;> rfl
  · rfl

@[simp] theorem readAs_ofNat (n : Nat) : readAs depth (.ofNat n) = ofNatText n :=
  limitDepth_ofNatText depth n

@[simp] theorem readAs_array_zero (items : List Json) :
    readAs 0 (.array items) = .unreadable := rfl

@[simp] theorem readAs_object_zero (fields : List (String × Json)) :
    readAs 0 (.object fields) = .unreadable := rfl

@[simp] theorem readAs_array_succ (items : List Json) :
    readAs (depth + 1) (.array items) = .list true (items.map (readAs depth)) := by
  have h : limitItems depth (writtenItems items) = items.map (readAs depth) := by
    induction items with
    | nil => rfl
    | cons v items ih => simp only [writtenItems, limitItems, List.map_cons, ih, readAs]
  exact congrArg (Document.list true) h

@[simp] theorem readAs_object_succ (fields : List (String × Json)) :
    readAs (depth + 1) (.object fields) =
      .map (fields.map fun f => (.text f.1, readAs depth f.2)) := by
  have h : limitFields depth (writtenFields fields) =
      fields.map fun f => (.text f.1, readAs depth f.2) := by
    induction fields with
    | nil => rfl
    | cons f fields ih => simp only [writtenFields, limitFields, List.map_cons, ih, readAs, limitDepth]
  exact congrArg Document.map h

end

mutual

/-- No limit on the nesting makes a difference to a value that respects it. -/
theorem readAs_of_nesting_le (v : Json) {depth : Nat} (hd : v.nesting ≤ depth) :
    readAs depth v = written v := by
  match v, depth with
  | .null, _ | .bool _, _ | .string _, _ => rfl
  | .number (.int (.ofNat n)), _ => exact limitDepth_ofNatText _ n
  | .number (.int (.negSucc _)), _ | .number (.float _), _ => rfl
  | .array _, 0 | .object _, 0 => exact absurd hd (Nat.not_succ_le_zero _)
  | .array items, depth + 1 =>
    exact congrArg (Document.list true) (limitItems_written items (Nat.le_of_succ_le_succ hd))
  | .object fields, depth + 1 =>
    exact congrArg Document.map (limitFields_written fields (Nat.le_of_succ_le_succ hd))

theorem limitItems_written (items : List Json) {depth : Nat} (hd : Json.nestingItems items ≤ depth) :
    limitItems depth (writtenItems items) = writtenItems items := by
  match items with
  | [] => rfl
  | v :: items =>
    rw [Json.nestingItems, Nat.max_le] at hd
    have hv := readAs_of_nesting_le v hd.1
    rw [writtenItems, limitItems, limitItems_written items hd.2]
    exact congrArg (· :: _) hv

theorem limitFields_written (fields : List (String × Json)) {depth : Nat}
    (hd : Json.nestingFields fields ≤ depth) :
    limitFields depth (writtenFields fields) = writtenFields fields := by
  match fields with
  | [] => rfl
  | (n, v) :: fields =>
    rw [Json.nestingFields, Nat.max_le] at hd
    have hv := readAs_of_nesting_le v hd.1
    rw [writtenFields, limitFields, limitFields_written fields hd.2]
    exact congrArg (fun d => (Document.text n, d) :: _) hv

end

/-- Decoding gives back a value, unless the value did not fit into what can be read. -/
def Recovers {α : Type} (r : Decoded α) (a : α) (fits : Prop) : Prop :=
  r = .ok a ∨ (¬ fits ∧ ∃ e, r = .error e)

section

variable {α β : Type} {r : Decoded α} {a : α} {fits : Prop}

theorem recovers_ok : Recovers (.ok a) a fits :=
  .inl rfl

theorem recovers_error {e : DecodeError} (h : ¬ fits) : Recovers (.error e) a fits :=
  .inr ⟨h, e, rfl⟩

theorem Recovers.imp {fits' : Prop} (h : Recovers r a fits) (hf : fits' → fits) :
    Recovers r a fits' := by
  rcases h with h | ⟨hn, he⟩
  · exact .inl h
  · exact .inr ⟨fun h => hn (hf h), he⟩

theorem Recovers.bind {f : α → Decoded β} {b : β} (h : Recovers r a fits)
    (hf : Recovers (f a) b fits) : Recovers (r >>= f) b fits := by
  rcases h with rfl | ⟨hn, e, rfl⟩
  · exact hf
  · exact .inr ⟨hn, e, rfl⟩

theorem Recovers.eq_ok (h : Recovers r a fits) (hf : fits) : r = .ok a := by
  rcases h with h | ⟨hn, -⟩
  · exact h
  · exact absurd hf hn

theorem Recovers.unique (h : Recovers r a fits) {b : α} (hr : r = .ok b) : b = a := by
  rcases h with h | ⟨-, e, he⟩
  · exact Except.ok.inj (hr.symm.trans h)
  · cases he.symm.trans hr

theorem Recovers.mapM {γ : Type} {decode : Document → Decoded α} {doc : γ → Document}
    {items : List γ} {value : γ → α}
    (h : ∀ i ∈ items, Recovers (decode (doc i)) (value i) fits) :
    Recovers ((items.map doc).mapM decode) (items.map value) fits := by
  induction items with
  | nil => exact recovers_ok
  | cons i items ih =>
    rw [List.map_cons, List.mapM_cons, List.map_cons]
    exact (h i (by simp)).bind ((ih fun j hj => h j (by simp [hj])).bind recovers_ok)

end

section

variable {α : Type} {fits : Prop}

theorem recovers_natural (n : Nat) (h : fits → n < 2 ^ 64) :
    Recovers (asNatural 64 (ofNatText n)) n fits := by
  by_cases hn : n < 2 ^ 64
  · rw [ofNatText_of_lt hn, asNatural_integer hn]
    exact recovers_ok
  · rw [asNatural_ofNatText_of_le (Nat.not_lt.mp hn)]
    exact recovers_error fun hf => hn (h hf)

/-- A list is decoded if its items are. -/
theorem recovers_list {decode : Document → Decoded α} {toJson : α → Json} (values : List α)
    (h : ∀ a ∈ values, ∀ depth, Recovers (decode (readAs depth (toJson a))) a
      ((toJson a).Readable depth)) (depth : Nat) :
    Recovers (asList decode (readAs depth (.array (values.map toJson)))) values
      ((Json.array (values.map toJson)).Readable depth) := by
  cases depth with
  | zero => exact recovers_error id
  | succ depth =>
    rw [readAs_array_succ, List.map_map]
    have hitems : Recovers ((values.map (readAs depth ∘ toJson)).mapM decode) (values.map id)
        ((Json.array (values.map toJson)).Readable (depth + 1)) := by
      refine Recovers.mapM fun a ha => (h a ha depth).imp fun hr => ?_
      exact Json.readableItems_iff.mp hr _ (List.mem_map_of_mem ha)
    rwa [List.map_id] at hitems

theorem namedFields_text (fields : List (String × Document)) :
    namedFields (fields.map fun f => (.text f.1, f.2)) = .ok fields := by
  induction fields with
  | nil => rfl
  | cons f fields ih => simp [namedFields, ih, asText, bind, Except.bind, pure, Except.pure]

theorem asRecord_map {names : List String} {fields : List (String × Document)}
    (hn : (fields.map (·.1)).Nodup) (hs : ∀ f ∈ fields, f.1 ∈ names) :
    asRecord names (.map (fields.map fun f => (.text f.1, f.2))) = .ok ⟨fields, false⟩ := by
  have hknown : fields.filter (fun f => names.contains f.1) = fields :=
    List.filter_eq_self.mpr fun f hf => by simpa using hs f hf
  have honce : names.find? (fun n => 1 < fields.countP (·.1 == n)) = none := by
    rw [List.find?_eq_none]
    intro n _
    have hcount : fields.countP (·.1 == n) = (fields.map (·.1)).count n := by
      rw [List.count, List.countP_map]
      rfl
    have hle := List.nodup_iff_count_le_one.mp hn n
    simp only [hcount, decide_eq_true_eq]
    omega
  simp only [asRecord, namedFields_text, bind, Except.bind, hknown, honce]
  rfl

/-- The record of an object has the fields of the object. -/
theorem asRecord_object {names : List String} {fields : List (String × Json)}
    (hn : (fields.map (·.1)).Nodup) (hs : ∀ f ∈ fields, f.1 ∈ names) (depth : Nat) :
    asRecord names (readAs (depth + 1) (.object fields)) =
      .ok ⟨fields.map fun f => (f.1, readAs depth f.2), false⟩ := by
  have hnames : ((fields.map fun f => (f.1, readAs depth f.2)).map (·.1)).Nodup := by
    simpa [Function.comp_def] using hn
  have hrecord := asRecord_map hnames (List.forall_mem_map.mpr hs)
  rw [List.map_map] at hrecord
  rw [readAs_object_succ]
  exact hrecord

/-- A record is decoded out of an object with its fields. -/
theorem recovers_record {names : List String} {fields : List (String × Json)}
    {g : Record → Decoded α} {a : α} (hn : (fields.map (·.1)).Nodup)
    (hs : ∀ f ∈ fields, f.1 ∈ names)
    (hg : ∀ depth, Recovers (g ⟨fields.map fun f => (f.1, readAs depth f.2), false⟩) a
      (Json.ReadableFields depth fields)) :
    Recovers (asRecord names (readAs depth (.object fields)) >>= g) a
      ((Json.object fields).Readable depth) := by
  cases depth with
  | zero => exact recovers_error id
  | succ depth => exact Recovers.bind (.inl (asRecord_object hn hs depth)) (hg depth)

/-- Whatever is decoded out of an object is decoded out of its fields. -/
theorem exists_of_record {names : List String} {fields : List (String × Json)}
    {g : Record → Decoded α} {a : α} (hn : (fields.map (·.1)).Nodup)
    (hs : ∀ f ∈ fields, f.1 ∈ names)
    (h : (asRecord names (readAs depth (.object fields)) >>= g) = .ok a) :
    ∃ depth, g ⟨fields.map fun f => (f.1, readAs depth f.2), false⟩ = .ok a := by
  cases depth with
  | zero => cases h
  | succ depth =>
    rw [asRecord_object hn hs] at h
    exact ⟨depth, h⟩

end

namespace Record

variable {α : Type}

theorem required_cons (n : String) (d : Document) (fields : List (String × Document))
    (positional : Bool) (name : String) (decode : Document → Decoded α) :
    required ⟨(n, d) :: fields, positional⟩ name decode =
      if n = name then decode d else required ⟨fields, positional⟩ name decode := by
  by_cases h : n = name <;> simp [required, field?, h]

end Record

section

variable {α : Type} {depth : Nat} {fields : List (String × Json)} {name : String} {v : Json}

theorem field?_of_mem (hn : (fields.map (·.1)).Nodup) (hm : (name, v) ∈ fields) :
    Record.field? ⟨fields.map fun f => (f.1, readAs depth f.2), false⟩ name =
      some (readAs depth v) := by
  induction fields with
  | nil => cases hm
  | cons f fields ih =>
    rw [List.map_cons, List.nodup_cons] at hn
    rcases List.mem_cons.mp hm with rfl | hm
    · simp [Record.field?]
    · have hne : f.1 ≠ name := fun h => hn.1 (h ▸ List.mem_map_of_mem hm)
      simpa [Record.field?, hne] using ih hn.2 hm

theorem recovers_required {decode : Document → Decoded α} {a : α} (hn : (fields.map (·.1)).Nodup)
    (hm : (name, v) ∈ fields)
    (h : Recovers (decode (readAs depth v)) a (v.Readable depth)) :
    Recovers (Record.required ⟨fields.map fun f => (f.1, readAs depth f.2), false⟩ name decode) a
      (Json.ReadableFields depth fields) := by
  rw [Record.required, field?_of_mem hn hm]
  exact h.imp fun hf => Json.readableFields_iff.mp hf _ hm

theorem recovers_withDefault {decode : Document → Decoded α} {a b : α}
    (hn : (fields.map (·.1)).Nodup)
    (h : (∃ v, (name, v) ∈ fields ∧ Recovers (decode (readAs depth v)) a (v.Readable depth)) ∨
      (name ∉ fields.map (·.1) ∧ b = a)) :
    Recovers (Record.withDefault ⟨fields.map fun f => (f.1, readAs depth f.2), false⟩ name b decode)
      a (Json.ReadableFields depth fields) := by
  rcases h with ⟨v, hm, h⟩ | ⟨hm, rfl⟩
  · rw [Record.withDefault, field?_of_mem hn hm]
    exact h.imp fun hf => Json.readableFields_iff.mp hf _ hm
  · have hnone : Record.field? ⟨fields.map fun f => (f.1, readAs depth f.2), false⟩ name = none := by
      simp only [Record.field?, Option.map_eq_none_iff, List.find?_eq_none, List.forall_mem_map]
      exact fun f hf h => hm (beq_iff_eq.mp h ▸ List.mem_map_of_mem hf)
    rw [Record.withDefault, hnone]
    exact recovers_ok

end

end Document

end EndpointCompiler
