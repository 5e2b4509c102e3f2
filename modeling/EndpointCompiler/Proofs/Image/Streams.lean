import EndpointCompiler.Proofs.Image.Depth
import EndpointCompiler.Proofs.Source.Types

/-! The two streams of an artifact, the image and the symbols, are read again as what was written to
them, compact or not. -/

namespace EndpointCompiler

open Document

mutual

/-- Parameters and locals are referred to by machine words. -/
def ValueExpr.InWords : ValueExpr → Prop
  | .param i | .local i => i < 2 ^ 64
  | .field base _ => base.InWords
  | .new _ fields => ValueExpr.FieldsInWords fields

def ValueExpr.FieldsInWords : List (String × ValueExpr) → Prop
  | [] => True
  | (_, value) :: fields => value.InWords ∧ ValueExpr.FieldsInWords fields

end

/-- The numbers of an image are machine words: half words for the format. -/
structure ModuleImage.InWords (m : ModuleImage) : Prop where
  format : m.format < 2 ^ 32
  locals : ∀ o ∈ m.operations, ∀ e ∈ o.locals, e.InWords
  args : ∀ o ∈ m.operations, o.call.arg.InWords

mutual

theorem ValueExpr.InWords.toJson {e : ValueExpr} (h : e.InWords) : e.toJson.InWords := by
  match e with
  | .param _ | .local _ => exact ⟨h, trivial⟩
  | .field _ _ => exact ⟨⟨ValueExpr.InWords.toJson h, trivial, trivial⟩, trivial⟩
  | .new _ _ => exact ⟨⟨trivial, ValueExpr.FieldsInWords.toJson h, trivial⟩, trivial⟩

theorem ValueExpr.FieldsInWords.toJson {fields : List (String × ValueExpr)}
    (h : ValueExpr.FieldsInWords fields) : Json.ItemsInWords (ValueExpr.fieldsToJson fields) := by
  match fields with
  | [] => exact trivial
  | (_, _) :: _ =>
    exact ⟨⟨trivial, ValueExpr.InWords.toJson h.1, trivial⟩, ValueExpr.FieldsInWords.toJson h.2⟩

end

theorem inWords_array_map {α : Type} {toJson : α → Json} {values : List α}
    (h : ∀ a ∈ values, (toJson a).InWords) : (Json.array (values.map toJson)).InWords := by
  induction values with
  | nil => exact trivial
  | cons a values ih =>
    rw [List.forall_mem_cons] at h
    exact ⟨h.1, ih h.2⟩

theorem OperationImage.inWords {o : OperationImage} (hlocals : ∀ e ∈ o.locals, e.InWords)
    (harg : o.call.arg.InWords) : o.toJson.InWords := by
  obtain ⟨name, method, route, produces, params, locals, call⟩ := o
  have hparams : (Json.array (params.map (·.toJson))).InWords :=
    inWords_array_map fun p _ => ⟨trivial, trivial, trivial, trivial, trivial⟩
  have hlocals := inWords_array_map fun e he => (hlocals e he).toJson
  have hcall : call.toJson.InWords := ⟨trivial, trivial, trivial, harg.toJson, trivial⟩
  cases produces with
  | none =>
    cases locals with
    | nil => exact ⟨trivial, trivial, trivial, hparams, hcall, trivial⟩
    | cons e locals => exact ⟨trivial, trivial, trivial, hparams, hlocals, hcall, trivial⟩
  | some t =>
    cases locals with
    | nil => exact ⟨trivial, trivial, trivial, trivial, hparams, hcall, trivial⟩
    | cons e locals => exact ⟨trivial, trivial, trivial, trivial, hparams, hlocals, hcall, trivial⟩

theorem ModuleImage.InWords.toJson {m : ModuleImage} (h : m.InWords) : m.toJson.InWords := by
  have hformat : m.format < 2 ^ 64 := Nat.lt_trans h.format (by decide)
  have hshapes : (Json.array (m.shapes.map (·.toJson))).InWords :=
    inWords_array_map fun s _ =>
      ⟨trivial, inWords_array_map fun f _ => ⟨trivial, trivial, trivial⟩, trivial⟩
  have hoperations : (Json.array (m.operations.map (·.toJson))).InWords :=
    inWords_array_map fun o ho => OperationImage.inWords (h.locals o ho) (h.args o ho)
  exact ⟨hformat, trivial, trivial, hshapes, hoperations, trivial⟩

theorem readText_print (mode : BuildMode) {v : Json} (hv : v.Natural) {n : Nat}
    (hn : v.nesting ≤ n) : Json.readText target n (mode.print v) = .ok (written v) := by
  cases mode with
  | debug => exact readText_textAt Json.Layout.pretty_blank hv hn
  | release => exact readText_textAt Json.Layout.compact_blank hv hn

theorem TypeRef.Legible.of_ofText {t : TypeRef} {text : String} (h : TypeRef.ofText text = .ok t) :
    t.Legible :=
  (TypeRef.exists_ofText_iff.mp ⟨text, h⟩).ofText

/-- Both streams of an artifact come back, compact or not, if the types of the image are ones that
texts are read as. However deep an image nests, its text is read as the image where so much nesting
can be read; no more than the known limit, it is decoded, and never as anything else. -/
theorem streams_roundTrip {m : ModuleImage} {table : SymbolTable}
    (htypes : ∀ t ∈ m.types, ∃ text, TypeRef.ofText text = .ok t) (hm : m.InWords)
    (htable : ∀ s ∈ table.symbols, s.Placed) (mode : BuildMode) :
    (∀ n, m.toJson.nesting ≤ n → ∃ d, Json.readText target n (mode.print m.toJson) = .ok d ∧
        ModuleImage.decode d = .ok m) ∧
      (m.toJson.nesting ≤ Json.maxDepth →
        decodeJsonText ModuleImage.decode (mode.print m.toJson) = .ok m) ∧
      (∀ m', decodeJsonText ModuleImage.decode (mode.print m.toJson) = .ok m' → m' = m) ∧
      decodeJsonText SymbolTable.decode (mode.print table.toJson) = .ok table := by
  have hlegible : ∀ t ∈ m.types, t.Legible := fun t ht =>
    (htypes t ht).elim fun _ h => .of_ofText h
  have hrecovers := m.recovers hlegible hm.format
  refine ⟨fun n hn => ⟨_, readText_print mode m.natural hn, ?_⟩, fun hn => ?_, fun m' h => ?_, ?_⟩
  · rw [← readAs_of_nesting_le m.toJson hn]
    exact (hrecovers n).eq_ok (hm.toJson.readable hn)
  · exact decodeJsonText_print mode m.natural (hrecovers _) (hm.toJson.readable hn)
  · exact decodeJsonText_print_unique m.natural (hrecovers _) h
  · exact decodeJsonText_print mode table.natural (table.recovers _) (table.readable htable)

/-- An operation with an answer and a local, whose argument is an object within an object and has
two initialisers of one name, and an operation without any of them. -/
def nestedImage : ModuleImage :=
  let s : TypeRef := .declared "shop" "S"
  ⟨imageFormat, "shop", "Controller", [⟨"S", [⟨"s", s⟩, ⟨"n", Primitive.int.type⟩]⟩],
    [⟨"f", "POST", "/\x7bn\x7d", some (.array (.named (some "core") "List" [s])),
      [⟨"n", "n", .path, Primitive.int.type⟩, ⟨"b", "b", .body, s⟩],
      [.field (.field (.param 1) "s") "n"],
      ⟨s, Primitive.int.type, false,
        .new s [("n", .param 0), ("s", .new s [("n", .local 0)]), ("n", .local 0)]⟩⟩,
      ⟨"g", "GET", "/", none, [], [], ⟨s, s, true, .new s []⟩⟩]⟩

/-- A symbol of a text in a file, and one of a text without a file. -/
def nestedTable : SymbolTable :=
  ⟨"shop", [⟨.operation, "f", "f", some "out/shop.f.op", 2, 4⟩, ⟨.shape, "S", "g", none, 1, 7⟩]⟩

theorem streams_roundTrip_nested :
    decodeJsonText ModuleImage.decode (BuildMode.print .release nestedImage.toJson) =
        .ok nestedImage ∧
      decodeJsonText ModuleImage.decode (BuildMode.print .debug nestedImage.toJson) =
        .ok nestedImage ∧
      decodeJsonText SymbolTable.decode (BuildMode.print .release nestedTable.toJson) =
        .ok nestedTable ∧
      decodeJsonText SymbolTable.decode (BuildMode.print .debug nestedTable.toJson) =
        .ok nestedTable := by
  have hread : (nestedImage.types.all fun t => (TypeRef.ofText t.text).toOption == some t) = true := by
    decide +kernel
  have htypes : ∀ t ∈ nestedImage.types, ∃ text, TypeRef.ofText text = .ok t := by
    intro t ht
    have hparsed := beq_iff_eq.mp (List.all_eq_true.mp hread t ht)
    cases htext : TypeRef.ofText t.text with
    | error e =>
      rw [htext] at hparsed
      cases hparsed
    | ok u =>
      rw [htext] at hparsed
      exact ⟨t.text, htext.trans (congrArg Except.ok (Option.some.inj hparsed))⟩
  have hwords : nestedImage.InWords :=
    ⟨by decide, by simp [nestedImage, ValueExpr.InWords],
      by simp [nestedImage, ValueExpr.InWords, ValueExpr.FieldsInWords]⟩
  have hplaced : ∀ s ∈ nestedTable.symbols, s.Placed := by
    simp only [nestedTable, List.forall_mem_cons, List.not_mem_nil, false_implies, implies_true]
    exact ⟨⟨by decide, by decide⟩, ⟨by decide, by decide⟩, trivial⟩
  have hdepth : nestedImage.toJson.nesting ≤ Json.maxDepth := by decide +kernel
  have hrelease := streams_roundTrip htypes hwords hplaced .release
  have hdebug := streams_roundTrip htypes hwords hplaced .debug
  exact ⟨hrelease.2.1 hdepth, hdebug.2.1 hdepth, hrelease.2.2.2, hdebug.2.2.2⟩

end EndpointCompiler
