import EndpointCompiler.Loading
import EndpointCompiler.Proofs.Image.Codec

/-! What is loaded from the texts of an artifact is its image and its symbols. Only an image that
nests too deep does not load. -/

namespace EndpointCompiler

open Document Json

theorem natural_array_map {α : Type} {toJson : α → Json} (values : List α)
    (h : ∀ a ∈ values, (toJson a).Natural) : (Json.array (values.map toJson)).Natural :=
  naturalItems_iff.mpr (List.forall_mem_map.mpr h)

mutual

theorem ValueExpr.natural (e : ValueExpr) : e.toJson.Natural := by
  match e with
  | .param _ | .local _ => exact ⟨trivial, trivial⟩
  | .field base _ => exact ⟨⟨base.natural, trivial, trivial⟩, trivial⟩
  | .new _ fields => exact ⟨⟨trivial, ValueExpr.natural_fields fields, trivial⟩, trivial⟩

theorem ValueExpr.natural_fields (fields : List (String × ValueExpr)) :
    NaturalItems (ValueExpr.fieldsToJson fields) := by
  match fields with
  | [] => exact trivial
  | (_, value) :: fields =>
    exact ⟨⟨trivial, value.natural, trivial⟩, ValueExpr.natural_fields fields⟩

end

theorem Field.natural (f : Field) : f.toJson.Natural :=
  ⟨trivial, trivial, trivial⟩

theorem ShapeImage.natural (s : ShapeImage) : s.toJson.Natural :=
  ⟨trivial, natural_array_map _ fun f _ => f.natural, trivial⟩

theorem ParamImage.natural (p : ParamImage) : p.toJson.Natural :=
  ⟨trivial, trivial, trivial, trivial, trivial⟩

theorem BridgeCall.natural (c : BridgeCall) : c.toJson.Natural :=
  ⟨trivial, trivial, trivial, c.arg.natural, trivial⟩

theorem OperationImage.natural (o : OperationImage) : o.toJson.Natural := by
  obtain ⟨name, method, route, produces, params, locals, call⟩ := o
  have hparams := natural_array_map params fun p _ => p.natural
  have hlocals := natural_array_map locals fun e _ => e.natural
  have hcall := call.natural
  cases produces with
  | none =>
    cases locals with
    | nil => exact ⟨trivial, trivial, trivial, hparams, hcall, trivial⟩
    | cons e locals => exact ⟨trivial, trivial, trivial, hparams, hlocals, hcall, trivial⟩
  | some t =>
    cases locals with
    | nil => exact ⟨trivial, trivial, trivial, trivial, hparams, hcall, trivial⟩
    | cons e locals => exact ⟨trivial, trivial, trivial, trivial, hparams, hlocals, hcall, trivial⟩

theorem ModuleImage.natural (m : ModuleImage) : m.toJson.Natural :=
  ⟨trivial, trivial, trivial, natural_array_map _ fun s _ => s.natural,
    natural_array_map _ fun o _ => o.natural, trivial⟩

theorem Symbol.natural (s : Symbol) : s.toJson.Natural := by
  obtain ⟨kind, name, unit, path, line, column⟩ := s
  cases path <;> simp [toJson, Natural, NaturalFields]

theorem SymbolTable.natural (t : SymbolTable) : t.toJson.Natural :=
  ⟨trivial, natural_array_map _ fun s _ => s.natural, trivial⟩

theorem readJson_print (mode : BuildMode) {v : Json} (hv : v.Natural) :
    readJson (mode.print v) = .ok (readAs maxDepth v) := by
  cases mode with
  | debug => exact readJson_textAt Layout.pretty_blank hv
  | release => exact readJson_textAt Layout.compact_blank hv

section

variable {α : Type} {decode : Document → Decoded α} {v : Json} {a : α}

theorem decodeJsonText_print_eq_ok_iff (mode : BuildMode) (hv : v.Natural) :
    decodeJsonText decode (mode.print v) = .ok a ↔ decode (readAs maxDepth v) = .ok a := by
  rw [decodeJsonText, readJson_print mode hv]
  dsimp only
  cases decode (readAs maxDepth v) <;> simp [Except.mapError]

theorem decodeJsonText_print (mode : BuildMode) (hv : v.Natural)
    (h : Recovers (decode (readAs maxDepth v)) a (v.Readable maxDepth))
    (hr : v.Readable maxDepth) : decodeJsonText decode (mode.print v) = .ok a :=
  (decodeJsonText_print_eq_ok_iff mode hv).mpr (h.eq_ok hr)

theorem decodeJsonText_print_unique {mode : BuildMode} (hv : v.Natural)
    (h : Recovers (decode (readAs maxDepth v)) a (v.Readable maxDepth)) {b : α}
    (hb : decodeJsonText decode (mode.print v) = .ok b) : b = a :=
  h.unique ((decodeJsonText_print_eq_ok_iff mode hv).mp hb)

end

/-- What is emitted can be read back from its text: it does not nest too deep, and has no numbers
of more than 64 bits. -/
structure Emission.Readable (e : Emission) : Prop where
  image : e.image.toJson.Readable maxDepth
  symbols : ∀ table, e.symbols = some table → table.toJson.Readable maxDepth

instance (e : Emission) : Decidable e.Readable :=
  decidable_of_iff (e.image.toJson.Readable maxDepth ∧
    ∀ table ∈ e.symbols, table.toJson.Readable maxDepth)
    ⟨fun h => ⟨h.1, h.2⟩, fun h => ⟨h.image, h.symbols⟩⟩

/-- Texts load if they decode to an image in the known format and to its symbols. -/
theorem loadModule_eq_ok_iff {image : String} {symbols : Option String} {m : CompiledModule} :
    loadModule image symbols = .ok m ↔ ∃ i s,
      decodeJsonText ModuleImage.decode image = .ok i ∧ i.format = imageFormat ∧
      (match symbols with
        | none => s = none
        | some t => ∃ table, decodeJsonText SymbolTable.decode t = .ok table ∧ s = some table) ∧
      i.load s = .ok m := by
  unfold loadModule
  cases hi : decodeJsonText ModuleImage.decode image with
  | error e => simp [Except.mapError, bind, Except.bind]
  | ok i =>
    by_cases hf : i.format = imageFormat
    · cases symbols with
      | none => simp [Except.mapError, bind, Except.bind, hf, pure, Except.pure]
      | some t =>
        cases ht : decodeJsonText SymbolTable.decode t with
        | error e =>
          simp [Except.mapError, bind, Except.bind, hf, ht, Option.mapM_some]
        | ok table =>
          simp [Except.mapError, bind, Except.bind, hf, ht, Option.mapM_some]
    · simp [Except.mapError, bind, Except.bind, hf, throw, throwThe, MonadExceptOf.throw]

section

variable {e : Emission} {o : CompileOptions} {units : List SourceUnit} {m : CompiledModule}

/-- An artifact loads as what was emitted. -/
theorem Emission.load_artifact (ht : ∀ t ∈ e.image.types, t.Legible)
    (hf : e.image.format = imageFormat) (hr : e.Readable) (h : e.image.load e.symbols = .ok m) :
    (e.artifact o units).load = .ok m := by
  refine loadModule_eq_ok_iff.mpr ⟨e.image, e.symbols, ?_, hf, ?_, h⟩
  · exact decodeJsonText_print o.mode e.image.natural
      (e.image.recovers ht (hf ▸ by decide) maxDepth) hr.image
  · cases hs : e.symbols with
    | none => simp [artifact, hs]
    | some table =>
      simp only [artifact, hs, Option.map_some]
      exact ⟨table, decodeJsonText_print o.mode table.natural (table.recovers maxDepth)
        (hr.symbols table hs), rfl⟩

theorem Emission.load_of_load_artifact (ht : ∀ t ∈ e.image.types, t.Legible)
    (hf : e.image.format = imageFormat) (h : (e.artifact o units).load = .ok m) :
    e.image.load e.symbols = .ok m := by
  obtain ⟨i, s, hi, -, hs, hload⟩ := loadModule_eq_ok_iff.mp h
  cases decodeJsonText_print_unique e.image.natural
    (e.image.recovers ht (hf ▸ by decide) maxDepth) hi
  have hsymbols : s = e.symbols := by
    cases he : e.symbols with
    | none => simpa [artifact, he] using hs
    | some table =>
      simp only [artifact, he, Option.map_some] at hs
      obtain ⟨t, hd, rfl⟩ := hs
      cases decodeJsonText_print_unique table.natural (table.recovers maxDepth) hd
      rfl
  exact hsymbols ▸ hload

end

end EndpointCompiler
