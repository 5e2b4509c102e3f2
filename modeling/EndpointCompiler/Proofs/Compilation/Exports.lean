import EndpointCompiler.Proofs.Compilation.Completeness
import EndpointCompiler.Proofs.Compilation.Loaded

/-! The types that a loaded module exports. Their names differ unless a shape has the name of the
controller, which then stands behind the shape. -/

namespace EndpointCompiler

open Source Checked Document

/-- The types of a module are those of its shapes and last its controller. Each name leads to its
type if no shape has the name of the controller; otherwise it leads to the shape. -/
structure CompiledModule.Exports (m : CompiledModule) (controller : String)
    (shapes : List String) : Prop where
  name : m.controller.name = controller
  types : ∃ own, m.module.types = own ++ [m.controller] ∧ own.map (·.name) = shapes ∧
    ∀ t ∈ own, m.module.type? t.name = some t
  distinct : (m.module.types.map (·.name)).Nodup ↔ controller ∉ shapes
  found : (∀ t ∈ m.module.types, m.module.type? t.name = some t) ↔ controller ∉ shapes

namespace ModuleImage

variable {i : ModuleImage} {symbols : Option SymbolTable}

theorem map_shapeType_name : (i.shapes.map i.shapeType).map (·.name) = i.shapes.map (·.name) := by
  rw [List.map_map]
  rfl

theorem loaded_type?_shape (hshapes : (i.shapes.map (·.name)).Nodup) {t : TypeInfo}
    (ht : t ∈ i.shapes.map i.shapeType) : (i.loaded symbols).module.type? t.name = some t := by
  have hnodup : ((i.shapes.map i.shapeType).map (·.name)).Nodup := map_shapeType_name ▸ hshapes
  rw [Module.type?, loaded, List.find?_append, find?_of_nodup_map hnodup ht, Option.some_or]

theorem loaded_type?_controller_iff (hshapes : (i.shapes.map (·.name)).Nodup) :
    (i.loaded symbols).module.type? i.controller = some (i.loadedController symbols) ↔
      i.controller ∉ i.shapes.map (·.name) := by
  constructor
  · intro hfound hmem
    obtain ⟨s, hs, hname⟩ := List.mem_map.mp hmem
    have hshape : (i.loaded symbols).module.type? s.name = some (i.shapeType s) :=
      loaded_type?_shape hshapes (List.mem_map_of_mem hs)
    rw [hname] at hshape
    -- A shape has no base type, and a controller has one.
    have hsame : i.shapeType s = i.loadedController symbols :=
      Option.some.inj (hshape.symm.trans hfound)
    cases congrArg TypeInfo.base hsame
  · intro hmem
    have hnone : (i.shapes.map i.shapeType).find? (·.name == i.controller) = none := by
      rw [List.find?_eq_none]
      intro t ht hname
      refine hmem ?_
      rw [← map_shapeType_name, ← beq_iff_eq.mp hname]
      exact List.mem_map_of_mem ht
    rw [Module.type?, loaded, List.find?_append, hnone, Option.none_or]
    exact List.find?_cons_of_pos (beq_self_eq_true i.controller)

theorem loaded_exports (hshapes : (i.shapes.map (·.name)).Nodup) :
    (i.loaded symbols).Exports i.controller (i.shapes.map (·.name)) := by
  have htypes : (i.loaded symbols).module.types =
      i.shapes.map i.shapeType ++ [i.loadedController symbols] := rfl
  have hown : ∀ t ∈ i.shapes.map i.shapeType, (i.loaded symbols).module.type? t.name = some t :=
    fun t ht => loaded_type?_shape hshapes ht
  refine ⟨rfl, ⟨_, htypes, map_shapeType_name, hown⟩, ?_, ?_⟩
  · rw [htypes, List.map_append, map_shapeType_name, List.map_singleton, ← List.concat_eq_append,
      List.nodup_concat]
    exact and_iff_left hshapes
  · rw [htypes, List.forall_mem_append, List.forall_mem_singleton]
    exact (and_iff_right hown).trans (loaded_type?_controller_iff hshapes)

end ModuleImage

/-- The name of a shape is read back whatever the types of its fields are read as. -/
theorem ShapeImage.decode_name {s t : ShapeImage} {depth : Nat}
    (h : ShapeImage.decode (readAs depth s.toJson) = .ok t) : t.name = s.name := by
  obtain ⟨depth, h⟩ := exists_of_record (by simp) (by simp) h
  simp only [List.map_cons, List.map_nil, Record.required_cons, String.reduceEq, reduceIte,
    bind_eq_ok_iff] at h
  obtain ⟨name, hname, fields, -, ht⟩ := h
  cases hname
  cases ht
  rfl

theorem decode_shapeNames {shapes read : List ShapeImage} {depth : Nat}
    (h : asList ShapeImage.decode (readAs depth (.array (shapes.map (·.toJson)))) = .ok read) :
    read.map (·.name) = shapes.map (·.name) := by
  cases depth with
  | zero => cases h
  | succ depth =>
    rw [readAs_array_succ, List.map_map] at h
    have hall := List.forall₂_map_left_iff.mp (forall₂_of_mapM h)
    exact map_eq_map_of_forall₂ (fun _ _ hs => ShapeImage.decode_name hs) hall

theorem ModuleImage.decode_names {m i : ModuleImage} {depth : Nat}
    (h : ModuleImage.decode (readAs depth m.toJson) = .ok i) :
    i.controller = m.controller ∧ i.shapes.map (·.name) = m.shapes.map (·.name) := by
  obtain ⟨depth, h⟩ := exists_of_record (by simp) (by simp) h
  simp only [List.map_cons, List.map_nil, Record.required_cons, String.reduceEq, reduceIte,
    bind_eq_ok_iff] at h
  obtain ⟨format, -, module, -, controller, hcontroller, shapes, hshapes, operations, -, hi⟩ := h
  cases hcontroller
  cases hi
  exact ⟨rfl, decode_shapeNames hshapes⟩

/-- A module that is loaded from an artifact exports the names of what was emitted, also where the
types of its fields are not read back. -/
theorem Emission.load_exports {e : Emission} {o : CompileOptions} {units : List SourceUnit}
    {m : CompiledModule} (hshapes : (e.image.shapes.map (·.name)).Nodup)
    (h : (e.artifact o units).load = .ok m) :
    m.Exports e.image.controller (e.image.shapes.map (·.name)) := by
  obtain ⟨i, symbols, hi, -, -, hload⟩ := loadModule_eq_ok_iff.mp h
  obtain ⟨-, rfl⟩ := ModuleImage.load_eq_ok_iff.mp hload
  obtain ⟨hcontroller, hnames⟩ := ModuleImage.decode_names
    ((decodeJsonText_print_eq_ok_iff o.mode e.image.natural).mp hi)
  rw [← hcontroller, ← hnames]
  exact ModuleImage.loaded_exports (hnames ▸ hshapes)

/-- Whatever is loaded of what compiles exports a type for each shape and the controller. All their
names differ if and only if no shape is called like the controller. -/
theorem compilePlaced_exports {references : ReferenceSet} {o : CompileOptions}
    {units : List SourceUnit} {files : FileTree} {a : Artifact} {m : CompiledModule}
    (h : compilePlaced references o units files = .ok a) (hload : a.load = .ok m) :
    ∃ parsed, List.Forall₂ Parses units parsed ∧
      m.Exports o.controller ((declaredShapes parsed).map shapeName) := by
  obtain ⟨e, he, rfl⟩ := compile_eq_ok_iff.mp h
  obtain ⟨parsed, hparsed, hclean, himage, -⟩ := emitPlaced_program he
  have hprogram := checkProgram_sound hclean
  have hnames : e.image.shapes.map (·.name) = (declaredShapes parsed).map shapeName := by
    rw [himage, CheckedProgram.image]
    exact map_eq_map_of_forall₂ (fun _ _ hs => hs.name) hprogram.shapes
  have hexports := e.load_exports (hnames ▸ hprogram.shapeNames) hload
  rw [hnames, himage] at hexports
  exact ⟨parsed, hparsed, hexports⟩

theorem compilePlaced_exports_echo :
    ∃ a m parsed, compilePlaced ⟨[Catalog.core]⟩ echoOptions echoUnits ⟨[], []⟩ = .ok a ∧
      a.load = .ok m ∧ List.Forall₂ Parses echoUnits parsed ∧
      m.Exports "EchoController" ((declaredShapes parsed).map shapeName) := by
  have hpath : IsModulePath echoOptions.module := ⟨["shop"], by decide, by decide, rfl⟩
  obtain ⟨e, he⟩ := emitPlaced_echo .release
  have hload := load_emitted hpath he (echo_readable .release e he)
  obtain ⟨parsed, hparsed, hexports⟩ := compilePlaced_exports (compilePlaced_ok he) hload
  exact ⟨_, _, parsed, compilePlaced_ok he, hload, hparsed, hexports⟩

/-- A shape that is called like the controller. -/
def maskingUnits : List SourceUnit :=
  [⟨"masking",
    "shape EchoController \x7b n: core::Int \x7d #[http(POST, \"/\")] op f(#[body] e: EchoController) " ++
      "-> core::Int \x7b return process::<EchoController, core::Int>(e); \x7d",
    none⟩]

theorem emitPlaced_masking :
    ∃ e, emitPlaced ⟨[Catalog.core]⟩ echoOptions maskingUnits ⟨[], []⟩ = .ok e ∧ e.Readable ∧
      e.image.controller = "EchoController" ∧
      e.image.shapes.map (·.name) = ["EchoController"] := by
  obtain ⟨parsed, hparsed, htest⟩ : ∃ parsed, List.Forall₂ Parses maskingUnits parsed ∧
      (((checkProgram ⟨[Catalog.core]⟩ "shop" parsed).diagnostics.all fun d => !d.isError) &&
        decide (((checkProgram ⟨[Catalog.core]⟩ "shop" parsed).image
          echoOptions).toJson.Readable Json.maxDepth) &&
        decide ((checkProgram ⟨[Catalog.core]⟩ "shop" parsed).shapes.map (·.name) =
          ["EchoController"])) = true :=
    exists_parsed rfl _ (by decide +kernel)
  obtain ⟨hclean, hnames⟩ := Bool.and_eq_true_iff.mp htest
  obtain ⟨hclean, hreadable⟩ := Bool.and_eq_true_iff.mp hclean
  have hprogram := checkProgram_sound fun d hd => by simpa using List.all_eq_true.mp hclean d hd
  obtain ⟨e, he, himage⟩ := emitPlaced_complete (o := echoOptions) ⟨[], []⟩ hparsed hprogram
  have hsymbols : ∀ table, e.symbols = some table → table.toJson.Readable Json.maxDepth :=
    emitPlaced_symbols_readable he
      (List.forall_mem_singleton.mpr ((length_le_utf8ByteSize _).trans_lt (by decide +kernel)))
  refine ⟨e, he, ⟨himage ▸ of_decide_eq_true hreadable, hsymbols⟩, ?_, ?_⟩
  · rw [himage]
    rfl
  · rw [himage]
    exact of_decide_eq_true hnames

/-- The shape compiles and hides the controller with its operation: two types of one name are
exported, and the name does not lead to both. -/
theorem compilePlaced_masks :
    ∃ a m, compilePlaced ⟨[Catalog.core]⟩ echoOptions maskingUnits ⟨[], []⟩ = .ok a ∧
      a.load = .ok m ∧ m.controller.name = "EchoController" ∧
      ¬ (m.module.types.map (·.name)).Nodup ∧
      ¬ ∀ t ∈ m.module.types, m.module.type? t.name = some t := by
  have hpath : IsModulePath echoOptions.module := ⟨["shop"], by decide, by decide, rfl⟩
  obtain ⟨e, he, hreadable, hcontroller, hnames⟩ := emitPlaced_masking
  have hload := load_emitted hpath he hreadable
  have hexports := e.load_exports (hnames ▸ List.nodup_singleton _) hload
  rw [hcontroller, hnames] at hexports
  have hmem : ¬ "EchoController" ∉ ["EchoController"] := not_not.mpr (List.mem_singleton_self _)
  exact ⟨_, _, compilePlaced_ok he, hload, hexports.name, hmem ∘ hexports.distinct.mp,
    hmem ∘ hexports.found.mp⟩

end EndpointCompiler
