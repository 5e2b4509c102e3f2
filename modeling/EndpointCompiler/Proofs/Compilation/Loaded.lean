import EndpointCompiler.Proofs.Compilation.Modes

/-! What is loaded of a compiled module. Its types are those that were checked, as long as the
module has a name that types can be written with. -/

namespace EndpointCompiler

open Source Checked

/-- A parameter with the type that it was checked with. A form of one of the module's own shapes
binds the fields of that shape. -/
structure ParamImage.LoadsAs (module : ModuleId) (shapes : List ShapeImage) (p : ParamImage)
    (b : BoundParam) : Prop where
  name : b.name = p.name
  wireName : b.wireName = p.wireName
  source : b.source = p.source
  type : b.type = p.type
  formFields : ∀ s ∈ shapes, p.source = .form → p.type = .declared module s.name →
    b.formFields = s.fields

/-- An operation with the types that it was checked with. -/
structure OperationImage.LoadsAs (module : ModuleId) (shapes : List ShapeImage)
    (image : OperationImage) (op : GeneratedOperation) : Prop where
  name : op.name = image.name
  route : op.route = ⟨⟨image.method⟩, image.route, image.produces⟩
  params : List.Forall₂ (ParamImage.LoadsAs module shapes) image.params op.params
  key : op.key = .of image.call.request image.call.response
  isAsync : op.call.isAsync = image.call.isAsync

/-- A module with the shapes and the operations that were checked. -/
structure CompiledModule.Carries (m : CompiledModule) (o : CompileOptions) (p : CheckedProgram) :
    Prop where
  id : m.module.id = o.module
  types : m.module.types.map (fun t => (t.name, t.fields)) =
    p.shapes.map (fun s => (s.name, s.fields)) ++ [(o.controller, [])]
  operations : ∃ ops, m.operations = ops.map .generated ∧
    List.Forall₂ (OperationImage.LoadsAs o.module p.shapes) p.operations ops

namespace ModuleImage

variable {m : ModuleImage} {symbols : Option SymbolTable}

theorem shapeFields_eq (hm : (m.shapes.map (·.name)).Nodup) {s : ShapeImage} (hs : s ∈ m.shapes) :
    m.shapeFields s.name = s.fields := by
  have hnames : (m.shapes.reverse.map (·.name)).Nodup := by
    rw [List.map_reverse]
    exact List.nodup_reverse.mpr hm
  rw [shapeFields, find?_of_nodup_map hnames (List.mem_reverse.mpr hs)]
  rfl

theorem boundParam_loadsAs (hm : (m.shapes.map (·.name)).Nodup) (p : ParamImage) :
    p.LoadsAs m.module m.shapes (m.boundParam p) := by
  refine ⟨rfl, rfl, rfl, rfl, fun s hs hsource htype => ?_⟩
  rw [boundParam, hsource, htype]
  dsimp only [TypeRef.declared]
  rw [if_pos rfl]
  exact shapeFields_eq hm hs

theorem loadedOperation_loadsAs (hm : (m.shapes.map (·.name)).Nodup) (o : OperationImage) :
    o.LoadsAs m.module m.shapes (m.loadedOperation symbols o) where
  name := rfl
  route := rfl
  params := List.forall₂_map_right_iff.mpr (List.forall₂_same.mpr fun p _ => boundParam_loadsAs hm p)
  key := rfl
  isAsync := rfl

end ModuleImage

theorem OperationImage.LoadsAs.of_inlineLocals {module : ModuleId} {shapes : List ShapeImage}
    {image : OperationImage} {op : GeneratedOperation}
    (h : image.inlineLocals.LoadsAs module shapes op) : image.LoadsAs module shapes op := by
  unfold OperationImage.inlineLocals at h
  split at h
  · exact h
  · exact ⟨h.name, h.route, h.params, h.key, h.isAsync⟩

section

variable {references : ReferenceSet} {o : CompileOptions} {units : List SourceUnit}

/-- What is loaded carries what was checked, with its locals or without them. -/
theorem loaded_carries {e : Emission} (h : emit references o units = .ok e) :
    (e.image.loaded e.symbols).Carries o (checkProgram references o.module (parseUnits units).1) := by
  obtain ⟨hclean, rfl⟩ := emit_eq_ok_iff.mp h
  rw [List.forall_mem_append] at hclean
  have hprogram := checkProgram_sound hclean.2
  set p := checkProgram references o.module (parseUnits units).1 with hp
  have hnames : ((p.image o).shapes.map (·.name)).Nodup := by
    rw [CheckedProgram.image]
    dsimp only
    rw [map_eq_map_of_forall₂ (fun _ _ hs => hs.name) hprogram.shapes]
    exact hprogram.shapeNames
  refine ⟨rfl, ?_, _, (List.map_map ..).symm, ?_⟩
  · have hshapes : ∀ s ∈ p.shapes,
        (((p.image o).shapeType s).name, ((p.image o).shapeType s).fields) = (s.name, s.fields) :=
      fun s hs => Prod.ext rfl (ModuleImage.shapeFields_eq hnames hs)
    simp only [ModuleImage.loaded, List.map_append, List.map_map, List.map_singleton]
    exact congrArg (· ++ _) (List.map_congr_left hshapes)
  · have hloads : ∀ (symbols : Option SymbolTable) (op : OperationImage),
        op.LoadsAs o.module p.shapes ((p.image o).loadedOperation symbols op) :=
      fun _ op => ModuleImage.loadedOperation_loadsAs hnames op
    rw [List.forall₂_map_right_iff, CheckedProgram.image]
    cases o.mode with
    | debug => exact List.forall₂_same.mpr fun op _ => hloads _ op
    | release =>
      rw [List.forall₂_map_right_iff]
      exact List.forall₂_same.mpr fun op _ => (hloads _ op.inlineLocals).of_inlineLocals

/-- Whatever is compiled for a module with a proper name is loaded again, with the types that were
checked. -/
theorem compile_load (hm : IsModulePath o.module) {a : Artifact}
    (h : compile references o units = .ok a)
    (hr : ∀ e, emit references o units = .ok e → e.Readable) :
    ∃ m, a.load = .ok m ∧
      m.Carries o (checkProgram references o.module (parseUnits units).1) := by
  obtain ⟨e, he, rfl⟩ := compile_eq_ok_iff.mp h
  exact ⟨_, load_emitted hm he (hr e he), loaded_carries he⟩

end

theorem compile_load_echo : ∃ a m, compile ⟨[Catalog.core]⟩ echoOptions echoUnits = .ok a ∧
    a.load = .ok m ∧
      m.Carries echoOptions (checkProgram ⟨[Catalog.core]⟩ "shop" (parseUnits echoUnits).1) := by
  obtain ⟨e, he⟩ := emit_echo
  have hcompile := compile_eq_ok_iff.mpr ⟨e, he, rfl⟩
  have hpath : IsModulePath echoOptions.module := ⟨["shop"], by decide, by decide, rfl⟩
  obtain ⟨m, hload, hcarries⟩ := compile_load hpath hcompile (echo_readable .release)
  exact ⟨_, m, hcompile, hload, hcarries⟩

/-- A shape with a field of its own type. -/
def nestedUnits : List SourceUnit :=
  [⟨"nested", "shape S \x7b s: S \x7d", none⟩]

/-- A module whose name is no path is compiled, but the types of its own shapes cannot be read
again. -/
theorem load_hyphenated : ∃ a e,
    compile ⟨[]⟩ { echoOptions with module := "my-app" } nestedUnits = .ok a ∧ a.load = .error e := by
  have hfails : ((compile ⟨[]⟩ { echoOptions with module := "my-app" }
      nestedUnits).toOption.any fun a => !a.load.isOk) = true := by decide +kernel
  cases h : compile ⟨[]⟩ { echoOptions with module := "my-app" } nestedUnits with
  | error e =>
    rw [h] at hfails
    cases hfails
  | ok a =>
    cases hload : a.load with
    | error e => exact ⟨a, e, rfl, hload⟩
    | ok m => simp [h, hload, Except.toOption, Except.isOk, Except.toBool] at hfails

end EndpointCompiler
