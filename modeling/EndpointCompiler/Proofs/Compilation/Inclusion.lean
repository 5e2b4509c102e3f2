import EndpointCompiler.Proofs.Checking.Extension
import EndpointCompiler.Proofs.Compilation.Modes

/-! Compilation against more references than are needed. Whatever compiles, compiles to the same
artifact if further modules are referred to. -/

namespace EndpointCompiler

open Source Checked

section

variable {r r' : ReferenceSet} {module : ModuleId} {parsed : List ParsedUnit}

/-- Declarations without an error are checked to the same with more references. -/
theorem checkProgram_included (h : r.IncludedIn r')
    (hc : ∀ d ∈ (checkProgram r module parsed).diagnostics, d.isError = false) :
    checkProgram r' module parsed = checkProgram r module parsed := by
  rw [checkProgram_diagnostics, List.forall_mem_append, List.forall_mem_append,
    shapes_clean_iff] at hc
  obtain ⟨⟨-, hshapes⟩, hops⟩ := hc
  have hnames : (nameScope r module parsed).ExtendedBy (nameScope r' module parsed) :=
    ⟨rfl, fun _ => rfl, h⟩
  have hshape : ∀ d ∈ (splitRepeated shapeName [] (declaredShapes parsed)).1,
      checkShape (nameScope r' module parsed) d.2 = checkShape (nameScope r module parsed) d.2 :=
    fun d hd => checkShape_keptBy hnames d.2 (hshapes d hd)
  have himages : (checkProgram r' module parsed).shapes =
      (checkProgram r module parsed).shapes := by
    rw [checkProgram_shapes, checkProgram_shapes]
    exact List.map_congr_left fun d hd => by rw [hshape d hd]
  have hscope : (scopeOf r module (checkProgram r module parsed).shapes).ExtendedBy
      (scopeOf r' module (checkProgram r module parsed).shapes) := ⟨rfl, fun _ => rfl, h⟩
  have hchecked := checkOps_keptBy hscope hops
  have hoperations : (checkProgram r' module parsed).operations =
      (checkProgram r module parsed).operations := by
    rw [checkProgram_operations, checkProgram_operations, himages, hchecked]
  have hdiagnostics : (checkProgram r' module parsed).diagnostics =
      (checkProgram r module parsed).diagnostics := by
    rw [checkProgram_diagnostics, checkProgram_diagnostics, himages, hchecked,
      List.flatMap_congr fun d hd => by rw [hshape d hd]]
  have heta : ∀ p : CheckedProgram, p = ⟨p.shapes, p.operations, p.diagnostics⟩ := fun _ => rfl
  rw [heta (checkProgram r' module parsed), himages, hoperations, hdiagnostics]

end

section

variable {r r' : ReferenceSet} {o : CompileOptions} {units : List SourceUnit}

theorem emit_included (h : r.IncludedIn r') {e : Emission} (he : emit r o units = .ok e) :
    emit r' o units = .ok e := by
  obtain ⟨hclean, rfl⟩ := emit_eq_ok_iff.mp he
  have hprogram := checkProgram_included h (List.forall_mem_append.mp hclean).2
  rw [emit_eq_ok_iff, hprogram]
  exact ⟨hclean, rfl⟩

/-- References that are not needed do no harm: the artifact is the same with them, with its image,
its symbols and its warnings. -/
theorem compile_included (h : r.IncludedIn r') {files : FileTree} {a : Artifact}
    (ha : compilePlaced r o units files = .ok a) : compilePlaced r' o units files = .ok a := by
  obtain ⟨e, he, rfl⟩ := compile_eq_ok_iff.mp ha
  exact compile_eq_ok_iff.mpr ⟨e, emit_included h he, rfl⟩

end

theorem includedIn_append (before after : List Module) :
    ReferenceSet.IncludedIn ⟨before⟩ ⟨before ++ after⟩ := by
  intro id m hm
  have hm : before.find? (·.id == id) = some m := hm
  rw [ReferenceSet.module?, List.find?_append, hm, Option.some_or]

theorem compile_included_echo :
    ∃ a, compilePlaced ⟨[Catalog.core]⟩ { echoOptions with mode := .debug } echoUnits ⟨[], []⟩ =
        .ok a ∧
      compilePlaced ⟨[Catalog.core, Catalog.bridge, Catalog.host]⟩
        { echoOptions with mode := .debug } echoUnits ⟨[], []⟩ = .ok a := by
  obtain ⟨e, he⟩ := emitPlaced_echo .debug
  have hcompile := compilePlaced_ok he
  have hincluded := includedIn_append [Catalog.core] [Catalog.bridge, Catalog.host]
  exact ⟨_, hcompile, compile_included hincluded hcompile⟩

end EndpointCompiler
