import EndpointCompiler.Proofs.Checking.Declarations
import EndpointCompiler.Proofs.Checking.Ignored
import EndpointCompiler.Proofs.Compilation.Modes

/-! Nothing that is declared is lost. A declaration is in the image with all that it says, or an
error in it is reported. -/

namespace EndpointCompiler

open Source Checked

/-- An error among findings is reported for a unit. -/
def CheckedProgram.Reports (p : CheckedProgram) (u : SourceUnit) (found : List Finding) : Prop :=
  ∃ f ∈ found, f.problem.isError = true ∧ Finding.diagnostic u f ∈ p.diagnostics

theorem mem_splitRepeated {α : Type} (name : α → String) (seen : List String) {as : List α} {a : α}
    (h : a ∈ as) : a ∈ (splitRepeated name seen as).1 ∨ a ∈ (splitRepeated name seen as).2 :=
  List.mem_append.mp ((splitRepeated_perm name seen as).symm.subset h)

/-- An operation is among the images, or an error in it is among the diagnostics. -/
theorem mem_checkOps (s : TypeScope) (seen : List String) {ops : List (SourceUnit × OpDecl)}
    {d : SourceUnit × OpDecl} (h : d ∈ ops) :
    (∃ image ∈ (checkOps s seen ops).1, (checkOp s d.2).Yields image) ∨
      ∃ f ∈ ⟨.duplicateOperation d.2.name.name, d.2.name.span⟩ :: (checkOp s d.2).findings,
        f.problem.isError = true ∧ Finding.diagnostic d.1 f ∈ (checkOps s seen ops).2 := by
  induction ops generalizing seen with
  | nil => cases h
  | cons c ops ih =>
    obtain ⟨u, op⟩ := c
    rw [checkOps]
    split
    · rcases List.mem_cons.mp h with rfl | h
      · exact .inr ⟨_, List.mem_cons_self, rfl, List.mem_cons_self⟩
      · rcases ih _ h with hi | ⟨f, hf, herror, hmem⟩
        · exact .inl hi
        · exact .inr ⟨f, hf, herror, List.mem_cons_of_mem _ hmem⟩
    · rcases List.mem_cons.mp h with rfl | h
      · by_cases hc : (checkOp s op).Clean
        · obtain ⟨image, himage⟩ := checkOp_loud hc
          exact .inl ⟨image, by simp [himage.1], himage⟩
        · obtain ⟨f, hf, herror⟩ := not_clean_iff.mp hc
          exact .inr ⟨f, List.mem_cons_of_mem _ hf, herror,
            List.mem_append_left _ (List.mem_map_of_mem hf)⟩
      · rcases ih _ h with ⟨image, hmem, himage⟩ | ⟨f, hf, herror, hmem⟩
        · exact .inl ⟨image, List.mem_append_right _ hmem, himage⟩
        · exact .inr ⟨f, hf, herror, List.mem_append_right _ hmem⟩

/-- Among operations without an error none is repeated, so whatever is found in one of them is
reported. -/
theorem mem_checkOps_diagnostics {s : TypeScope} {seen : List String}
    {ops : List (SourceUnit × OpDecl)}
    (h : ∀ d ∈ (checkOps s seen ops).2, d.isError = false) {d : SourceUnit × OpDecl} (hd : d ∈ ops)
    {f : Finding} (hf : f ∈ (checkOp s d.2).findings) :
    Finding.diagnostic d.1 f ∈ (checkOps s seen ops).2 := by
  induction ops generalizing seen with
  | nil => cases hd
  | cons c ops ih =>
    obtain ⟨u, op⟩ := c
    rw [checkOps] at h ⊢
    split at h
    · cases h _ List.mem_cons_self
    · rename_i hnew
      rw [if_neg hnew]
      rcases List.mem_cons.mp hd with rfl | hd
      · exact List.mem_append_left _ (List.mem_map_of_mem hf)
      · exact List.mem_append_right _ (ih (List.forall_mem_append.mp h).2 hd)

section

variable {references : ReferenceSet} {module : ModuleId} {parsed : List ParsedUnit}

/-- A shape has its image with all its fields, or an error in it is reported. -/
theorem checkProgram_shape_kept {d : SourceUnit × ShapeDecl} (h : d ∈ declaredShapes parsed) :
    d.2.toImage module ∈ (checkProgram references module parsed).shapes ∨
      (checkProgram references module parsed).Reports d.1
        (⟨.duplicateShape d.2.name.name, d.2.name.span⟩ ::
          (checkShape (nameScope references module parsed) d.2).findings) := by
  rcases mem_splitRepeated shapeName [] h with hfirst | hrepeated
  · by_cases hc : (checkShape (nameScope references module parsed) d.2).Clean
    · refine .inl ?_
      rw [checkProgram_shapes, List.mem_map]
      exact ⟨d, hfirst, by rw [checkShape_complete d.2 hc]; rfl⟩
    · obtain ⟨f, hf, herror⟩ := not_clean_iff.mp hc
      refine .inr ⟨f, List.mem_cons_of_mem _ hf, herror, ?_⟩
      rw [checkProgram_diagnostics, List.mem_append, List.mem_append, List.mem_flatMap]
      exact .inl (.inr ⟨d, hfirst, List.mem_map_of_mem hf⟩)
  · refine .inr ⟨_, List.mem_cons_self, rfl, ?_⟩
    rw [checkProgram_diagnostics, List.mem_append, List.mem_append]
    exact .inl (.inl (List.mem_map_of_mem hrepeated))

/-- An operation has an image that says all of it, or an error in it is reported. -/
theorem checkProgram_operation_kept {d : SourceUnit × OpDecl} (h : d ∈ declaredOps parsed) :
    (∃ image ∈ (checkProgram references module parsed).operations, d.2.ImagedAs module image) ∨
      (checkProgram references module parsed).Reports d.1
        (⟨.duplicateOperation d.2.name.name, d.2.name.span⟩ ::
          (checkOp (scopeOf references module (checkProgram references module parsed).shapes)
            d.2).findings) := by
  rcases mem_checkOps (scopeOf references module (checkProgram references module parsed).shapes)
    [] h with ⟨image, hmem, himage⟩ | ⟨f, hf, herror, hmem⟩
  · rw [checkProgram_operations]
    exact .inl ⟨image, hmem, checkOp_imagedAs himage⟩
  · refine .inr ⟨f, hf, herror, ?_⟩
    rw [checkProgram_diagnostics]
    exact List.mem_append_right _ hmem

theorem ProgramOf.images {p : CheckedProgram} (h : ProgramOf references module parsed p) :
    p.shapes = (declaredShapes parsed).map (·.2.toImage module) ∧
      List.Forall₂ (fun d image => d.2.ImagedAs module image) (declaredOps parsed)
        p.operations := by
  have hshapes := map_eq_map_of_forall₂ (fun _ _ hi => hi.eq_toImage) h.shapes
  rw [List.map_id'] at hshapes
  exact ⟨hshapes, h.operations.imp fun _ _ hi => checkOp_imagedAs hi⟩

/-- Without an error there is a warning for each attribute without effect. -/
theorem checkProgram_warns
    (h : ∀ d ∈ (checkProgram references module parsed).diagnostics, d.isError = false)
    {i : SourceUnit × Attribute} (hi : i ∈ ignoredAttributes parsed) :
    Finding.diagnostic i.1 i.2.ignoredFinding ∈
      (checkProgram references module parsed).diagnostics := by
  have hp := checkProgram_sound h
  rw [checkProgram_diagnostics, List.forall_mem_append, List.forall_mem_append,
    repeated_clean_iff] at h
  rw [checkProgram_diagnostics]
  rcases List.mem_append.mp hi with hi | hi
  · obtain ⟨d, hd, hi⟩ := List.mem_flatMap.mp hi
    obtain ⟨a, ha, rfl⟩ := List.mem_map.mp hi
    rw [splitRepeated_of_nil h.1.1]
    refine List.mem_append_left _ (List.mem_append_right _ (List.mem_flatMap.mpr ⟨d, hd, ?_⟩))
    exact List.mem_map_of_mem (checkShape_warns ha)
  · obtain ⟨d, hd, hi⟩ := List.mem_flatMap.mp hi
    obtain ⟨a, ha, rfl⟩ := List.mem_map.mp hi
    obtain ⟨image, -, himage⟩ := exists_right_of_forall₂ hp.operations hd
    exact List.mem_append_right _ (mem_checkOps_diagnostics h.2 hd (checkOp_warns himage ha))

end

section

variable {references : ReferenceSet} {o : CompileOptions} {units : List SourceUnit}
  {files : FileTree}

/-- What is emitted is the image of what the checker makes of the units, with its warnings. -/
theorem emitPlaced_program {e : Emission} (h : emitPlaced references o units files = .ok e) :
    ∃ parsed, List.Forall₂ Parses units parsed ∧
      (∀ d ∈ (checkProgram references o.module parsed).diagnostics, d.isError = false) ∧
      e.image = (checkProgram references o.module parsed).image o ∧
      e.warnings = (checkProgram references o.module parsed).diagnostics := by
  obtain ⟨hprogram, hmalformed⟩ := checkProgram_place references o.module o units files
  obtain ⟨hclean, rfl⟩ := emit_eq_ok_iff.mp h
  rw [hprogram, hmalformed, List.forall_mem_append] at hclean
  have hparsed := parseUnits_parses hclean.1
  have hnone : (parseUnits units).2 = [] := congrArg Prod.snd (parseUnits_of_parses hparsed)
  refine ⟨_, hparsed, hclean.2, congrArg (CheckedProgram.image · o) hprogram, ?_⟩
  dsimp only
  rw [hprogram, hmalformed, hnone, List.nil_append]

end

/-- What is left of a program after its check: each declaration has its image, with all that it
says, or an error in it is reported. -/
structure Retains (references : ReferenceSet) (module : ModuleId) (parsed : List ParsedUnit)
    (p : CheckedProgram) : Prop where
  shapes : ∀ d ∈ declaredShapes parsed, d.2.toImage module ∈ p.shapes ∨
    p.Reports d.1 (⟨.duplicateShape d.2.name.name, d.2.name.span⟩ ::
      (checkShape (nameScope references module parsed) d.2).findings)
  operations : ∀ d ∈ declaredOps parsed, (∃ image ∈ p.operations, d.2.ImagedAs module image) ∨
    p.Reports d.1 (⟨.duplicateOperation d.2.name.name, d.2.name.span⟩ ::
      (checkOp (scopeOf references module p.shapes) d.2).findings)

/-- No part of a declaration is abandoned without an error, unless it uses a name that was abandoned
with one. -/
structure LoudParts (s : TypeScope) : Prop where
  type : ∀ allowAsync t, (s.resolve allowAsync t).Loud
  attributes : ∀ seen a, (checkHttp a).Loud ∧ (checkAttribute s seen a).Loud
  parameter : ∀ p, (checkImage s p).Loud
  parameters : ∀ d route, (checkParams s d route).Loud
  expression : ∀ vars e, VarsComplete vars → (checkValue s vars e).Loud
  statements : ∀ d result vars locals body, VarsComplete vars →
    (checkStmts s d result vars locals body).Loud

theorem loudParts (s : TypeScope) : LoudParts s where
  type := s.resolve_loud
  attributes seen a := ⟨checkHttp_loud a, checkAttribute_loud seen a⟩
  parameter := checkImage_loud
  parameters _ := checkParams_loud
  expression _ e hv := checkValue_loud hv e
  statements _ _ _ locals body hv := checkStmts_loud hv body locals

/-- Nothing is lost in silence. What compiles has an image for each declaration, in their order and
with all that they say, and a warning for each attribute without effect; and whatever the checker
leaves out of a program has an error reported for it. -/
theorem compile_retains (references : ReferenceSet) (o : CompileOptions) (units : List SourceUnit)
    (files : FileTree) :
    (∀ a, compilePlaced references o units files = .ok a → ∃ e parsed,
      emitPlaced references o units files = .ok e ∧ a = e.artifact o (o.place units files).1 ∧
      List.Forall₂ Parses units parsed ∧
      e.image.shapes = (declaredShapes parsed).map (·.2.toImage o.module) ∧
      List.Forall₂ (fun d op => ∃ image, d.2.ImagedAs o.module image ∧
        op = match o.mode with
          | .debug => image
          | .release => image.inlineLocals) (declaredOps parsed) e.image.operations ∧
      ∀ i ∈ ignoredAttributes parsed,
        Finding.diagnostic i.1 i.2.ignoredFinding ∈ e.warnings) ∧
    (∀ parsed, Retains references o.module parsed (checkProgram references o.module parsed)) ∧
    ∀ s, LoudParts s := by
  refine ⟨fun a h => ?_, fun parsed => ?_, loudParts⟩
  · obtain ⟨e, he, rfl⟩ := compile_eq_ok_iff.mp h
    obtain ⟨parsed, hparsed, hclean, himage, hwarnings⟩ := emitPlaced_program he
    obtain ⟨hshapes, hoperations⟩ := (checkProgram_sound hclean).images
    refine ⟨e, parsed, he, rfl, hparsed, ?_, ?_, ?_⟩
    · rw [himage, ← hshapes, CheckedProgram.image]
    · rw [himage, CheckedProgram.image]
      cases o.mode with
      | debug => exact hoperations.imp fun _ image hi => ⟨image, hi, rfl⟩
      | release =>
        rw [List.forall₂_map_right_iff]
        exact hoperations.imp fun _ image hi => ⟨image, hi, rfl⟩
    · rw [hwarnings]
      exact fun i hi => checkProgram_warns hclean hi
  · exact ⟨fun _ => checkProgram_shape_kept, fun _ => checkProgram_operation_kept⟩

/-- Both statements of the operation are in its image, the first as a local. -/
theorem compile_retains_echo :
    ∃ a e parsed, compilePlaced ⟨[Catalog.core]⟩ { echoOptions with mode := .debug } echoUnits
        ⟨[], []⟩ = .ok a ∧
      emitPlaced ⟨[Catalog.core]⟩ { echoOptions with mode := .debug } echoUnits ⟨[], []⟩ = .ok e ∧
      List.Forall₂ Parses echoUnits parsed ∧
      e.image.shapes = (declaredShapes parsed).map (·.2.toImage "shop") ∧
      List.Forall₂ (fun d op => d.2.ImagedAs "shop" op) (declaredOps parsed)
        e.image.operations := by
  obtain ⟨e, he⟩ := emitPlaced_echo .debug
  have hcompile := compilePlaced_ok he
  obtain ⟨e, parsed, he, -, hparsed, hshapes, hoperations, -⟩ :=
    (compile_retains ⟨[Catalog.core]⟩ { echoOptions with mode := .debug } echoUnits
      ⟨[], []⟩).1 _ hcompile
  refine ⟨_, e, parsed, hcompile, he, hparsed, hshapes, hoperations.imp ?_⟩
  rintro d op ⟨image, himage, rfl⟩
  exact himage

end EndpointCompiler
