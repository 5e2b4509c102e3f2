import EndpointCompiler.Proofs.Checking.Operation

/-! What the checker makes of all declarations of a compilation. Without an error there is one
image for each declaration, in order, and all were checked against the shapes that come out. -/

namespace EndpointCompiler

open Source Checked

section

variable {s s' : TypeScope}

mutual

/-- What can be written depends on the names of shapes alone. -/
theorem TypeScope.admits_congr (hr : s.references = s'.references) (hm : s.module = s'.module)
    (hs : ∀ name, (s.shape? name).isSome = (s'.shape? name).isSome) (allowAsync : Bool)
    (t : TypeRef) : s.Admits allowAsync t ↔ s'.Admits allowAsync t := by
  match t with
  | .named none name args => simp only [Admits, hs]
  | .named (some m) name args =>
    simp only [Admits, hr, hm, hs, TypeScope.admitsAll_congr hr hm hs args]
  | .array t => simp only [Admits, TypeScope.admits_congr hr hm hs false t]
  | .async t => simp only [Admits, TypeScope.admits_congr hr hm hs false t]

theorem TypeScope.admitsAll_congr (hr : s.references = s'.references) (hm : s.module = s'.module)
    (hs : ∀ name, (s.shape? name).isSome = (s'.shape? name).isSome) (ts : List TypeRef) :
    s.AdmitsAll ts ↔ s'.AdmitsAll ts := by
  match ts with
  | [] => simp only [AdmitsAll]
  | t :: ts =>
    simp only [AdmitsAll, TypeScope.admits_congr hr hm hs false t,
      TypeScope.admitsAll_congr hr hm hs ts]

end

/-- The image of a field: its name, and its type. -/
structure FieldOf (s : TypeScope) (d : FieldDecl) (f : Field) : Prop where
  name : f.name = d.name.name
  type : (s.resolve false d.type).Yields f.type

/-- The fields of a shape, one for each declaration and of different names. -/
structure FieldsOf (s : TypeScope) (ds : List FieldDecl) (fs : List Field) : Prop where
  each : List.Forall₂ (FieldOf s) ds fs
  names : (ds.map (·.name.name)).Nodup

theorem FieldsOf.congr {ds : List FieldDecl} {fs : List Field} (h : FieldsOf s ds fs)
    (s' : TypeScope) (hr : s.references = s'.references) (hm : s.module = s'.module)
    (hs : ∀ name, (s.shape? name).isSome = (s'.shape? name).isSome) : FieldsOf s' ds fs := by
  refine ⟨h.each.imp fun d f hf => ⟨hf.name, ?_⟩, h.names⟩
  have ht := hf.type
  rw [s.resolve_yields_iff] at ht
  rw [s'.resolve_yields_iff, ← TypeScope.admits_congr hr hm hs, ← hm]
  exact ht

theorem checkField_yields_iff {shape : String} {done done' : List Field} {d : FieldDecl} :
    (checkField s shape done d).Yields done' ↔
      d.name.name ∉ done.map (·.name) ∧ ∃ f, FieldOf s d f ∧ done' = done ++ [f] := by
  unfold checkField
  by_cases hn : d.name.name ∈ done.map (·.name)
  · have hn' : done.any (·.name == d.name.name) = true := by simpa using hn
    simp [hn, hn', yields_bind, Problem.isError, Problem.severity]
  · have hn' : ¬ done.any (·.name == d.name.name) = true := by simpa using hn
    rw [if_neg hn']
    simp only [yields_bind, (s.resolve_loud false d.type).yields_attempt, hn, not_false_iff,
      true_and]
    constructor
    · rintro ⟨_, ⟨t, ht, rfl⟩, h⟩
      exact ⟨⟨d.name.name, t⟩, ⟨rfl, ht⟩, (yields_pure.mp h).symm⟩
    · rintro ⟨f, hf, rfl⟩
      refine ⟨_, ⟨f.type, hf.type, rfl⟩, yields_pure.mpr ?_⟩
      rw [← hf.name]

theorem checkField_loud (shape : String) (done : List Field) (d : FieldDecl) :
    (checkField s shape done d).Loud := by
  unfold checkField
  split
  · exact (loud_note _ _).bind fun _ _ => loud_pure _
  · refine Loud.attempt.bind fun o _ => ?_
    split <;> exact loud_pure _

theorem foldlM_checkField_yields_iff {shape : String} {ds : List FieldDecl}
    {done done' : List Field} :
    (ds.foldlM (checkField s shape) done).Yields done' ↔
      ∃ fs, FieldsOf s ds fs ∧ (∀ d ∈ ds, d.name.name ∉ done.map (·.name)) ∧ done' = done ++ fs := by
  induction ds generalizing done with
  | nil =>
    rw [List.foldlM_nil, yields_pure]
    constructor
    · rintro rfl
      exact ⟨[], ⟨.nil, List.nodup_nil⟩, by simp⟩
    · rintro ⟨_, ⟨⟨⟩, -⟩, -, rfl⟩
      simp
  | cons d ds ih =>
    simp only [yields_foldlM_cons, checkField_yields_iff, ih]
    constructor
    · rintro ⟨_, ⟨hnew, f, hf, rfl⟩, fs, hfs, hfresh, rfl⟩
      have hfresh' : ∀ d' ∈ ds, d'.name.name ∉ done.map (·.name) ∧ d'.name.name ≠ d.name.name := by
        intro d' hd'
        simpa [hf.name, not_or] using hfresh d' hd'
      refine ⟨f :: fs, ⟨.cons hf hfs.each, ?_⟩, ?_, by simp⟩
      · simp only [List.map_cons, List.nodup_cons, List.mem_map, not_exists, not_and]
        exact ⟨fun d' hd' => (hfresh' d' hd').2, hfs.names⟩
      · simp only [List.mem_cons, forall_eq_or_imp]
        exact ⟨hnew, fun d' hd' => (hfresh' d' hd').1⟩
    · rintro ⟨_, ⟨hfs, hn⟩, hfresh, rfl⟩
      obtain _ | @⟨_, f, _, fs, hf, hfs⟩ := hfs
      simp only [List.map_cons, List.nodup_cons, List.mem_map, not_exists, not_and] at hn
      simp only [List.mem_cons, forall_eq_or_imp] at hfresh
      refine ⟨_, ⟨hfresh.1, f, hf, rfl⟩, fs, ⟨hfs, hn.2⟩, fun d' hd' => ?_, by simp⟩
      simp only [List.map_append, List.map_cons, List.map_nil, List.mem_append,
        List.mem_singleton, not_or, hf.name]
      exact ⟨hfresh.2 d' hd', hn.1 d' hd'⟩

/-- A shape is accepted if its fields are; its attributes have no effect. -/
theorem checkShape_yields_iff {d : ShapeDecl} {fs : List Field} :
    (checkShape s d).Yields fs ↔ FieldsOf s d.fields fs := by
  rw [checkShape, yields_bind]
  have hattrs : (d.attributes.forM fun a =>
      Checked.note (.unknownAttribute a.name.name) a.span).Yields () :=
    yields_forM.mpr fun _ _ => yields_note.mpr rfl
  constructor
  · rintro ⟨_, -, h⟩
    obtain ⟨fs', hfs, -, rfl⟩ := foldlM_checkField_yields_iff.mp h
    simpa using hfs
  · intro hfs
    exact ⟨(), hattrs, foldlM_checkField_yields_iff.mpr ⟨fs, hfs, by simp, by simp⟩⟩

theorem checkShape_loud (d : ShapeDecl) : (checkShape s d).Loud :=
  (Loud.forM (fun _ => loud_note _ _) _).bind fun _ _ => .foldlM (checkField_loud _) _ _

theorem mem_declaredShapes {parsed : List ParsedUnit} {d : SourceUnit × ShapeDecl} :
    d ∈ declaredShapes parsed ↔ ∃ p ∈ parsed, p.unit = d.1 ∧ .shape d.2 ∈ p.items := by
  obtain ⟨u, d⟩ := d
  simp only [declaredShapes, List.mem_flatMap, List.mem_filterMap]
  refine exists_congr fun p => and_congr_right fun _ => ⟨?_, ?_⟩
  · rintro ⟨i, hi, h⟩
    cases i <;> cases h
    exact ⟨rfl, hi⟩
  · rintro ⟨rfl, hi⟩
    exact ⟨_, hi, rfl⟩

theorem mem_declaredOps {parsed : List ParsedUnit} {d : SourceUnit × OpDecl} :
    d ∈ declaredOps parsed ↔ ∃ p ∈ parsed, p.unit = d.1 ∧ .op d.2 ∈ p.items := by
  obtain ⟨u, d⟩ := d
  simp only [declaredOps, List.mem_flatMap, List.mem_filterMap]
  refine exists_congr fun p => and_congr_right fun _ => ⟨?_, ?_⟩
  · rintro ⟨i, hi, h⟩
    cases i <;> cases h
    exact ⟨rfl, hi⟩
  · rintro ⟨rfl, hi⟩
    exact ⟨_, hi, rfl⟩

theorem isError_diagnostic (u : SourceUnit) (f : Finding) :
    (Finding.diagnostic u f).isError = f.problem.isError := rfl

/-- No declaration is lost, and none is made up. -/
theorem splitRepeated_perm {α : Type} (name : α → String) (seen : List String) (as : List α) :
    ((splitRepeated name seen as).1 ++ (splitRepeated name seen as).2).Perm as := by
  induction as generalizing seen with
  | nil => exact .refl _
  | cons a as ih =>
    rw [splitRepeated]
    split
    · exact List.perm_middle.trans ((ih seen).cons a)
    · exact (ih (name a :: seen)).cons a

theorem splitRepeated_nil_iff {α : Type} {name : α → String} {seen : List String} {as : List α} :
    (splitRepeated name seen as).2 = [] ↔
      (as.map name).Nodup ∧ ∀ a ∈ as, name a ∉ seen := by
  induction as generalizing seen with
  | nil => simp [splitRepeated]
  | cons a as ih =>
    rw [splitRepeated]
    split
    · rename_i h
      simp at h
      simp [h]
    · rename_i h
      simp at h
      simp only [ih, List.mem_cons, not_or, List.map_cons, List.nodup_cons, List.mem_map, not_exists,
        not_and, forall_eq_or_imp]
      constructor
      · rintro ⟨hn, hfresh⟩
        exact ⟨⟨fun b hb => (hfresh b hb).1, hn⟩, h, fun b hb => (hfresh b hb).2⟩
      · rintro ⟨⟨hne, hn⟩, -, hfresh⟩
        exact ⟨hn, fun b hb => ⟨hne b hb, hfresh b hb⟩⟩

theorem splitRepeated_of_nil {α : Type} {name : α → String} {seen : List String} {as : List α}
    (h : (splitRepeated name seen as).2 = []) : (splitRepeated name seen as).1 = as := by
  induction as generalizing seen with
  | nil => rfl
  | cons a as ih =>
    rw [splitRepeated] at h ⊢
    split
    · rename_i hc
      rw [if_pos hc] at h
      cases h
    · rename_i hc
      rw [if_neg hc] at h
      exact congrArg (a :: ·) (ih h)

/-- All operations are checked without an error if their names differ and each is accepted. -/
theorem checkOps_clean_iff {seen : List String} {ops : List (SourceUnit × OpDecl)} :
    (∀ d ∈ (checkOps s seen ops).2, d.isError = false) ↔
      (ops.map opName).Nodup ∧ (∀ d ∈ ops, opName d ∉ seen) ∧ ∀ d ∈ ops, (checkOp s d.2).Clean := by
  induction ops generalizing seen with
  | nil => simp [checkOps]
  | cons d ops ih =>
    obtain ⟨u, op⟩ := d
    rw [checkOps]
    split
    · rename_i h
      simp at h
      simp [isError_diagnostic, Problem.isError, Problem.severity, opName, h]
    · rename_i h
      have h : op.name.name ∉ seen := by simpa using h
      have hc : (∀ d ∈ (checkOp s op).findings.map (Finding.diagnostic u), d.isError = false) ↔
          (checkOp s op).Clean := by
        simp [Checked.Clean, isError_diagnostic]
      rw [List.forall_mem_append, hc, ih]
      simp only [List.mem_cons, not_or, List.map_cons, List.nodup_cons, List.mem_map, not_exists,
        not_and, forall_eq_or_imp]
      constructor
      · rintro ⟨hop, hn, hfresh, hclean⟩
        exact ⟨⟨fun b hb => (hfresh b hb).1, hn⟩, ⟨h, fun b hb => (hfresh b hb).2⟩, hop, hclean⟩
      · rintro ⟨⟨hne, hn⟩, ⟨-, hfresh⟩, hop, hclean⟩
        exact ⟨hop, hn, fun b hb => ⟨hne b hb, hfresh b hb⟩, hclean⟩

theorem checkOps_images {seen : List String} {ops : List (SourceUnit × OpDecl)}
    (h : ∀ d ∈ (checkOps s seen ops).2, d.isError = false) :
    List.Forall₂ (fun d image => (checkOp s d.2).Yields image) ops (checkOps s seen ops).1 := by
  induction ops generalizing seen with
  | nil => exact .nil
  | cons d ops ih =>
    obtain ⟨u, op⟩ := d
    have hclean := checkOps_clean_iff.mp h
    have hnew : seen.contains op.name.name = false := by
      simpa [opName] using hclean.2.1 (u, op) (by simp)
    obtain ⟨image, himage⟩ := checkOp_loud (hclean.2.2 (u, op) (by simp))
    rw [checkOps] at h ⊢
    simp only [hnew, Bool.false_eq_true, if_false, himage.1, Option.toList_some,
      List.singleton_append] at h ⊢
    exact .cons himage (ih fun d hd => h d (by simp [hd]))

end

/-- The scope that a module's own shapes make together with the references. -/
def scopeOf (references : ReferenceSet) (module : ModuleId) (shapes : List ShapeImage) : TypeScope :=
  ⟨references, module, shapes.map fun i => (i.name, i.fields)⟩

/-- The image of a shape: its name, and its fields. -/
structure ShapeOf (s : TypeScope) (d : SourceUnit × ShapeDecl) (image : ShapeImage) : Prop where
  name : image.name = shapeName d
  fields : FieldsOf s d.2.fields image.fields

/-- What comes of declarations in which there is no error. -/
structure ProgramOf (references : ReferenceSet) (module : ModuleId) (units : List ParsedUnit)
    (p : CheckedProgram) : Prop where
  shapes : List.Forall₂ (ShapeOf (scopeOf references module p.shapes)) (declaredShapes units) p.shapes
  shapeNames : ((declaredShapes units).map shapeName).Nodup
  operations : List.Forall₂ (fun d image =>
    (checkOp (scopeOf references module p.shapes) d.2).Yields image) (declaredOps units) p.operations
  opNames : ((declaredOps units).map opName).Nodup

/-- The scope in which the fields of shapes are checked: it knows only their names. -/
def nameScope (references : ReferenceSet) (module : ModuleId) (units : List ParsedUnit) :
    TypeScope :=
  ⟨references, module,
    (splitRepeated shapeName [] (declaredShapes units)).1.map fun d => (shapeName d, [])⟩

theorem checkProgram_shapes (references : ReferenceSet) (module : ModuleId)
    (units : List ParsedUnit) :
    (checkProgram references module units).shapes =
      (splitRepeated shapeName [] (declaredShapes units)).1.map fun d =>
        ⟨shapeName d, (checkShape (nameScope references module units) d.2).value.getD []⟩ := by
  simp [checkProgram, nameScope, shapeName]

theorem checkProgram_operations (references : ReferenceSet) (module : ModuleId)
    (units : List ParsedUnit) :
    (checkProgram references module units).operations =
      (checkOps (scopeOf references module (checkProgram references module units).shapes) []
        (declaredOps units)).1 := by
  simp [checkProgram, scopeOf, Function.comp_def]

theorem checkProgram_diagnostics (references : ReferenceSet) (module : ModuleId)
    (units : List ParsedUnit) :
    (checkProgram references module units).diagnostics =
      (splitRepeated shapeName [] (declaredShapes units)).2.map (fun d =>
        Finding.diagnostic d.1 ⟨.duplicateShape d.2.name.name, d.2.name.span⟩) ++
      (splitRepeated shapeName [] (declaredShapes units)).1.flatMap (fun d =>
        (checkShape (nameScope references module units) d.2).findings.map
          (Finding.diagnostic d.1)) ++
      (checkOps (scopeOf references module (checkProgram references module units).shapes) []
        (declaredOps units)).2 := by
  simp [checkProgram, scopeOf, nameScope, List.flatMap_map, Function.comp_def]

theorem shape?_isSome_iff {s : TypeScope} {name : String} :
    (s.shape? name).isSome ↔ name ∈ s.shapes.map (·.1) := by
  simp [TypeScope.shape?, List.find?_isSome]

/-- Images of all shapes make a scope with the names of all shapes. -/
theorem nameScope_shape? {references : ReferenceSet} {module : ModuleId} {units : List ParsedUnit}
    {shapes : List ShapeImage}
    (h : shapes.map (·.name) = (splitRepeated shapeName [] (declaredShapes units)).1.map shapeName)
    (name : String) :
    ((nameScope references module units).shape? name).isSome =
      ((scopeOf references module shapes).shape? name).isSome := by
  rw [Bool.eq_iff_iff, shape?_isSome_iff, shape?_isSome_iff, scopeOf, nameScope, List.map_map,
    List.map_map]
  exact iff_of_eq (congrArg (name ∈ ·) h.symm)

theorem repeated_clean_iff {shapes : List (SourceUnit × ShapeDecl)} :
    (∀ d ∈ shapes.map fun d =>
      Finding.diagnostic d.1 ⟨.duplicateShape d.2.name.name, d.2.name.span⟩, d.isError = false) ↔
      shapes = [] := by
  cases shapes <;> simp [isError_diagnostic, Problem.isError, Problem.severity]

theorem shapes_clean_iff {s : TypeScope} {shapes : List (SourceUnit × ShapeDecl)} :
    (∀ d ∈ shapes.flatMap fun d => (checkShape s d.2).findings.map (Finding.diagnostic d.1),
      d.isError = false) ↔ ∀ d ∈ shapes, (checkShape s d.2).Clean := by
  constructor
  · intro h d hd f hf
    exact h _ (List.mem_flatMap.mpr ⟨d, hd, List.mem_map_of_mem hf⟩)
  · intro h d hd
    obtain ⟨d', hd', hf⟩ := List.mem_flatMap.mp hd
    obtain ⟨f, hf', rfl⟩ := List.mem_map.mp hf
    exact h d' hd' f hf'

/-- Without an error there is an image for every declaration. -/
theorem checkProgram_sound {references : ReferenceSet} {module : ModuleId}
    {units : List ParsedUnit}
    (h : ∀ d ∈ (checkProgram references module units).diagnostics, d.isError = false) :
    ProgramOf references module units (checkProgram references module units) := by
  rw [checkProgram_diagnostics, List.forall_mem_append, List.forall_mem_append, repeated_clean_iff,
    shapes_clean_iff] at h
  obtain ⟨⟨hrepeated, hshapes⟩, hops⟩ := h
  have hnames := (splitRepeated_nil_iff.mp hrepeated).1
  have hfirst := splitRepeated_of_nil hrepeated
  have hnameScope : ∀ name, ((nameScope references module units).shape? name).isSome =
      ((scopeOf references module (checkProgram references module units).shapes).shape?
        name).isSome :=
    nameScope_shape? (by rw [checkProgram_shapes, List.map_map]; rfl)
  refine ⟨?_, hnames, ?_, (checkOps_clean_iff.mp hops).1⟩
  · rw [hfirst] at hshapes
    have hall : ∀ d ∈ declaredShapes units,
        ShapeOf (scopeOf references module (checkProgram references module units).shapes) d
          ⟨shapeName d, (checkShape (nameScope references module units) d.2).value.getD []⟩ := by
      intro d hd
      obtain ⟨fs, hfs⟩ := checkShape_loud d.2 (hshapes d hd)
      refine ⟨rfl, ?_⟩
      rw [hfs.1]
      exact (checkShape_yields_iff.mp hfs).congr _ rfl rfl hnameScope
    rw [checkProgram_shapes, hfirst, List.forall₂_map_right_iff, List.forall₂_same]
    rw [checkProgram_shapes, hfirst] at hall
    exact hall
  · rw [checkProgram_operations]
    exact checkOps_images hops

/-- Images of all declarations are what a check comes to, without an error. -/
theorem checkProgram_complete {references : ReferenceSet} {module : ModuleId}
    {units : List ParsedUnit} {p : CheckedProgram} (h : ProgramOf references module units p) :
    (checkProgram references module units).shapes = p.shapes ∧
      (checkProgram references module units).operations = p.operations ∧
      ∀ d ∈ (checkProgram references module units).diagnostics, d.isError = false := by
  have hrepeated : (splitRepeated shapeName [] (declaredShapes units)).2 = [] :=
    splitRepeated_nil_iff.mpr ⟨h.shapeNames, by simp⟩
  have hfirst := splitRepeated_of_nil hrepeated
  have hnameScope : ∀ name, ((nameScope references module units).shape? name).isSome =
      ((scopeOf references module p.shapes).shape? name).isSome :=
    nameScope_shape? (by rw [hfirst]; exact map_eq_map_of_forall₂ (fun _ _ hd => hd.name) h.shapes)
  have hyields : List.Forall₂ (fun d image => image.name = shapeName d ∧
      (checkShape (nameScope references module units) d.2).Yields image.fields)
      (declaredShapes units) p.shapes :=
    h.shapes.imp fun d image hd => ⟨hd.name, checkShape_yields_iff.mpr
      (hd.fields.congr _ rfl rfl fun name => (hnameScope name).symm)⟩
  -- Shapes are checked where only their names are known, operations where their fields are too.
  have hshapes : (checkProgram references module units).shapes = p.shapes := by
    rw [checkProgram_shapes, hfirst]
    refine (map_eq_map_of_forall₂ (g := id) (fun d image hd => ?_) hyields).symm.trans (List.map_id _)
    simp only [id, hd.2.1, Option.getD_some, ← hd.1]
  have hclean : ∀ d ∈ declaredOps units, (checkOp (scopeOf references module p.shapes) d.2).Clean := by
    intro d hd
    obtain ⟨image, -, hy⟩ := exists_right_of_forall₂ h.operations hd
    exact hy.2
  have hops : ∀ d ∈ (checkOps (scopeOf references module p.shapes) [] (declaredOps units)).2,
      d.isError = false := checkOps_clean_iff.mpr ⟨h.opNames, by simp, hclean⟩
  refine ⟨hshapes, ?_, ?_⟩
  · rw [checkProgram_operations, hshapes]
    exact (List.right_unique_forall₂' (fun _ _ _ hy hy' => hy.unique hy') (checkOps_images hops)
      h.operations)
  · rw [checkProgram_diagnostics, List.forall_mem_append, List.forall_mem_append,
      repeated_clean_iff, shapes_clean_iff, hshapes, hfirst]
    refine ⟨⟨hrepeated, fun d hd => ?_⟩, hops⟩
    obtain ⟨_, -, hy⟩ := exists_right_of_forall₂ hyields hd
    exact hy.2.2

end EndpointCompiler
