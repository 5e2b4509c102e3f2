import EndpointCompiler.Proofs.Checking.Bare
import EndpointCompiler.Proofs.Checking.Extension
import EndpointCompiler.Proofs.Compilation.Modes

/-! Compilation of the same declarations in another layout. Only what is declared counts, not in
which units, in which order or at which places. -/

namespace EndpointCompiler

open Source Checked

/-- What is declared in units, without the places where it is declared. -/
def bareItems (parsed : List ParsedUnit) : List Item :=
  (parsed.flatMap (·.items)).map (·.bare)

def Source.Item.shape? : Item → Option ShapeDecl
  | .shape d => some d
  | .op _ => none

def Source.Item.op? : Item → Option OpDecl
  | .shape _ => none
  | .op d => some d

theorem declaredShapes_bare (parsed : List ParsedUnit) :
    (declaredShapes parsed).map (·.2.bare) = (bareItems parsed).filterMap Item.shape? := by
  simp only [declaredShapes, bareItems, List.map_flatMap, List.filterMap_map, List.map_filterMap,
    List.filterMap_flatMap]
  refine List.flatMap_congr fun p _ => List.filterMap_congr fun i _ => ?_
  cases i <;> rfl

theorem declaredOps_bare (parsed : List ParsedUnit) :
    (declaredOps parsed).map (·.2.bare) = (bareItems parsed).filterMap Item.op? := by
  simp only [declaredOps, bareItems, List.map_flatMap, List.filterMap_map, List.map_filterMap,
    List.filterMap_flatMap]
  refine List.flatMap_congr fun p _ => List.filterMap_congr fun i _ => ?_
  cases i <;> rfl

section

variable {parsed parsed' : List ParsedUnit}

theorem declaredShapes_perm (h : (bareItems parsed').Perm (bareItems parsed)) :
    ((declaredShapes parsed').map (·.2.bare)).Perm ((declaredShapes parsed).map (·.2.bare)) := by
  rw [declaredShapes_bare, declaredShapes_bare]
  exact h.filterMap _

theorem declaredOps_perm (h : (bareItems parsed').Perm (bareItems parsed)) :
    ((declaredOps parsed').map (·.2.bare)).Perm ((declaredOps parsed).map (·.2.bare)) := by
  rw [declaredOps_bare, declaredOps_bare]
  exact h.filterMap _

theorem shapeNames_perm (h : (bareItems parsed').Perm (bareItems parsed)) :
    ((declaredShapes parsed').map shapeName).Perm ((declaredShapes parsed).map shapeName) := by
  have hnames := (declaredShapes_perm h).map (·.name.name)
  rwa [List.map_map, List.map_map] at hnames

theorem opNames_perm (h : (bareItems parsed').Perm (bareItems parsed)) :
    ((declaredOps parsed').map opName).Perm ((declaredOps parsed).map opName) := by
  have hnames := (declaredOps_perm h).map (·.name.name)
  rwa [List.map_map, List.map_map] at hnames

end

section

variable {s : TypeScope}

theorem checkShape_yields_bare {d : ShapeDecl} {fs : List Field} :
    (checkShape s d.bare).Yields fs ↔ (checkShape s d).Yields fs := by
  rw [← checkShape_bare, bare_id_yields]

theorem checkOp_yields_bare {d : OpDecl} {image : OperationImage} :
    (checkOp s d.bare).Yields image ↔ (checkOp s d).Yields image := by
  rw [← checkOp_bare, bare_id_yields]

theorem ShapeOf.of_bare {d d' : SourceUnit × ShapeDecl} {image : ShapeImage}
    (h : ShapeOf s d image) (hd : d'.2.bare = d.2.bare) : ShapeOf s d' image := by
  have hname : shapeName d' = shapeName d := congrArg (·.name.name) hd
  have hfields : (checkShape s d'.2).Yields image.fields := by
    rw [← checkShape_yields_bare, hd, checkShape_yields_bare, checkShape_yields_iff]
    exact h.fields
  exact ⟨h.name.trans hname.symm, checkShape_yields_iff.mp hfields⟩

end

section

variable {references : ReferenceSet} {module : ModuleId} {shapes shapes' : List ShapeImage}

theorem scopeOf_shape?_eq_some_iff (hn : (shapes.map (·.name)).Nodup) {name : String}
    {fields : List Field} :
    (scopeOf references module shapes).shape? name = some fields ↔ ⟨name, fields⟩ ∈ shapes := by
  have hfind : (scopeOf references module shapes).shape? name =
      (shapes.find? (·.name == name)).map (·.fields) := by
    rw [TypeScope.shape?, scopeOf, List.find?_map, Option.map_map]
    rfl
  rw [hfind, Option.map_eq_some_iff]
  constructor
  · rintro ⟨i, hi, rfl⟩
    have hname : i.name = name := by simpa using List.find?_some hi
    exact hname ▸ List.mem_of_find?_eq_some hi
  · intro hmem
    exact ⟨_, find?_of_nodup_map hn hmem, rfl⟩

theorem scopeOf_extendedBy (hn : (shapes.map (·.name)).Nodup) (hp : shapes'.Perm shapes) :
    (scopeOf references module shapes).ExtendedBy (scopeOf references module shapes') := by
  have hn' : (shapes'.map (·.name)).Nodup := (hp.map _).nodup_iff.mpr hn
  refine ⟨rfl, fun name => Option.ext fun fields => ?_, fun _ _ hm => hm⟩
  rw [scopeOf_shape?_eq_some_iff hn, scopeOf_shape?_eq_some_iff hn', hp.mem_iff]

end

/-- The same declarations in another layout have the same images, in another order. -/
theorem ProgramOf.rearrange {references : ReferenceSet} {module : ModuleId}
    {parsed parsed' : List ParsedUnit} {p : CheckedProgram}
    (hp : ProgramOf references module parsed p)
    (h : (bareItems parsed').Perm (bareItems parsed)) :
    ∃ p', ProgramOf references module parsed' p' ∧ p'.shapes.Perm p.shapes ∧
      p'.operations.Perm p.operations := by
  have hshape : ∀ (d d' : SourceUnit × ShapeDecl) (image : ShapeImage), d'.2.bare = d.2.bare →
      ShapeOf (scopeOf references module p.shapes) d image →
      ShapeOf (scopeOf references module p.shapes) d' image := fun _ _ _ hd hi => hi.of_bare hd
  obtain ⟨shapes, hshapes, hshapesOf⟩ := exists_perm_of_forall₂ hshape hp.shapes
    (declaredShapes_perm h)
  have hnames : (p.shapes.map (·.name)).Nodup := by
    rw [map_eq_map_of_forall₂ (fun _ _ hi => hi.name) hp.shapes]
    exact hp.shapeNames
  have hscope : (scopeOf references module p.shapes).ExtendedBy
      (scopeOf references module shapes) := scopeOf_extendedBy hnames hshapes
  -- Places are forgotten first, in the old scope; the new scope has the same shapes.
  have hop : ∀ (d d' : SourceUnit × OpDecl) (image : OperationImage), d'.2.bare = d.2.bare →
      (checkOp (scopeOf references module p.shapes) d.2).Yields image →
      (checkOp (scopeOf references module p.shapes) d'.2).Yields image := by
    intro d d' image hd hi
    rwa [← checkOp_yields_bare, hd, checkOp_yields_bare]
  obtain ⟨operations, hoperations, hyields⟩ := exists_perm_of_forall₂ hop hp.operations
    (declaredOps_perm h)
  refine ⟨⟨shapes, operations, []⟩, ?_, hshapes, hoperations⟩
  exact {
    shapes := hshapesOf.imp fun d _ hi => ⟨hi.name, hi.fields.congr _ rfl rfl fun name =>
      congrArg Option.isSome (hscope.shape? name).symm⟩
    shapeNames := (shapeNames_perm h).nodup_iff.mpr hp.shapeNames
    operations := hyields.imp fun d image hi => checkOp_keptBy hscope d.2 hi.2 ▸ hi
    opNames := (opNames_perm h).nodup_iff.mpr hp.opNames }

/-- Images that differ at most in the order of their shapes and operations, all of which have names
of their own. -/
structure ModuleImage.Rearranged (m m' : ModuleImage) : Prop where
  format : m'.format = m.format
  module : m'.module = m.module
  controller : m'.controller = m.controller
  shapes : m'.shapes.Perm m.shapes
  shapeNames : (m.shapes.map (·.name)).Nodup
  operations : m'.operations.Perm m.operations
  operationNames : (m.operations.map (·.name)).Nodup

theorem OperationImage.inlineLocals_name (op : OperationImage) :
    op.inlineLocals.name = op.name := by
  unfold inlineLocals
  split <;> rfl

section

variable {references : ReferenceSet} {o : CompileOptions} {units units' : List SourceUnit}
  {parsed parsed' : List ParsedUnit} {p p' : CheckedProgram}

theorem ProgramOf.image_rearranged (hp : ProgramOf references o.module parsed p)
    (hs : p'.shapes.Perm p.shapes) (ho : p'.operations.Perm p.operations) :
    (p.image o).Rearranged (p'.image o) := by
  have hname : ∀ (d : SourceUnit × OpDecl) (image : OperationImage),
      (checkOp (scopeOf references o.module p.shapes) d.2).Yields image → image.name = opName d :=
    fun _ _ hi => (checkOp_sound hi).name
  have hnames : (p.operations.map (·.name)).Nodup := by
    rw [map_eq_map_of_forall₂ hname hp.operations]
    exact hp.opNames
  refine ⟨rfl, rfl, rfl, hs, ?_, ?_, ?_⟩
  · rw [CheckedProgram.image, map_eq_map_of_forall₂ (fun _ _ hi => hi.name) hp.shapes]
    exact hp.shapeNames
  · rw [CheckedProgram.image, CheckedProgram.image]
    cases o.mode with
    | debug => exact ho
    | release => exact ho.map _
  · rw [CheckedProgram.image]
    cases o.mode with
    | debug => exact hnames
    | release => simpa [Function.comp_def, OperationImage.inlineLocals_name] using hnames

/-- What is emitted for declarations is emitted for them in another layout, rearranged. -/
theorem emitPlaced_rearrange (hu : List.Forall₂ Parses units parsed)
    (hu' : List.Forall₂ Parses units' parsed')
    (hsame : (bareItems parsed').Perm (bareItems parsed)) {files : FileTree} (files' : FileTree)
    {e : Emission} (h : emitPlaced references o units files = .ok e) :
    ∃ e', emitPlaced references o units' files' = .ok e' ∧ e.image.Rearranged e'.image := by
  obtain ⟨parsed₁, p, hparsed, hp, himage⟩ := emitPlaced_sound h
  obtain rfl : parsed₁ = parsed := by
    have heq := (parseUnits_of_parses hparsed).symm.trans (parseUnits_of_parses hu)
    exact congrArg Prod.fst heq
  obtain ⟨p', hp', hs, ho⟩ := hp.rearrange hsame
  obtain ⟨e', he', himage'⟩ := emitPlaced_complete files' hu' hp'
  exact ⟨e', he', himage ▸ himage' ▸ hp.image_rearranged hs ho⟩

/-- Units that declare the same, in whatever layout, compile or fail together, and what they compile
to has the same shapes and the same operations. -/
theorem compile_layout (hu : List.Forall₂ Parses units parsed)
    (hu' : List.Forall₂ Parses units' parsed')
    (hsame : (bareItems parsed').Perm (bareItems parsed)) (files files' : FileTree) :
    (∃ e e', compilePlaced references o units files = .error e ∧
      compilePlaced references o units' files' = .error e') ∨
    ∃ e e', emitPlaced references o units files = .ok e ∧
      emitPlaced references o units' files' = .ok e' ∧
      compilePlaced references o units files = .ok (e.artifact o (o.place units files).1) ∧
      compilePlaced references o units' files' = .ok (e'.artifact o (o.place units' files').1) ∧
      e.image.Rearranged e'.image := by
  cases h : emitPlaced references o units files with
  | ok e =>
    obtain ⟨e', h', hrearranged⟩ := emitPlaced_rearrange hu hu' hsame files' h
    exact .inr ⟨e, e', rfl, h', compilePlaced_ok h, compilePlaced_ok h', hrearranged⟩
  | error ds =>
    cases h' : emitPlaced references o units' files' with
    | ok e' =>
      obtain ⟨e, he, -⟩ := emitPlaced_rearrange hu' hu hsame.symm files h'
      rw [h] at he
      cases he
    | error ds' => exact .inl ⟨_, _, compilePlaced_error h, compilePlaced_error h'⟩

end

theorem bareItems_reverse_perm (parsed : List ParsedUnit) :
    (bareItems parsed.reverse).Perm (bareItems parsed) :=
  ((List.reverse_perm parsed).flatMap_right _).map _

/-- A shape in a unit of its own, after the unit with the operation that makes it. -/
def scatteredUnits : List SourceUnit :=
  [⟨"echo",
    "#[http(GET, \"/\")] op f(#[query] n: core::Int) -> core::Int " ++
      "\x7b let s = new S \x7b n = n \x7d; return process::<S, core::Int>(s); \x7d",
    none⟩,
    ⟨"shapes", "shape S \x7b n: core::Int \x7d", none⟩]

theorem compile_layout_reversed :
    ∃ e e', emitPlaced ⟨[Catalog.core]⟩ echoOptions scatteredUnits ⟨[], []⟩ = .ok e ∧
      emitPlaced ⟨[Catalog.core]⟩ echoOptions scatteredUnits.reverse ⟨[], []⟩ = .ok e' ∧
      e.image.Rearranged e'.image := by
  obtain ⟨e, he⟩ : ∃ e, emitPlaced ⟨[Catalog.core]⟩ echoOptions scatteredUnits ⟨[], []⟩ = .ok e :=
    exists_eq_ok (by decide +kernel)
  obtain ⟨parsed, -, hparsed, -⟩ := emitPlaced_sound he
  have hreversed := List.forall₂_reverse_iff.mpr hparsed
  rcases @compile_layout ⟨[Catalog.core]⟩ echoOptions _ _ _ _ hparsed hreversed
    (bareItems_reverse_perm parsed) ⟨[], []⟩ ⟨[], []⟩ with
    ⟨failure, -, hfails, -⟩ | ⟨e₁, e₂, h₁, h₂, -, -, hrearranged⟩
  · cases (compilePlaced_ok he).symm.trans hfails
  · exact ⟨e₁, e₂, h₁, h₂, hrearranged⟩

end EndpointCompiler
