import EndpointCompiler.Proofs.Compilation.ImageTypes
import EndpointCompiler.Proofs.Compilation.Soundness
import EndpointCompiler.Proofs.Image.Loading
import EndpointCompiler.Proofs.Image.Text

/-! Debug and release builds. Files make no difference to what is found in units, and locals make
none to what operations do, so modules of both modes cannot be told apart by their calls. -/

namespace EndpointCompiler

open Source Checked

/-- A unit without the file that it was written to. -/
def SourceUnit.unplaced (u : SourceUnit) : SourceUnit :=
  { u with path := none }

def ParsedUnit.unplaced (p : ParsedUnit) : ParsedUnit :=
  { p with unit := p.unit.unplaced }

section

variable {units : List SourceUnit} {files : FileTree}

theorem SourceUnit.place_unplaced (dir filePrefix : String) (u : SourceUnit) (files : FileTree) :
    (u.place dir filePrefix files).1.unplaced = u.unplaced := by
  unfold place
  dsimp only
  split <;> rfl

theorem placeUnits_unplaced (dir filePrefix : String) (units : List SourceUnit)
    (files : FileTree) :
    (placeUnits dir filePrefix units files).1.map (·.unplaced) = units.map (·.unplaced) := by
  induction units generalizing files with
  | nil => rfl
  | cons u units ih =>
    simp only [placeUnits, List.map_cons, ih, SourceUnit.place_unplaced]

/-- Units are what they were before, apart from their files. -/
theorem CompileOptions.place_unplaced (o : CompileOptions) (units : List SourceUnit)
    (files : FileTree) :
    (o.place units files).1.map (·.unplaced) = units.map (·.unplaced) := by
  unfold place
  split
  · rfl
  · dsimp only
    split
    · exact placeUnits_unplaced _ _ _ _
    · rfl

/-- A unit that is written to a file keeps its name and its text. -/
theorem CompileOptions.place_same (o : CompileOptions) (units : List SourceUnit) (files : FileTree)
    {u : SourceUnit} (hu : u ∈ (o.place units files).1) :
    ∃ u' ∈ units, u'.name = u.name ∧ u'.text = u.text := by
  have hmem : u.unplaced ∈ units.map (·.unplaced) := by
    rw [← o.place_unplaced units files]
    exact List.mem_map_of_mem hu
  obtain ⟨u', hu', hsame⟩ := List.mem_map.mp hmem
  obtain ⟨hname, htext, -⟩ := SourceUnit.mk.inj hsame
  exact ⟨u', hu', hname, htext⟩

theorem CompileOptions.place_names (o : CompileOptions) (units : List SourceUnit)
    (files : FileTree) : (o.place units files).1.map (·.name) = units.map (·.name) := by
  have hnames := congrArg (List.map (·.name)) (o.place_unplaced units files)
  rwa [List.map_map, List.map_map] at hnames

theorem parseUnits_unplaced (units : List SourceUnit) :
    parseUnits (units.map (·.unplaced)) =
      ((parseUnits units).1.map (·.unplaced), (parseUnits units).2) := by
  induction units with
  | nil => rfl
  | cons u units ih =>
    have htext : u.unplaced.text = u.text := rfl
    simp only [List.map_cons, parseUnits, ih, htext]
    cases parseSource u.text <;> rfl

theorem splitRepeated_map {α : Type} (name : α → String) {f : α → α}
    (hf : ∀ a, name (f a) = name a) (seen : List String) (as : List α) :
    splitRepeated name seen (as.map f) =
      ((splitRepeated name seen as).1.map f, (splitRepeated name seen as).2.map f) := by
  induction as generalizing seen with
  | nil => rfl
  | cons a as ih =>
    simp only [List.map_cons, splitRepeated, hf, ih]
    split <;> rfl

theorem declaredShapes_unplaced (parsed : List ParsedUnit) :
    declaredShapes (parsed.map (·.unplaced)) =
      (declaredShapes parsed).map fun d => (d.1.unplaced, d.2) := by
  simp only [declaredShapes, List.flatMap_map, List.map_flatMap, List.map_filterMap]
  refine List.flatMap_congr fun p _ => List.filterMap_congr fun i _ => ?_
  cases i <;> rfl

theorem declaredOps_unplaced (parsed : List ParsedUnit) :
    declaredOps (parsed.map (·.unplaced)) =
      (declaredOps parsed).map fun d => (d.1.unplaced, d.2) := by
  simp only [declaredOps, List.flatMap_map, List.map_flatMap, List.map_filterMap]
  refine List.flatMap_congr fun p _ => List.filterMap_congr fun i _ => ?_
  cases i <;> rfl

theorem diagnostic_unplaced (u : SourceUnit) :
    Finding.diagnostic u.unplaced = Finding.diagnostic u := rfl

theorem checkOps_unplaced (s : TypeScope) (seen : List String) (ops : List (SourceUnit × OpDecl)) :
    checkOps s seen (ops.map fun d => (d.1.unplaced, d.2)) = checkOps s seen ops := by
  induction ops generalizing seen with
  | nil => rfl
  | cons d ops ih =>
    obtain ⟨u, op⟩ := d
    simp only [List.map_cons, checkOps, ih, diagnostic_unplaced]

/-- Declarations are checked without regard to files. -/
theorem checkProgram_unplaced (references : ReferenceSet) (module : ModuleId)
    (parsed : List ParsedUnit) :
    checkProgram references module (parsed.map (·.unplaced)) =
      checkProgram references module parsed := by
  have hsplit := splitRepeated_map shapeName
    (f := fun d : SourceUnit × ShapeDecl => (d.1.unplaced, d.2))
    (fun _ => rfl) [] (declaredShapes parsed)
  simp only [checkProgram, declaredShapes_unplaced, declaredOps_unplaced, hsplit,
    checkOps_unplaced, List.map_map, List.flatMap_map, Function.comp_def, diagnostic_unplaced]
  rfl

theorem checkProgram_place (references : ReferenceSet) (module : ModuleId) (o : CompileOptions)
    (units : List SourceUnit) (files : FileTree) :
    checkProgram references module (parseUnits (o.place units files).1).1 =
        checkProgram references module (parseUnits units).1 ∧
      (parseUnits (o.place units files).1).2 = (parseUnits units).2 := by
  have hplaced := parseUnits_unplaced (o.place units files).1
  rw [o.place_unplaced, parseUnits_unplaced units, Prod.mk.injEq] at hplaced
  refine ⟨?_, hplaced.2.symm⟩
  rw [← checkProgram_unplaced, ← hplaced.1, checkProgram_unplaced]

end

/-- A compilation whose units are written to files first, if they are to be. -/
def compilePlaced (references : ReferenceSet) (o : CompileOptions) (units : List SourceUnit)
    (files : FileTree) : Except CompilationError Artifact :=
  compile references o (o.place units files).1

def emitPlaced (references : ReferenceSet) (o : CompileOptions) (units : List SourceUnit)
    (files : FileTree) : Except (List Diagnostic) Emission :=
  emit references o (o.place units files).1

section

variable {references : ReferenceSet} {o : CompileOptions} {units : List SourceUnit}
  {files : FileTree}

theorem compilePlaced_ok {e : Emission} (h : emitPlaced references o units files = .ok e) :
    compilePlaced references o units files = .ok (e.artifact o (o.place units files).1) :=
  compile_eq_ok_iff.mpr ⟨e, h, rfl⟩

theorem compilePlaced_error {ds : List Diagnostic}
    (h : emitPlaced references o units files = .error ds) :
    compilePlaced references o units files = .error ⟨ds, (o.place units files).1⟩ := by
  have h : emit references o (o.place units files).1 = .error ds := h
  rw [compilePlaced, compile, h]

end

theorem emitPlaced_sound {references : ReferenceSet} {o : CompileOptions} {units : List SourceUnit}
    {files : FileTree} {e : Emission} (h : emitPlaced references o units files = .ok e) :
    ∃ parsed p, List.Forall₂ Parses units parsed ∧ ProgramOf references o.module parsed p ∧
      e.image = p.image o := by
  obtain ⟨hprogram, hmalformed⟩ := checkProgram_place references o.module o units files
  obtain ⟨hclean, rfl⟩ := emit_eq_ok_iff.mp h
  rw [hprogram, hmalformed, List.forall_mem_append] at hclean
  exact ⟨_, _, parseUnits_parses hclean.1, checkProgram_sound hclean.2,
    congrArg (CheckedProgram.image · o) hprogram⟩

/-- Images of the declarations of all units are emitted, wherever the units are written to. -/
theorem emitPlaced_complete {references : ReferenceSet} {o : CompileOptions}
    {units : List SourceUnit} {parsed : List ParsedUnit} {p : CheckedProgram} (files : FileTree)
    (hu : List.Forall₂ Parses units parsed) (hp : ProgramOf references o.module parsed p) :
    ∃ e, emitPlaced references o units files = .ok e ∧ e.image = p.image o := by
  obtain ⟨hprogram, hmalformed⟩ := checkProgram_place references o.module o units files
  rw [parseUnits_of_parses hu] at hprogram hmalformed
  obtain ⟨hshapes, hops, hclean⟩ := checkProgram_complete hp
  refine ⟨_, emit_eq_ok_iff.mpr ⟨?_, rfl⟩, ?_⟩
  · rw [hprogram, hmalformed, List.nil_append]
    exact hclean
  · dsimp only
    rw [hprogram, CheckedProgram.image, CheckedProgram.image, hshapes, hops]

/-- The symbols of units that fit into memory can be read. -/
theorem emitPlaced_symbols_readable {references : ReferenceSet} {o : CompileOptions}
    {units : List SourceUnit} {files : FileTree} {e : Emission}
    (h : emitPlaced references o units files = .ok e)
    (htexts : ∀ u ∈ units, u.text.length < 2 ^ 63) (table : SymbolTable)
    (htable : e.symbols = some table) : table.toJson.Readable Json.maxDepth := by
  refine SymbolTable.readable (emit_symbols_placed h (fun u hu => ?_) htable)
  obtain ⟨u', hu', -, htext⟩ := o.place_same units files hu
  exact htext ▸ htexts u' hu'

/-- Operations that no call tells apart. -/
structure GeneratedOperation.Agrees (op op' : GeneratedOperation) : Prop where
  name : op'.name = op.name
  route : op'.route = op.route
  key : op'.key = op.key
  mode : op'.mode = op.mode
  request : ∀ call, op'.bridgeRequest call = op.bridgeRequest call

/-- A type without its operations. -/
def TypeInfo.declaration (t : TypeInfo) : TypeInfo :=
  { t with operations := [] }

/-- Modules with the same types, of which the controllers have operations that agree. -/
structure CompiledModule.Agrees (m m' : CompiledModule) : Prop where
  id : m'.module.id = m.module.id
  types : m'.module.types.map (·.declaration) = m.module.types.map (·.declaration)
  operations : ∃ ops ops', m.operations = ops.map .generated ∧ m'.operations = ops'.map .generated ∧
    List.Forall₂ GeneratedOperation.Agrees ops ops'

section

variable {references : ReferenceSet} {o : CompileOptions} {units : List SourceUnit}

theorem OperationImage.inlineLocals_method (op : OperationImage) :
    op.inlineLocals.method = op.method := by
  unfold inlineLocals
  split <;> rfl

/-- All methods in an emitted image are methods. -/
theorem emit_methods {e : Emission} (h : emit references o units = .ok e) :
    ∀ op ∈ e.image.operations, Method.ofToken? op.method = some ⟨op.method⟩ := by
  obtain ⟨parsed, p, -, hp, himage⟩ := emit_sound h
  have hmethods := hp.image_operations (o := o)
    (R := fun _ op => Method.ofToken? op.method = some ⟨op.method⟩)
    (fun _ _ hy => Method.ofToken?_of_supported (checkOp_sound hy).method)
    fun _ op hop => by rwa [op.inlineLocals_method]
  rw [← himage] at hmethods
  intro op hop
  obtain ⟨_, -, hmethod⟩ := exists_left_of_forall₂ hmethods hop
  exact hmethod

theorem emit_load {e : Emission} (h : emit references o units = .ok e) :
    e.image.load e.symbols = .ok (e.image.loaded e.symbols) :=
  ModuleImage.load_eq_ok_iff.mpr ⟨emit_methods h, rfl⟩

theorem load_emitted (hm : IsModulePath o.module) {e : Emission}
    (h : emit references o units = .ok e) (hr : e.Readable) :
    (e.artifact o units).load = .ok (e.image.loaded e.symbols) := by
  obtain ⟨_, _, -, -, himage⟩ := emit_sound h
  have hformat : e.image.format = imageFormat := by rw [himage, CheckedProgram.image]
  exact Emission.load_artifact (emit_legible hm h) hformat hr (emit_load h)

end

section

variable {m m' : ModuleImage} {symbols symbols' : Option SymbolTable}

theorem ModuleImage.shapeFields_congr (hs : m'.shapes = m.shapes) (name : String) :
    m'.shapeFields name = m.shapeFields name := by
  rw [shapeFields, shapeFields, hs]

theorem ModuleImage.boundParam_congr (hm : m'.module = m.module) (hs : m'.shapes = m.shapes) :
    m'.boundParam = m.boundParam := by
  funext p
  simp only [boundParam, hm, shapeFields_congr hs]

/-- An operation and the same without its locals bind alike, and hand on the same value. -/
theorem ModuleImage.loadedOperation_agrees (hm : m'.module = m.module) (hs : m'.shapes = m.shapes)
    (o : OperationImage) :
    (m.loadedOperation symbols o).Agrees (m'.loadedOperation symbols' o.inlineLocals) := by
  have hparams : o.inlineLocals.params = o.params := by
    unfold OperationImage.inlineLocals
    split <;> rfl
  have hcall : o.inlineLocals.call.request = o.call.request ∧
      o.inlineLocals.call.response = o.call.response ∧
      o.inlineLocals.call.isAsync = o.call.isAsync := by
    unfold OperationImage.inlineLocals
    split <;> exact ⟨rfl, rfl, rfl⟩
  have hkey : (m'.loadedOperation symbols' o.inlineLocals).key =
      (m.loadedOperation symbols o).key := by
    simp only [loadedOperation, GeneratedOperation.key, hcall]
  have hmode : (m'.loadedOperation symbols' o.inlineLocals).mode =
      (m.loadedOperation symbols o).mode := by
    have hasync : (m'.loadedOperation symbols' o.inlineLocals).call.isAsync =
      (m.loadedOperation symbols o).call.isAsync := hcall.2.2
    rw [GeneratedOperation.mode, GeneratedOperation.mode, hasync]
  refine ⟨?_, ?_, hkey, hmode, fun call => ?_⟩
  · unfold OperationImage.inlineLocals
    split <;> rfl
  · unfold OperationImage.inlineLocals
    split <;> rfl
  · have hbind : (m'.loadedOperation symbols' o.inlineLocals).bind call =
        (m.loadedOperation symbols o).bind call := by
      simp only [loadedOperation, GeneratedOperation.bind, hparams, boundParam_congr hm hs]
    simp only [GeneratedOperation.bridgeRequest, hbind, hkey, hmode, loadedOperation_evaluate,
      OperationImage.request_inlineLocals]

theorem ModuleImage.loaded_agrees (hm : m'.module = m.module) (hc : m'.controller = m.controller)
    (hs : m'.shapes = m.shapes) (ho : m'.operations = m.operations.map (·.inlineLocals)) :
    (m.loaded symbols).Agrees (m'.loaded symbols') := by
  refine ⟨hm, ?_, m.operations.map (m.loadedOperation symbols),
    m'.operations.map (m'.loadedOperation symbols'), ?_, ?_, ?_⟩
  · simp only [loaded, hs, List.map_append, List.map_map, List.map_singleton, loadedController,
      TypeInfo.declaration, TypeInfo.empty, hm, hc, Function.comp_def, shapeType,
      shapeFields_congr hs]
  · rw [loaded_operations, List.map_map]
    rfl
  · rw [loaded_operations, List.map_map]
    rfl
  · rw [ho, List.map_map, List.forall₂_map_left_iff, List.forall₂_map_right_iff,
      List.forall₂_same]
    exact fun o _ => loadedOperation_agrees hm hs o

end

/-- Both modes find the same in units, and in their images only the locals differ. -/
theorem emit_modes (references : ReferenceSet) (o : CompileOptions) (units : List SourceUnit)
    (files : FileTree) :
    (∃ ds, emitPlaced references { o with mode := .debug } units files = .error ds ∧
      emitPlaced references { o with mode := .release } units files = .error ds) ∨
    ∃ e e', emitPlaced references { o with mode := .debug } units files = .ok e ∧
      emitPlaced references { o with mode := .release } units files = .ok e' ∧
      e'.warnings = e.warnings ∧ e'.image.module = e.image.module ∧
      e'.image.controller = e.image.controller ∧ e'.image.shapes = e.image.shapes ∧
      e'.image.operations = e.image.operations.map (·.inlineLocals) := by
  obtain ⟨hprogram, hmalformed⟩ := checkProgram_place references o.module
    { o with mode := .debug } units files
  have hrelease : (CompileOptions.place { o with mode := .release } units files).1 = units := rfl
  unfold emitPlaced emit
  simp only [hprogram, hmalformed, hrelease]
  split
  · exact .inl ⟨_, rfl, rfl⟩
  · exact .inr ⟨_, _, rfl, rfl, rfl, rfl, rfl, rfl, rfl⟩

/-- A debug build and a release build of the same units fail with the same diagnostics, or both
succeed with the same warnings and load as modules that agree. -/
theorem compile_modes {references : ReferenceSet} {o : CompileOptions} {units : List SourceUnit}
    {files : FileTree} (hm : IsModulePath o.module)
    (hr : ∀ mode e, emitPlaced references { o with mode } units files = .ok e → e.Readable) :
    (∃ e e', compilePlaced references { o with mode := .debug } units files = .error e ∧
      compilePlaced references { o with mode := .release } units files = .error e' ∧
      e'.diagnostics = e.diagnostics) ∨
    ∃ a a' m m', compilePlaced references { o with mode := .debug } units files = .ok a ∧
      compilePlaced references { o with mode := .release } units files = .ok a' ∧
      a'.warnings = a.warnings ∧ a.load = .ok m ∧ a'.load = .ok m' ∧ m.Agrees m' := by
  rcases emit_modes references o units files with ⟨ds, h, h'⟩ | ⟨e, e', h, h', hwarnings, hagree⟩
  · refine .inl ⟨_, _, compilePlaced_error h, compilePlaced_error h', rfl⟩
  · obtain ⟨hmodule, hcontroller, hshapes, hoperations⟩ := hagree
    have hload := load_emitted (o := { o with mode := .debug }) hm h (hr .debug e h)
    have hload' := load_emitted (o := { o with mode := .release }) hm h' (hr .release e' h')
    exact .inr ⟨_, _, _, _, compilePlaced_ok h, compilePlaced_ok h', hwarnings, hload, hload',
      ModuleImage.loaded_agrees hmodule hcontroller hshapes hoperations⟩

/-- A character takes at least one byte. -/
theorem length_le_utf8ByteSize (s : String) : s.length ≤ s.utf8ByteSize := by
  have hall : ∀ cs : List Char, cs.length ≤ (String.ofList cs).utf8ByteSize := by
    intro cs
    induction cs with
    | nil => exact Nat.zero_le _
    | cons c cs ih =>
      have hc := c.utf8Size_pos
      rw [String.ofList_cons, String.utf8ByteSize_append, String.utf8ByteSize_singleton,
        List.length_cons]
      omega
  simpa only [String.length_toList, String.ofList_toList] using hall s.toList

theorem echo_readable (mode : BuildMode) (e : Emission)
    (h : emitPlaced ⟨[Catalog.core]⟩ { echoOptions with mode } echoUnits ⟨[], []⟩ = .ok e) :
    e.Readable := by
  obtain ⟨parsed, hparsed, hreadable⟩ : ∃ parsed, List.Forall₂ Parses echoUnits parsed ∧
      ([.debug, .release].all fun mode => decide (((checkProgram ⟨[Catalog.core]⟩ "shop"
        parsed).image { echoOptions with mode }).toJson.Readable Json.maxDepth)) = true :=
    exists_parsed rfl _ (by decide +kernel)
  obtain ⟨hprogram, -⟩ := checkProgram_place ⟨[Catalog.core]⟩ "shop" { echoOptions with mode }
    echoUnits ⟨[], []⟩
  rw [parseUnits_of_parses hparsed] at hprogram
  refine ⟨?_, emitPlaced_symbols_readable h (List.forall_mem_singleton.mpr
    ((length_le_utf8ByteSize _).trans_lt (by decide +kernel)))⟩
  obtain ⟨-, rfl⟩ := emit_eq_ok_iff.mp h
  exact hprogram ▸ of_decide_eq_true (List.all_eq_true.mp hreadable mode (by cases mode <;> decide))

theorem emitPlaced_echo (mode : BuildMode) :
    ∃ e, emitPlaced ⟨[Catalog.core]⟩ { echoOptions with mode } echoUnits ⟨[], []⟩ = .ok e := by
  obtain ⟨e, he⟩ := emit_echo
  rcases emit_modes ⟨[Catalog.core]⟩ echoOptions echoUnits ⟨[], []⟩ with
    ⟨ds, -, h⟩ | ⟨e₁, e₂, hdebug, hrelease, -⟩
  · cases he.symm.trans h
  · cases mode with
    | debug => exact ⟨e₁, hdebug⟩
    | release => exact ⟨e₂, hrelease⟩

theorem compile_modes_echo :
    ∃ a a' m m', compilePlaced ⟨[Catalog.core]⟩ { echoOptions with mode := .debug } echoUnits
        ⟨[], []⟩ = .ok a ∧
      compilePlaced ⟨[Catalog.core]⟩ echoOptions echoUnits ⟨[], []⟩ = .ok a' ∧
      a.load = .ok m ∧ a'.load = .ok m' ∧ m.Agrees m' := by
  have hpath : IsModulePath echoOptions.module := ⟨["shop"], by decide, by decide, rfl⟩
  obtain ⟨e, he⟩ := emitPlaced_echo .release
  rcases compile_modes hpath echo_readable with
    ⟨_, _, -, h', -⟩ | ⟨a, a', m, m', h, h', -, hload, hload', hagrees⟩
  · cases (compilePlaced_ok he).symm.trans h'
  · exact ⟨a, a', m, m', h, h', hload, hload', hagrees⟩

end EndpointCompiler
