import EndpointCompiler.Proofs.Build.Findings
import EndpointCompiler.Proofs.Build.Units
import EndpointCompiler.Proofs.Compilation.Modes

/-! What a build can be told by its compilation. Whatever is wrong was so in the definitions already;
generated source adds nothing to it. -/

namespace EndpointCompiler

open Source Checked

/-- A diagnostic that a definition can bring about. -/
def Diagnostic.FromDefinition (x : Diagnostic) : Prop :=
  ∃ u f, x = Finding.diagnostic u f ∧ f.problem.FromDefinition

section

variable {s : TypeScope} {r : ReferenceSet} {module : ModuleId} {ds : List HandlerDefinition}
  {ps : List ParsedUnit}

/-- What is left to check of a shape: fields of other names than those before, whose types name
modules that are referred to. -/
structure FieldsLeft (s : TypeScope) (rest : List FieldDecl) (done : List Field) : Prop where
  nodup : (rest.map (·.name.name)).Nodup
  fresh : ∀ f ∈ rest, f.name.name ∉ done.map (·.name)
  covers : ∀ f ∈ rest, s.references.Covers f.type.toTypeRef

theorem checkField_finds {shape : String} {f : FieldDecl} {rest : List FieldDecl}
    {done : List Field} (h : FieldsLeft s (f :: rest) done) :
    (checkField s shape done f).Finds Problem.FromDefinition ∧
      ∀ done', (checkField s shape done f).value = some done' → FieldsLeft s rest done' := by
  obtain ⟨hnodup, hfresh, hcovers⟩ := h
  rw [List.map_cons, List.nodup_cons] at hnodup
  rw [List.forall_mem_cons] at hfresh hcovers
  have hnew : ¬ done.any (·.name == f.name.name) = true := by simpa using hfresh.1
  have hkeeps : ∀ t, FieldsLeft s rest (done ++ [⟨f.name.name, t⟩]) := by
    refine fun t => ⟨hnodup.2, fun g hg hmem => ?_, hcovers.2⟩
    rw [List.map_append, List.mem_append, List.map_singleton, List.mem_singleton] at hmem
    rcases hmem with hmem | he
    · exact hfresh.2 g hg hmem
    · have he : g.name.name = f.name.name := he
      exact hnodup.1 (he ▸ List.mem_map_of_mem hg)
  unfold checkField
  rw [if_neg hnew, attempt_bind_value]
  refine ⟨(TypeScope.resolve_finds f.type hcovers.1).attempt_bind ?_, fun done' hdone' => ?_⟩
  · split
    · exact finds_pure _
    · exact finds_pure _
  · split at hdone'
    · obtain rfl := Option.some.inj hdone'
      exact hkeeps _
    · obtain rfl := Option.some.inj hdone'
      exact ⟨hnodup.2, hfresh.2, hcovers.2⟩

/-- Fields of different names are at fault in their types alone. -/
theorem checkShape_finds {decl : ShapeDecl} (hattributes : decl.attributes = [])
    (hnames : (decl.fields.map (·.name.name)).Nodup)
    (hrefs : ∀ f ∈ decl.fields, s.references.Covers f.type.toTypeRef) :
    (checkShape s decl).Finds Problem.FromDefinition := by
  unfold checkShape
  rw [hattributes]
  refine (finds_pure ()).bind fun _ _ => ?_
  refine Finds.foldlM (FieldsLeft s) (fun f rest done h => checkField_finds h) ?_
  exact ⟨hnames, fun _ _ => List.not_mem_nil, hrefs⟩

theorem checkOps_finds {ops : List (SourceUnit × OpDecl)} {seen : List String}
    (hnames : (ops.map opName).Nodup) (hfresh : ∀ d ∈ ops, opName d ∉ seen)
    (hops : ∀ d ∈ ops, (checkOp s d.2).Finds Problem.FromDefinition) :
    ∀ x ∈ (checkOps s seen ops).2, x.FromDefinition := by
  induction ops generalizing seen with
  | nil => exact nofun
  | cons d ops ih =>
    obtain ⟨u, op⟩ := d
    rw [List.map_cons, List.nodup_cons] at hnames
    rw [List.forall_mem_cons] at hfresh hops
    have hnew : ¬ seen.contains op.name.name = true := by simpa [opName] using hfresh.1
    have hrest : ∀ d ∈ ops, opName d ∉ op.name.name :: seen := by
      intro d hd hmem
      rcases List.mem_cons.mp hmem with he | hmem
      · exact hnames.1 (List.mem_map.mpr ⟨d, hd, he⟩)
      · exact hfresh.2 d hd hmem
    rw [checkOps, if_neg hnew]
    intro x hx
    rcases List.mem_append.mp hx with hx | hx
    · obtain ⟨f, hf, rfl⟩ := List.mem_map.mp hx
      exact ⟨u, f, rfl, hops.1 f hf⟩
    · exact ih hnames.2 hrest hops.2 x hx

theorem HandlerDefinition.Declares.checkShape_finds {d : HandlerDefinition} {p : ParsedUnit}
    (h : d.Declares p) (hd : d.Valid) (hrefs : ∀ t ∈ d.types, s.references.Covers t)
    {decl : ShapeDecl} (hdecl : .shape decl ∈ p.items) :
    (checkShape s decl).Finds Problem.FromDefinition := by
  cases h with
  | op _ _ hitems =>
    rw [hitems] at hdecl
    simp at hdecl
  | shape decl' hitems _ _ hattributes hfields =>
    rw [hitems] at hdecl
    obtain rfl : decl = decl' := by simpa using hdecl
    have hnames : (decl.fields.map (·.name.name)).Nodup := by
      rw [map_eq_map_of_forall₂ (fun _ _ hf => hf.1) hfields]
      exact hd.bindings.nodup.sublist (List.filter_sublist.map _)
    refine EndpointCompiler.checkShape_finds hattributes hnames fun f hf => ?_
    obtain ⟨b, hb, -, htype⟩ := exists_left_of_forall₂ hfields hf
    exact htype ▸ hrefs _ (HandlerDefinition.mem_types (List.mem_filter.mp hb).1)

theorem HandlerDefinition.Declares.checkOp_finds {d : HandlerDefinition} {p : ParsedUnit}
    (h : d.Declares p) (hd : d.Valid) (hrefs : ∀ t ∈ d.types, s.references.Covers t)
    {decl : OpDecl} (hdecl : .op decl ∈ p.items) :
    (checkOp s decl).Finds Problem.FromDefinition := by
  cases h with
  | shape _ hitems =>
    rw [hitems] at hdecl
    simp at hdecl
  | op decl' carrier hitems _ hsays =>
    rw [hitems] at hdecl
    obtain rfl : decl = decl' := by simpa using hdecl
    exact hsays.checkOp_finds hd hrefs

/-- The names of all declarations differ, as the names of units do. -/
theorem checkProgram_finds (hps : ∀ p ∈ ps, ∃ d ∈ ds, d.Declares p)
    (hnames : (ps.map (·.unit.name)).Nodup) (hvalid : ∀ d ∈ ds, d.Valid)
    (hrefs : ∀ d ∈ ds, ∀ t ∈ d.types, r.Covers t) :
    ∀ x ∈ (checkProgram r module ps).diagnostics, x.FromDefinition := by
  obtain ⟨hshapes, hops⟩ := declared_names hps
  have hrepeated : (splitRepeated shapeName [] (declaredShapes ps)).2 = [] :=
    splitRepeated_nil_iff.mpr ⟨hnames.sublist hshapes, fun _ _ => List.not_mem_nil⟩
  rw [checkProgram_diagnostics, hrepeated, splitRepeated_of_nil hrepeated, List.map_nil,
    List.nil_append, List.forall_mem_append]
  constructor
  · intro x hx
    obtain ⟨⟨u, decl⟩, hdecl, hx⟩ := List.mem_flatMap.mp hx
    obtain ⟨f, hf, rfl⟩ := List.mem_map.mp hx
    obtain ⟨p, hp, -, hitem⟩ := mem_declaredShapes.mp hdecl
    obtain ⟨d, hd, hdeclares⟩ := hps p hp
    exact ⟨u, f, rfl, hdeclares.checkShape_finds (hvalid d hd) (hrefs d hd) hitem f hf⟩
  · refine checkOps_finds (hnames.sublist hops) (fun _ _ => List.not_mem_nil) fun d hd => ?_
    obtain ⟨p, hp, -, hitem⟩ := mem_declaredOps.mp hd
    obtain ⟨d', hd', hdeclares⟩ := hps p hp
    exact hdeclares.checkOp_finds (hvalid d' hd') (hrefs d' hd') hitem

end

namespace Builder

variable {b : Builder} {ds : List HandlerDefinition} {r : ReferenceSet} {units : List SourceUnit}

theorem Prepared.declares (h : Prepared ds r units) (htypes : ∀ d ∈ ds, ∀ t ∈ d.types, t.Writable)
    {placed : List SourceUnit} (hplaced : placed.map (·.unplaced) = units.map (·.unplaced))
    {p : ParsedUnit} (hp : p ∈ (parseUnits placed).1) : ∃ d ∈ ds, d.Declares p := by
  obtain ⟨hunit, hparse⟩ := parseUnits_items hp
  obtain ⟨u, hu, hsame⟩ : ∃ u ∈ units, u.unplaced = p.unit.unplaced :=
    List.mem_map.mp (hplaced ▸ List.mem_map_of_mem hunit)
  have hname : u.unplaced.name = p.unit.unplaced.name := congrArg SourceUnit.name hsame
  have htext : u.unplaced.text = p.unit.unplaced.text := congrArg SourceUnit.text hsame
  obtain ⟨specs, rfl, hmade⟩ := h.made
  have hparsed : parseSource u.text = .ok p.items := (congrArg parseSource htext).trans hparse
  exact declares_of_makes hmade h.valid htypes hu hname.symm hparsed

theorem Prepared.names_nodup (h : Prepared ds r units) {placed : List SourceUnit}
    (hplaced : placed.map (·.unplaced) = units.map (·.unplaced)) :
    ((parseUnits placed).1.map (·.unit.name)).Nodup := by
  have hnames : placed.map (·.name) = units.map (·.name) := by
    have hmap := congrArg (List.map SourceUnit.name) hplaced
    rw [List.map_map, List.map_map] at hmap
    exact hmap
  have hsublist := (parseUnits_units placed).map SourceUnit.name
  rw [List.map_map, hnames] at hsublist
  exact h.names.sublist hsublist

/-- What is refused before anything is compiled is no failed compilation. -/
theorem prepare_error {e : BuildError} (h : b.prepare ds = .error e) (c : CompilationError) :
    e ≠ .compilation c := by
  unfold prepare resolve validate at h
  cases hvalid : ds.forM (·.validate) with
  | error e' =>
    rw [hvalid] at h
    cases h
    exact nofun
  | ok _ =>
    cases hresolve : b.catalog.resolve (definitionTypes ds) with
    | error e' =>
      rw [hvalid, hresolve] at h
      cases h
      exact nofun
    | ok r' =>
      cases hspecs : b.specs ds with
      | error e' =>
        rw [hvalid, hresolve, hspecs] at h
        cases h
        exact nofun
      | ok specs =>
        rw [hvalid, hresolve, hspecs] at h
        cases h

/-- A build comes to a compilation with what it has prepared. -/
theorem buildArtifact_compilation {files files' : FileTree} {e : CompilationError}
    (h : b.buildArtifact ds files = (.error (.compilation e), files')) :
    ∃ r units, b.prepare ds = .ok (r, units) ∧
      compilePlaced r b.settings.compileOptions units files = .error e := by
  unfold buildArtifact at h
  cases hprepare : b.prepare ds with
  | error e' =>
    rw [hprepare] at h
    cases h
    exact absurd rfl (prepare_error hprepare e)
  | ok prepared =>
    obtain ⟨r, units⟩ := prepared
    rw [hprepare] at h
    refine ⟨r, units, rfl, ?_⟩
    have hcompile := congrArg Prod.fst h
    dsimp only at hcompile
    unfold compilePlaced
    cases hc : compile r b.settings.compileOptions
        (b.settings.compileOptions.place units files).1 with
    | ok a =>
      rw [hc] at hcompile
      cases hcompile
    | error e' =>
      rw [hc] at hcompile
      cases hcompile
      rfl

end Builder

theorem compile_error_diagnostics {r : ReferenceSet} {o : CompileOptions} {units : List SourceUnit}
    {e : CompilationError} (h : compile r o units = .error e) : e.diagnostics =
      (parseUnits units).2 ++ (checkProgram r o.module (parseUnits units).1).diagnostics := by
  have hreported : reported (compile r o units) = _ := reported_compile
  rw [h] at hreported
  exact hreported

/-- The codes of what definitions can bring about: a text that does not follow the grammar, types
that cannot be resolved, placeholders without parameters, parameters of other than primitive types,
and values without the fields or of other than the types that are asked for. -/
def definitionCodes : List String :=
  ["E0001", "E0102", "E0103", "E0104", "E0105", "E0210", "E0212", "E0302", "E0304"]

theorem Problem.FromDefinition.error {p : Problem} (h : p.FromDefinition) :
    p.isError = true ∧ p.code ∈ definitionCodes := by
  cases p <;> first | exact h.elim | exact ⟨rfl, by simp [Problem.code, definitionCodes]⟩

/-- A compilation of generated source fails for what is wrong in the definitions alone. It finds no
module that is not referred to, nothing declared twice, no attribute out of order, no unknown value
and nothing of no effect. -/
theorem build_findings {b : Builder} {ds : List HandlerDefinition} {files files' : FileTree}
    {e : CompilationError} (htypes : ∀ d ∈ ds, ∀ t ∈ d.types, ∃ text, TypeRef.ofText text = .ok t)
    (h : b.buildArtifact ds files = (.error (.compilation e), files')) :
    ∀ x ∈ e.diagnostics, x.isError = true ∧ x.code ∈ definitionCodes := by
  have hwritable : ∀ d ∈ ds, ∀ t ∈ d.types, t.Writable :=
    fun d hd t ht => TypeRef.exists_ofText_iff.mp (htypes d hd t ht)
  obtain ⟨r, units, hprepare, hcompile⟩ := Builder.buildArtifact_compilation h
  have hprepared := Builder.prepared_of_prepare hprepare
  have hplaced := b.settings.compileOptions.place_unplaced units files
  have hdeclares : ∀ p ∈ (parseUnits (b.settings.compileOptions.place units files).1).1,
      ∃ d ∈ ds, d.Declares p := fun _ hp => hprepared.declares hwritable hplaced hp
  have hall : ∀ x ∈ e.diagnostics, x.FromDefinition := by
    rw [compile_error_diagnostics hcompile, List.forall_mem_append]
    constructor
    · intro x hx
      obtain ⟨u, -, cause, -, rfl⟩ := parseUnits_malformed hx
      exact ⟨u, _, rfl, trivial⟩
    · exact checkProgram_finds hdeclares (hprepared.names_nodup hplaced) hprepared.valid
        hprepared.covers
  intro x hx
  obtain ⟨u, f, rfl, hf⟩ := hall x hx
  exact hf.error

/-- A builder for definitions that answer orders. -/
def orderBuilder : Builder where
  catalog := .ofModules [⟨"shop", .static none,
    [{ TypeInfo.empty "shop" "GetOrder" with fields := [⟨"id", Primitive.int.type⟩] },
      .empty "shop" "Order"]⟩]
  settings := { Settings.default with surrogates := .sequential }
  randomBits := 0

/-- A placeholder that nothing is bound to. -/
def unboundDefinition : HandlerDefinition :=
  { request := .declared "shop" "GetOrder"
    response := .declared "shop" "Order"
    method := .get
    route := "/orders/\x7bid\x7d"
    parameters := [⟨"id", "number", .queryOrPath, Primitive.int.type⟩] }

/-- A build fails in the compiler, which says why. -/
def reportsDiagnostics : Except BuildError Artifact → Bool
  | .error (.compilation e) => !e.diagnostics.isEmpty
  | _ => false

theorem build_findings_unbound :
    ∃ e files', orderBuilder.buildArtifact [unboundDefinition] ⟨[], []⟩ =
        (.error (.compilation e), files') ∧ e.diagnostics ≠ [] ∧
      ∀ x ∈ e.diagnostics, x.isError = true ∧ x.code ∈ definitionCodes := by
  have htypes : ∀ d ∈ [unboundDefinition], ∀ t ∈ d.types, ∃ text, TypeRef.ofText text = .ok t := by
    have hall : ∀ t ∈ unboundDefinition.types, TypeRef.ofText t.text = .ok t := by decide +kernel
    exact List.forall_mem_singleton.mpr fun t ht => ⟨t.text, hall t ht⟩
  have hfails : reportsDiagnostics (orderBuilder.buildArtifact [unboundDefinition] ⟨[], []⟩).1 =
      true := by decide +kernel
  rcases hbuild : orderBuilder.buildArtifact [unboundDefinition] ⟨[], []⟩ with ⟨e | a, files'⟩
  · rw [hbuild] at hfails
    cases e with
    | compilation e =>
      have hsome : e.diagnostics ≠ [] := by simpa [reportsDiagnostics] using hfails
      exact ⟨e, files', rfl, hsome, build_findings htypes hbuild⟩
    | _ => cases hfails
  · rw [hbuild] at hfails
    cases hfails

end EndpointCompiler
