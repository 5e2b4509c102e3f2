import EndpointCompiler.Proofs.Build.Accepted
import EndpointCompiler.Proofs.Build.Diagnostics
import EndpointCompiler.Proofs.Build.Readable

/-! Well-typed definitions can be built. All that their build may want for are names. -/

namespace EndpointCompiler

open Source Checked

/-- The shape that a declaration is checked to, if its types can be written where it stands. -/
def declaredImage (x : SourceUnit × ShapeDecl) : ShapeImage :=
  ⟨shapeName x, x.2.fields.map fun f => ⟨f.name.name, f.type.toTypeRef⟩⟩

section

variable {ds : List HandlerDefinition} {r : ReferenceSet} {module : ModuleId}
  {ps : List ParsedUnit}

theorem scopeOf_shape? {shapes : List ShapeImage} (hn : (shapes.map (·.name)).Nodup)
    {i : ShapeImage} (hi : i ∈ shapes) : (scopeOf r module shapes).shape? i.name = some i.fields := by
  have hfound : (shapes.find? (·.name == i.name)) = some i := find?_of_nodup_map hn hi
  rw [TypeScope.shape?, scopeOf, List.find?_map, Function.comp_def, hfound]
  rfl

theorem declaredImage_fields {d : HandlerDefinition} {x : SourceUnit × ShapeDecl}
    (h : List.Forall₂ (fun b f => f.name.name = b.source ∧ f.type.toTypeRef = b.type) d.bodyLike
      x.2.fields) : (declaredImage x).fields = d.bodyFields :=
  map_eq_map_of_forall₂ (fun _ _ hf => Field.mk.injEq .. ▸ hf) h

/-- A shape that is declared for a definition has a name with a mark in it, and the fields of the
definition's body. -/
theorem declaredShape_of_declares (h : ∀ p ∈ ps, ∃ d ∈ ds, d.Declares p)
    {x : SourceUnit × ShapeDecl} (hx : x ∈ declaredShapes ps) :
    '_' ∈ (shapeName x).toList ∧ ∃ d ∈ ds,
      List.Forall₂ (fun b f => f.name.name = b.source ∧ f.type.toTypeRef = b.type) d.bodyLike
        x.2.fields := by
  obtain ⟨p, hp, -, hitem⟩ := mem_declaredShapes.mp hx
  obtain ⟨d, hd, hdeclares⟩ := h p hp
  cases hdeclares with
  | op _ _ hitems =>
    rw [hitems] at hitem
    simp at hitem
  | shape decl hitems _ hmarked _ hfields =>
    rw [hitems] at hitem
    obtain rfl : x.2 = decl := by simpa using hitem
    exact ⟨hmarked, d, hd, hfields⟩

/-- The shapes of a module for well-typed definitions. -/
theorem shapeOf_declaredImage {s : TypeScope} (h : ∀ p ∈ ps, ∃ d ∈ ds, d.Declares p)
    (hvalid : ∀ d ∈ ds, d.Valid) (htyped : ∀ d ∈ ds, d.TypedIn s) :
    List.Forall₂ (ShapeOf s) (declaredShapes ps) ((declaredShapes ps).map declaredImage) := by
  rw [List.forall₂_map_right_iff, List.forall₂_same]
  intro x hx
  obtain ⟨-, d, hd, hfields⟩ := declaredShape_of_declares h hx
  refine ⟨rfl, ?_⟩
  rw [declaredImage_fields hfields]
  exact (htyped d hd).fieldsOf (hvalid d hd) hfields

theorem HandlerDefinition.DeclaredIn.carried {d : HandlerDefinition} {o : SourceUnit × OpDecl}
    (h : d.DeclaredIn ps o) (hdeclares : ∀ p ∈ ps, ∃ d ∈ ds, d.Declares p)
    (hnames : ((declaredShapes ps).map shapeName).Nodup) :
    ∃ carrier, d.SaysOp carrier o.2 ∧
      d.Carried (scopeOf r module ((declaredShapes ps).map declaredImage)) carrier := by
  obtain ⟨carrier, hsays, hcarrier⟩ := h
  refine ⟨carrier, hsays, fun name hname => ?_⟩
  obtain ⟨x, hx, rfl, hfields⟩ := hcarrier name hname
  obtain ⟨hmarked, -⟩ := declaredShape_of_declares hdeclares hx
  constructor
  · intro he
    have hunmarked : '_' ∉ "Async".toList := by decide
    exact hunmarked (he ▸ hmarked)
  · have hnodup : (((declaredShapes ps).map declaredImage).map (·.name)).Nodup := by
      rw [List.map_map]
      exact hnames
    rw [← declaredImage_fields hfields]
    exact scopeOf_shape? hnodup (List.mem_map_of_mem hx)

/-- What is declared for well-typed definitions is accepted as a whole. -/
theorem exists_program (hdeclares : ∀ p ∈ ps, ∃ d ∈ ds, d.Declares p)
    (hnames : (ps.map (·.unit.name)).Nodup)
    (hops : List.Forall₂ (fun d o => d.DeclaredIn ps o) ds (declaredOps ps))
    (hvalid : ∀ d ∈ ds, d.Valid) (htyped : ∀ shapes, ∀ d ∈ ds, d.TypedIn (scopeOf r module shapes)) :
    ∃ p, ProgramOf r module ps p := by
  obtain ⟨hshapeNames, hopNames⟩ := declared_names hdeclares
  have hshapes := hnames.sublist hshapeNames
  have haccepted : ∀ o ∈ declaredOps ps, ∃ image,
      (checkOp (scopeOf r module ((declaredShapes ps).map declaredImage)) o.2).Yields image := by
    intro o ho
    obtain ⟨d, hd, hdeclared⟩ := exists_left_of_forall₂ hops ho
    obtain ⟨carrier, hsays, hcarried⟩ := hdeclared.carried hdeclares hshapes
    exact hsays.checkOp_accepts (hvalid d hd) (htyped _ d hd) hcarried
  obtain ⟨images, himages⟩ := exists_forall₂_of_forall_mem haccepted
  exact ⟨⟨(declaredShapes ps).map declaredImage, images, []⟩,
    { shapes := shapeOf_declaredImage hdeclares hvalid (htyped _)
      shapeNames := hshapes
      operations := himages
      opNames := hnames.sublist hopNames }⟩

/-- What is checked of declarations that are made for definitions can be read from its image. -/
theorem program_readable {p : CheckedProgram} (hp : ProgramOf r module ps p)
    (hops : List.Forall₂ (fun d o => d.DeclaredIn ps o) ds (declaredOps ps))
    (hlocated : ∀ d ∈ ds, ∀ t ∈ d.types, t.Located)
    (hlength : ∀ d ∈ ds, d.parameters.length < 2 ^ 63) (o : CompileOptions) :
    (p.image o).toJson.Readable Json.maxDepth := by
  have hdepth : Json.maxDepth = 122 + 5 := rfl
  rw [hdepth]
  refine CheckedProgram.image_readable o fun image himage => ?_
  obtain ⟨op, hop, hyields⟩ := exists_left_of_forall₂ hp.operations himage
  obtain ⟨d, hd, carrier, hsays, -⟩ := exists_left_of_forall₂ hops hop
  exact hsays.image_readable (hlocated d hd) (hlength d hd) hyields

end

theorem Synthesizer.Makes.parses {d : HandlerDefinition} {s s' : Synthesizer} {spec : OperationSpec}
    (h : Synthesizer.Makes d s spec s') (hd : d.Valid) (htypes : ∀ t ∈ d.types, t.Writable)
    (hbreaks : ∀ b ∈ d.parameters, '\n' ∉ b.target.toList) {u : SourceUnit} (hu : u ∈ spec.units) :
    ∃ p, Parses u p := by
  rcases List.mem_append.mp hu with hu | hu
  · obtain ⟨c, hc, rfl⟩ := Option.map_eq_some_iff.mp (Option.mem_toList.mp hu)
    obtain ⟨decl, hparse, -⟩ := h.parse_carrier hd htypes hc
    exact ⟨⟨_, _⟩, rfl, hparse⟩
  · obtain rfl := List.mem_singleton.mp hu
    have hbreak : ¬ ∃ b ∈ d.parameters, '\n' ∈ b.target.toList :=
      fun ⟨b, hb, hmem⟩ => hbreaks b hb hmem
    obtain ⟨decl, hparse, -⟩ := h.parse_operation hd htypes hbreak
    exact ⟨⟨_, _⟩, rfl, hparse⟩

namespace Builder

variable {b : Builder} {ds : List HandlerDefinition} {r : ReferenceSet} {units : List SourceUnit}
  {files : FileTree}

/-- Units of definitions without line breaks in names follow the grammar. -/
theorem Prepared.parses (h : Prepared ds r units) (htypes : ∀ d ∈ ds, ∀ t ∈ d.types, t.Writable)
    (hbreaks : ∀ d ∈ ds, ∀ b ∈ d.parameters, '\n' ∉ b.target.toList) :
    ∃ ps, List.Forall₂ Parses units ps := by
  obtain ⟨specs, rfl, hmade⟩ := h.made
  refine exists_forall₂_of_forall_mem fun u hu => ?_
  obtain ⟨spec, hspec, hu⟩ := List.mem_flatMap.mp hu
  obtain ⟨d, hd, s, s', hmakes⟩ := exists_left_of_forall₂ hmade hspec
  exact hmakes.parses (h.valid d hd) (htypes d hd) (hbreaks d hd) hu

/-- What is prepared for definitions that the checker can type is emitted. -/
theorem Prepared.exists_emit (h : Prepared ds r units) {o : CompileOptions}
    (htypes : ∀ d ∈ ds, ∀ t ∈ d.types, t.Writable)
    (hbreaks : ∀ d ∈ ds, ∀ b ∈ d.parameters, '\n' ∉ b.target.toList)
    (htyped : ∀ shapes, ∀ d ∈ ds, d.TypedIn (scopeOf r o.module shapes))
    (hlength : ∀ d ∈ ds, d.parameters.length < 2 ^ 63)
    (htexts : ∀ u ∈ units, u.text.length < 2 ^ 63) :
    ∃ e, emitPlaced r o units files = .ok e ∧ e.Readable := by
  obtain ⟨ps, hparsed⟩ := h.parses htypes hbreaks
  have hps : (parseUnits units).1 = ps := by rw [parseUnits_of_parses hparsed]
  have hdeclares : ∀ p ∈ ps, ∃ d ∈ ds, d.Declares p :=
    fun p hp => h.declares htypes rfl (hps ▸ hp)
  have hnames : (ps.map (·.unit.name)).Nodup := hps ▸ h.names_nodup rfl
  have hops : List.Forall₂ (fun d o => d.DeclaredIn ps o) ds (declaredOps ps) := by
    obtain ⟨specs, rfl, hmade⟩ := h.made
    exact declaredIn_of_makes hmade h.valid htypes hparsed
  obtain ⟨p, hp⟩ := exists_program hdeclares hnames hops h.valid htyped
  obtain ⟨e, he, himage⟩ := emitPlaced_complete files hparsed hp
  exact ⟨e, he, himage ▸ program_readable hp hops h.located hlength o,
    emitPlaced_symbols_readable he htexts⟩

/-- A build that succeeds loads what is compiled from what it has prepared. -/
theorem build_ok {files' : FileTree} {m : CompiledModule}
    (h : b.build ds files = (.ok m, files')) :
    ∃ r units a, b.prepare ds = .ok (r, units) ∧
      compilePlaced r b.settings.compileOptions units files = .ok a ∧ a.load = .ok m := by
  unfold build buildArtifact at h
  cases hprepare : b.prepare ds with
  | error e =>
    rw [hprepare] at h
    cases h
  | ok prepared =>
    obtain ⟨r, units⟩ := prepared
    rw [hprepare] at h
    have hbuild := congrArg Prod.fst h
    dsimp only at hbuild
    cases hcompile : compile r b.settings.compileOptions
        (b.settings.compileOptions.place units files).1 with
    | error e =>
      rw [hcompile] at hbuild
      cases hbuild
    | ok a =>
      rw [hcompile] at hbuild
      change a.load.mapError BuildError.load = .ok m at hbuild
      cases hload : a.load with
      | error e =>
        rw [hload] at hbuild
        cases hbuild
      | ok m' =>
        rw [hload] at hbuild
        obtain rfl := Except.ok.inj hbuild
        exact ⟨r, units, a, rfl, hcompile, hload⟩

/-- What is emitted for definitions is what their build loads. -/
theorem build_of_emit (hm : IsModulePath b.settings.moduleName)
    (hprepare : b.prepare ds = .ok (r, units)) {e : Emission}
    (he : emitPlaced r b.settings.compileOptions units files = .ok e) (hr : e.Readable) :
    ∃ files', b.build ds files = (.ok (e.image.loaded e.symbols), files') := by
  have hcompile := compilePlaced_ok he
  have hload := load_emitted hm he hr
  unfold compilePlaced at hcompile
  unfold build buildArtifact
  rw [hprepare]
  dsimp only
  rw [hcompile]
  refine ⟨_, Prod.ext ?_ rfl⟩
  change ((e.artifact _ _).load).mapError BuildError.load = _
  rw [hload]
  rfl

/-- Definitions that are well typed are built from any source that is made for them. -/
theorem build_of_specs (files : FileTree) (hm : IsModulePath b.settings.moduleName)
    (hbase : ∀ t ∈ Catalog.bootstrapTypes, ∃ m, b.catalog.locate t = .ok m)
    (hwell : ∀ d ∈ ds, d.WellTyped b.catalog) (hown : ∀ d ∈ ds, d.Foreign b.settings.moduleName)
    (hlength : ∀ d ∈ ds, d.parameters.length < 2 ^ 63) {specs : List OperationSpec}
    (hspecs : b.specs ds = .ok specs)
    (htexts : ∀ spec ∈ specs, ∀ u ∈ spec.units, u.text.length < 2 ^ 63) :
    ∃ m files', b.build ds files = (.ok m, files') := by
  obtain ⟨r, hr⟩ := HandlerDefinition.exists_resolve hbase hwell
  have hvalid := forM_validate_ok_iff.mpr fun d hd => (hwell d hd).valid
  have hprepare := prepare_eq_ok_iff.mpr ⟨hvalid, hr, specs, hspecs, rfl⟩
  have hprepared := prepared_of_prepare hprepare
  obtain ⟨e, he, hreadable⟩ := hprepared.exists_emit (o := b.settings.compileOptions)
    (fun d hd t ht => TypeRef.exists_ofText_iff.mp ((hwell d hd).textual t ht))
    (fun d hd => (hwell d hd).breaks)
    (fun shapes d hd => (hwell d hd).typedIn hr hd (hown d hd))
    hlength (List.forall_mem_flatMap.mpr htexts)
  exact ⟨_, build_of_emit hm hprepare he hreadable⟩

end Builder

/-- Well-typed definitions are built unless names run out. They do not as long as a module may have
two names for each definition, of which none has too many parameters. -/
theorem build_succeeds {b : Builder} {ds : List HandlerDefinition} (files : FileTree)
    (hm : IsModulePath b.settings.moduleName)
    (hbase : ∀ t ∈ Catalog.bootstrapTypes, ∃ m, b.catalog.locate t = .ok m)
    (hwell : ∀ d ∈ ds, d.WellTyped b.catalog) (hown : ∀ d ∈ ds, d.Foreign b.settings.moduleName)
    (hlength : ∀ d ∈ ds, d.parameters.length < 2 ^ 63)
    (htexts : ∀ specs, b.specs ds = .ok specs → ∀ spec ∈ specs, ∀ u ∈ spec.units,
      u.text.length < 2 ^ 63) :
    ((∃ m files', b.build ds files = (.ok m, files')) ↔ ∃ specs, b.specs ds = .ok specs) ∧
      (2 * ds.length ≤ b.settings.maxNameSuffix →
        (∀ d ∈ ds, d.parameters.length < defaultMaxSuffix) →
        ∃ m files', b.build ds files = (.ok m, files')) := by
  have hbuilds : ∀ specs, b.specs ds = .ok specs → ∃ m files', b.build ds files = (.ok m, files') :=
    fun specs hspecs =>
      Builder.build_of_specs files hm hbase hwell hown hlength hspecs (htexts specs hspecs)
  refine ⟨⟨?_, fun ⟨specs, hspecs⟩ => hbuilds specs hspecs⟩, fun hnames hparams => ?_⟩
  · rintro ⟨m, files', hbuild⟩
    obtain ⟨r, units, a, hprepare, -, -⟩ := Builder.build_ok hbuild
    obtain ⟨-, -, specs, hspecs, -⟩ := Builder.prepare_eq_ok_iff.mp hprepare
    exact ⟨specs, hspecs⟩
  · have hfree : (b.settings.synthesizer b.randomBits).names.assigned.length + 2 * ds.length ≤
        (b.settings.synthesizer b.randomBits).names.maxSuffix := by
      show 0 + 2 * ds.length ≤ b.settings.maxNameSuffix
      omega
    obtain ⟨specs, s', hruns⟩ := Synthesizer.exists_runs_all hfree hparams
    exact hbuilds specs (congrArg Prod.fst hruns)

/-- An order is given a name by a form. -/
def renameBuilder : Builder :=
  { orderBuilder with
    catalog := .ofModules [⟨"shop", .static none,
      [{ TypeInfo.empty "shop" "Rename" with
          fields := [⟨"id", Primitive.int.type⟩, ⟨"name", Primitive.string.type⟩] },
        .empty "shop" "Order"]⟩] }

def renameDefinition : HandlerDefinition :=
  { request := .declared "shop" "Rename"
    response := .async (.declared "shop" "Order")
    method := .put
    route := "/\x7bid\x7d"
    parameters := [⟨"id", "id", .queryOrPath, Primitive.int.type⟩,
      ⟨"name", "form", .form, Primitive.string.type⟩] }

theorem renameDefinition_wellTyped : renameDefinition.WellTyped renameBuilder.catalog where
  valid := by decide +kernel
  textual := by
    have hall : ∀ t ∈ renameDefinition.types, TypeRef.ofText t.text = .ok t := by decide +kernel
    exact fun t ht => ⟨t.text, hall t ht⟩
  declared := by
    have htypes : definitionTypes [renameDefinition] = [.declared "shop" "Rename",
      .declared "shop" "Order", Primitive.int.type, Primitive.string.type] := rfl
    rw [htypes]
    simp only [List.forall_mem_cons]
    refine ⟨?_, ?_, ?_, ?_, nofun⟩ <;>
      exact List.forall_mem_singleton.mpr ⟨_, _, rfl, rfl, rfl⟩
  request := ⟨_, _, rfl⟩
  fields := List.forall_mem_cons.mpr ⟨⟨_, rfl, rfl⟩, List.forall_mem_singleton.mpr ⟨_, rfl, rfl⟩⟩
  scalars := List.forall_mem_cons.mpr
    ⟨fun _ => ⟨.int, by decide, rfl⟩, List.forall_mem_singleton.mpr nofun⟩
  shared := by decide
  placeholders := by
    have hroute : Route.placeholders renameDefinition.route = ["id"] := by decide +kernel
    rw [hroute]
    exact List.forall_mem_singleton.mpr ⟨_, List.mem_cons_self, rfl, rfl⟩
  breaks := by decide

theorem renameDefinition_foreign : renameDefinition.Foreign renameBuilder.settings.moduleName := by
  have hall : ∀ t ∈ renameDefinition.types, ∀ u ∈ t.subterms,
      u.module? ≠ some "forge.generated" := by decide +kernel
  exact hall

theorem renameBuilder_locates :
    ∀ t ∈ Catalog.bootstrapTypes, ∃ m, renameBuilder.catalog.locate t = .ok m := by
  simp only [Catalog.bootstrapTypes, List.forall_mem_cons]
  exact ⟨⟨_, rfl⟩, ⟨_, rfl⟩, ⟨_, rfl⟩, List.forall_mem_nil _⟩

/-- Texts are measured in bytes here: the characters of a text are slow to decode. -/
theorem renameBuilder_texts (specs : List OperationSpec)
    (h : renameBuilder.specs [renameDefinition] = .ok specs) :
    ∀ spec ∈ specs, ∀ u ∈ spec.units, u.text.length < 2 ^ 63 := by
  have hshort : (renameBuilder.specs [renameDefinition]).toOption.all fun specs =>
      specs.all fun spec => spec.units.all fun u => decide (u.text.utf8ByteSize < 2 ^ 63) := by
    decide +kernel
  rw [h] at hshort
  intro spec hspec u hu
  have hsize := of_decide_eq_true (List.all_eq_true.mp (List.all_eq_true.mp hshort spec hspec) u hu)
  exact (length_le_utf8ByteSize u.text).trans_lt hsize

theorem build_succeeds_rename :
    ∃ m files', renameBuilder.build [renameDefinition] ⟨[], []⟩ = (.ok m, files') := by
  have hm : IsModulePath renameBuilder.settings.moduleName :=
    ⟨["forge", "generated"], by decide, by decide, rfl⟩
  exact (build_succeeds ⟨[], []⟩ hm renameBuilder_locates
    (List.forall_mem_singleton.mpr renameDefinition_wellTyped)
    (List.forall_mem_singleton.mpr renameDefinition_foreign)
    (List.forall_mem_singleton.mpr (by decide)) renameBuilder_texts).2 (by decide)
    (List.forall_mem_singleton.mpr (by decide))

/-- A builder for modules that have no second form of a name. -/
def crowdedBuilder : Builder :=
  { renameBuilder with settings := { renameBuilder.settings with maxNameSuffix := 1 } }

/-- Two definitions for one request need two forms of its name. -/
theorem build_fails_crowded :
    IsModulePath crowdedBuilder.settings.moduleName ∧
      (∀ t ∈ Catalog.bootstrapTypes, ∃ m, crowdedBuilder.catalog.locate t = .ok m) ∧
      (∀ d ∈ [renameDefinition, renameDefinition], d.WellTyped crowdedBuilder.catalog ∧
        d.Foreign crowdedBuilder.settings.moduleName) ∧
      ∀ m files', crowdedBuilder.build [renameDefinition, renameDefinition] ⟨[], []⟩ ≠
        (.ok m, files') := by
  refine ⟨⟨["forge", "generated"], by decide, by decide, rfl⟩, renameBuilder_locates, ?_, ?_⟩
  · exact List.forall_mem_cons.mpr ⟨⟨renameDefinition_wellTyped, renameDefinition_foreign⟩,
      List.forall_mem_singleton.mpr ⟨renameDefinition_wellTyped, renameDefinition_foreign⟩⟩
  · intro m files' hbuild
    obtain ⟨r, units, a, hprepare, -, -⟩ := Builder.build_ok hbuild
    obtain ⟨-, -, specs, hspecs, -⟩ := Builder.prepare_eq_ok_iff.mp hprepare
    have hfails : (match crowdedBuilder.specs [renameDefinition, renameDefinition] with
      | .ok _ => false
      | .error e => decide (e = ⟨"Rename", 1⟩)) = true := by decide +kernel
    rw [hspecs] at hfails
    cases hfails

end EndpointCompiler
