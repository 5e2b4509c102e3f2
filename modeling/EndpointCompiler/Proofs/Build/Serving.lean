import EndpointCompiler.Proofs.Build.Generated
import EndpointCompiler.Proofs.Build.Success
import EndpointCompiler.Proofs.Endpoint.Requests

/-! What modules that are built do. There is one operation for each definition, and it hands on what
the definition says: with every call all properties of the request are set from the values that the
call has for them, unless one of its parameters does not bind. -/

namespace EndpointCompiler

open Source Checked

namespace HandlerDefinition

/-- An operation does what a definition says. It fails with the error of the first parameter that
fails in a call, and if none does it hands on a request with the properties of the definition. -/
structure Serves (d : HandlerDefinition) (op : GeneratedOperation) : Prop where
  route : op.route = ⟨d.method, d.route, some d.response.unwrapAsync⟩
  mode : op.mode = if d.response.isAsync then .async else .sync
  key : op.key = ⟨d.request, d.response.unwrapAsync⟩
  invoke : ∃ names, op.params.map (·.name) = (wireKeys d.parameters).map names ∧
    ∀ call processor,
      (∀ e, d.FirstError names call e →
        (Operation.generated op).invoke call processor = .error (.binding e)) ∧
      ((∀ e, ¬ d.FirstError names call e) → ∃ request, d.Fills call request ∧
        (Operation.generated op).invoke call processor =
          (processor ⟨op.mode, op.key, .object request⟩).mapError .dispatch)

section

variable {d : HandlerDefinition} {b : ParameterBinding}

theorem Valid.groupedBindings_perm (hd : d.Valid) :
    ((wireKeys d.parameters).flatMap (bindingsOf d.parameters)).Perm d.parameters :=
  (List.perm_ext_iff_of_nodup hd.sources_nodup.of_map hd.bindings.nodup.of_map).mpr
    fun _ => mem_groupedBindings

/-- An object that every binding initialises has what was bound for its properties. -/
theorem Valid.fills (hd : d.Valid) {inits : List (String × ValueExpr)}
    (hinits : List.Forall₂ d.Initialises
      ((wireKeys d.parameters).flatMap (bindingsOf d.parameters)) inits)
    {names : Bool × String → String} {call : OperationCall} {values : List Json}
    (hvalues : List.Forall₂ (fun key v => (d.wireParam (names key) key).bind call = .ok v)
      (wireKeys d.parameters) values) :
    d.Fills call (ValueExpr.evalFields values [] inits []) := by
  have hnames : inits.map (·.1) =
      ((wireKeys d.parameters).flatMap (bindingsOf d.parameters)).map (·.source) :=
    map_eq_map_of_forall₂ (fun _ _ hi => hi.1) hinits
  have hnodup : (inits.map (·.1)).Nodup := hnames ▸ hd.sources_nodup
  constructor
  · have hperm : ((ValueExpr.evalFields values [] inits []).map (·.1)).Perm
        (inits.map (·.1) ++ ([] : List (String × Json)).map (·.1)) :=
      ValueExpr.evalFields_names hnodup fun _ _ => List.not_mem_nil
    rw [List.map_nil, List.append_nil, hnames] at hperm
    exact hperm.trans (hd.groupedBindings_perm.map _)
  · intro b hb
    obtain ⟨⟨name, e⟩, hmem, hname, k, hk, hvalue⟩ :=
      exists_right_of_forall₂ hinits (mem_groupedBindings.mpr hb)
    obtain rfl : name = b.source := hname
    obtain rfl : e = _ := hvalue
    obtain ⟨v, hv, hbind⟩ := getElem?_of_forall₂ hvalues hk
    have hparam : (ValueExpr.param k).eval values [] = v := by
      rw [ValueExpr.eval, hv, Option.getD_some]
    have heval : (if b.kind.isBodyLike then .field (.param k) b.source else .param k :
        ValueExpr).eval values [] = if b.kind.isBodyLike then v.member b.source else v := by
      split
      · rw [ValueExpr.eval, hparam]
      · exact hparam
    refine ⟨_, ValueExpr.field?_evalFields hnodup hmem, ?_⟩
    rw [heval]
    exact delivers_of_bind hd hb hbind
  · exact ValueExpr.evalFields_sorted .nil

end

section

variable {d : HandlerDefinition} {m : ModuleImage} {carrier : Option String} {image : OperationImage}
  {key : Bool × String} {p : ParamImage}

/-- The image of a definition's operation, among shapes of which one has the fields of its body. -/
def ImagedIn (d : HandlerDefinition) (module : ModuleId) (shapes : List ShapeImage)
    (image : OperationImage) : Prop :=
  ∃ carrier, d.Imaged module carrier image ∧
    ∀ name ∈ carrier, ∃ shape ∈ shapes, shape.name = name ∧ shape.fields = d.bodyFields

theorem ImagedIn.inlineLocals {module : ModuleId} {shapes : List ShapeImage}
    (h : d.ImagedIn module shapes image) : d.ImagedIn module shapes image.inlineLocals := by
  obtain ⟨carrier, himaged, hcarrier⟩ := h
  exact ⟨carrier, himaged.inlineLocals, hcarrier⟩

/-- A form has the fields of its carrier. -/
theorem ParamImaged.bind_eq (h : d.ParamImaged m.module carrier key p)
    (hkey : key ∈ wireKeys d.parameters) (hm : (m.shapes.map (·.name)).Nodup)
    (hcarrier : ∀ name ∈ carrier, ∃ shape ∈ m.shapes, shape.name = name ∧ shape.fields = d.bodyFields)
    {name : String} (hname : p.name = name) (call : OperationCall) :
    (m.boundParam p).bind call = (d.wireParam name key).bind call := by
  have hbody : p.source = .body ∨ p.source = .form ↔ key.1 = true := by
    rw [h.source]
    exact bodySource_iff hkey
  have htype := h.type
  apply BoundParam.bind_congr call h.source h.wireName
  · intro hsource
    have hnot : ¬ key.1 = true := by
      rw [← hbody]
      rcases hsource with hs | hs <;> rw [show p.source = _ from hs] <;> simp
    rw [if_neg hnot] at htype
    exact htype
  · exact fun _ => hname
  · intro hsource
    have hsource : p.source = .form := hsource
    rw [if_pos (hbody.mp (.inr hsource))] at htype
    obtain ⟨name, hname, htype⟩ := htype
    obtain ⟨shape, hshape, rfl, hfields⟩ := hcarrier name hname
    exact ((ModuleImage.boundParam_loadsAs hm p).formFields shape hshape hsource htype).trans hfields

/-- What an image of a definition's operation is loaded as does what the definition says. -/
theorem ImagedIn.serves (h : d.ImagedIn m.module m.shapes image) (hd : d.Valid)
    (hm : (m.shapes.map (·.name)).Nodup) (symbols : Option SymbolTable) :
    d.Serves (m.loadedOperation symbols image) := by
  obtain ⟨carrier, h, hcarrier⟩ := h
  have hmode : (m.loadedOperation symbols image).mode =
      if d.response.isAsync then .async else .sync := by
    rw [← h.callAsync]
    rfl
  have hkey : (m.loadedOperation symbols image).key = ⟨d.request, d.response.unwrapAsync⟩ := by
    have hplain : d.response.unwrapAsync.unwrapAsync = d.response.unwrapAsync :=
      TypeRef.unwrapAsync_of_not_isAsync h.response
    have hof : (m.loadedOperation symbols image).key = .of image.call.request image.call.response := rfl
    rw [hof, h.callRequest, h.callResponse, RequestKey.of, hplain]
  have hroute : (m.loadedOperation symbols image).route =
      ⟨d.method, d.route, some d.response.unwrapAsync⟩ := by
    rw [ModuleImage.loadedOperation, h.method, h.route, h.produces]
  refine ⟨hroute, hmode, hkey, ?_⟩
  -- There is one parameter for each key, so that its name is a function of the key.
  obtain ⟨names, hnames⟩ :=
    exists_fun_of_forall₂ h.params (wireKeys_nodup d.parameters) ParamImage.name
  refine ⟨names, ?_, fun call processor => ?_⟩
  · have hall : image.params.map (·.name) = (wireKeys d.parameters).map names :=
      map_eq_map_of_forall₂ (fun _ _ hp => hp.2) hnames
    rw [← hall, ModuleImage.loadedOperation, List.map_map]
    rfl
  · have hbind : (m.loadedOperation symbols image).bind call =
        (wireKeys d.parameters).mapM fun key => (d.wireParam (names key) key).bind call := by
      have hkeys : ∀ key ∈ wireKeys d.parameters, key ∈ wireKeys d.parameters := fun _ hk => hk
      apply mapM_eq_of_forall₂
      rw [ModuleImage.loadedOperation, List.forall₂_map_right_iff]
      refine List.Forall₂.imp ?_ ((List.forall₂_and_left _ _).mpr ⟨hkeys, hnames⟩)
      rintro key p ⟨hkey, hp, hname⟩
      exact hp.bind_eq hkey hm hcarrier hname call
    rw [Operation.invoke, GeneratedOperation.bridgeRequest, hbind]
    refine ⟨fun e he => ?_, fun hnone => ?_⟩
    · rw [(mapM_bind_eq_error_iff hd).mpr he]
      rfl
    · cases hvalues : (wireKeys d.parameters).mapM fun key => (d.wireParam (names key) key).bind call with
      | error e => exact absurd ((mapM_bind_eq_error_iff hd).mp hvalues) (hnone e)
      | ok values =>
        obtain ⟨inits, hinits, hrequest⟩ := h.request
        refine ⟨ValueExpr.evalFields values [] inits [], hd.fills hinits (forall₂_of_mapM hvalues), ?_⟩
        rw [← hrequest]
        rfl

end

end HandlerDefinition

section

variable {ds : List HandlerDefinition} {r : ReferenceSet} {module : ModuleId}
  {parsed : List ParsedUnit} {p : CheckedProgram}

/-- The shape of a carrier has the fields that its declaration has. -/
theorem bodyFields_eq {d : HandlerDefinition} {s : TypeScope} {decl : ShapeDecl} {fields : List Field}
    (hlocated : ∀ t ∈ d.types, t.Located)
    (hdecl : List.Forall₂ (fun b f => f.name.name = b.source ∧ f.type.toTypeRef = b.type) d.bodyLike
      decl.fields) (h : FieldsOf s decl.fields fields) : fields = d.bodyFields := by
  have hmem : ∀ b ∈ d.bodyLike, b.type.Located := fun b hb =>
    hlocated _ (HandlerDefinition.mem_types (List.mem_filter.mp hb).1)
  have hfields : List.Forall₂ (fun b f => (id f : Field) = ⟨b.source, b.type⟩) d.bodyLike fields := by
    refine forall₂_comp (fun b f f' hf hf' => ?_) ((List.forall₂_and_left _ _).mpr ⟨hmem, hdecl⟩) h.each
    obtain ⟨hlocated, hname, htype⟩ := hf
    obtain ⟨ht, -⟩ := TypeScope.resolve_located hf'.type htype hlocated
    obtain ⟨name, type⟩ := f'
    rw [id, Field.mk.injEq]
    exact ⟨hf'.name.trans hname, ht⟩
  rw [HandlerDefinition.bodyFields, ← map_eq_map_of_forall₂ (fun _ _ hf => hf) hfields, List.map_id]

/-- Declarations of definitions are checked to images of them. -/
theorem imagedIn_of_program (hp : ProgramOf r module parsed p)
    (hdeclared : List.Forall₂ (fun d o => d.DeclaredIn parsed o) ds (declaredOps parsed))
    (hvalid : ∀ d ∈ ds, d.Valid) (hlocated : ∀ d ∈ ds, ∀ t ∈ d.types, t.Located) :
    List.Forall₂ (fun d image => d.ImagedIn module p.shapes image) ds p.operations := by
  have hgiven : ∀ d ∈ ds, d.Valid ∧ ∀ t ∈ d.types, t.Located :=
    fun d hd => ⟨hvalid d hd, hlocated d hd⟩
  refine forall₂_comp (fun d o image hd himage => ?_)
    ((List.forall₂_and_left _ _).mpr ⟨hgiven, hdeclared⟩) hp.operations
  obtain ⟨⟨hvalid, hlocated⟩, carrier, hsays, hcarrier⟩ := hd
  refine ⟨carrier, hsays.imaged hvalid hlocated himage, fun name hname => ?_⟩
  obtain ⟨decl, hdecl, hnamed, hfields⟩ := hcarrier name hname
  obtain ⟨shape, hshape, hof⟩ := exists_right_of_forall₂ hp.shapes hdecl
  exact ⟨shape, hshape, hof.name.trans hnamed, bodyFields_eq hlocated hfields hof.fields⟩

/-- The operations of an image are those that were checked, with their locals or without them. -/
theorem CheckedProgram.forall₂_image {α : Type} {as : List α} {R : α → OperationImage → Prop}
    (h : List.Forall₂ R as p.operations) (hR : ∀ a image, R a image → R a image.inlineLocals)
    (o : CompileOptions) : List.Forall₂ R as (p.image o).operations := by
  rw [image]
  cases o.mode with
  | debug => exact h
  | release =>
    rw [List.forall₂_map_right_iff]
    exact h.imp hR

end

/-- A module that is built has one operation for every definition, in order, and each does what its
definition says. -/
theorem build_serves {b : Builder} {ds : List HandlerDefinition} {files files' : FileTree}
    {m : CompiledModule} (hm : IsModulePath b.settings.moduleName)
    (htypes : ∀ d ∈ ds, ∀ t ∈ d.types, ∃ text, TypeRef.ofText text = .ok t)
    (h : b.build ds files = (.ok m, files')) :
    ∃ ops, m.operations = ops.map .generated ∧ List.Forall₂ HandlerDefinition.Serves ds ops := by
  have hwritable : ∀ d ∈ ds, ∀ t ∈ d.types, t.Writable :=
    fun d hd t ht => TypeRef.exists_ofText_iff.mp (htypes d hd t ht)
  obtain ⟨r, units, a, hprepare, hcompile, hload⟩ := Builder.build_ok h
  have hprepared := Builder.prepared_of_prepare hprepare
  obtain ⟨specs, rfl, hmade⟩ := hprepared.made
  obtain ⟨e, he, rfl⟩ := compile_eq_ok_iff.mp hcompile
  obtain ⟨parsed, p, hparsed, hp, himage⟩ := emitPlaced_sound he
  obtain rfl := loaded_of_load hm he hload
  have hdeclared := declaredIn_of_makes hmade hprepared.valid hwritable hparsed
  have himaged := imagedIn_of_program hp hdeclared hprepared.valid hprepared.located
  have hall := CheckedProgram.forall₂_image himaged (fun _ _ hd => hd.inlineLocals)
    b.settings.compileOptions
  have hnames := (emit_names he).1
  refine ⟨e.image.operations.map (e.image.loadedOperation e.symbols), ?_, ?_⟩
  · rw [ModuleImage.loaded_operations, List.map_map]
    rfl
  · rw [List.forall₂_map_right_iff]
    rw [himage] at hnames ⊢
    refine List.Forall₂.imp ?_ ((List.forall₂_and_left _ _).mpr ⟨hprepared.valid, hall⟩)
    rintro d image ⟨hd, himaged⟩
    exact himaged.serves hd hnames e.symbols

theorem renameDefinition_keys :
    wireKeys renameDefinition.parameters = [(false, "id"), (true, "form")] := by decide +kernel

theorem renameDefinition_sourceOf : renameDefinition.sourceOf (false, "id") = .path := by
  decide +kernel

/-- A call with both values is handed on. -/
theorem renameDefinition_fills : renameDefinition.Fills ⟨[("id", "7")], [], some "name=Ada"⟩
    [("id", .ofInt 7), ("name", .string "Ada")] where
  names := .refl _
  values := by
    have hform : WireValues.get? (formPairs "name=Ada") "name" = some "Ada" := by decide +kernel
    refine List.forall_mem_cons.mpr ⟨⟨_, rfl, ?_⟩, List.forall_mem_singleton.mpr ⟨_, rfl, ?_⟩⟩
    · exact .path renameDefinition_sourceOf rfl rfl
    · exact .form rfl rfl hform rfl
  sorted := List.pairwise_pair.mpr (by decide)

theorem renameDefinition_firstError_id {names : Bool × String → String} :
    renameDefinition.FirstError names ⟨[("id", "x")], [], none⟩
      (.invalidValue "id" Primitive.int.type "x") := by
  refine ⟨[], (false, "id"), [(true, "form")], renameDefinition_keys, nofun, ?_⟩
  exact .path renameDefinition_sourceOf rfl fun q hq => by
    obtain rfl : Primitive.int = q := Option.some.inj hq
    rfl

/-- A parameter that comes later is reported if those before it are in order. -/
theorem renameDefinition_firstError_form {names : Bool × String → String} :
    renameDefinition.FirstError names ⟨[("id", "7")], [], none⟩
      (.missingBody (names (true, "form"))) := by
  refine ⟨[(false, "id")], (true, "form"), [], renameDefinition_keys, ?_, .noForm rfl rfl⟩
  refine List.forall_mem_singleton.mpr fun e he => ?_
  obtain ⟨b, hb, hnone⟩ := he.exists_not_delivers (renameDefinition_keys ▸ List.mem_cons_self)
  obtain rfl : b = ⟨"id", "id", .queryOrPath, Primitive.int.type⟩ := List.mem_singleton.mp hb
  exact hnone (.ofInt 7) (.path renameDefinition_sourceOf rfl rfl)

theorem build_serves_rename :
    ∃ m files' op id form, renameBuilder.build [renameDefinition] ⟨[], []⟩ = (.ok m, files') ∧
      m.operations = [.generated op] ∧ renameDefinition.Serves op ∧
      op.params.map (·.name) = [id, form] ∧
      ∀ processor,
        (Operation.generated op).invoke ⟨[("id", "7")], [], some "name=Ada"⟩ processor =
          (processor ⟨.async, ⟨.declared "shop" "Rename", .declared "shop" "Order"⟩,
            .object [("id", .ofInt 7), ("name", .string "Ada")]⟩).mapError .dispatch ∧
        (Operation.generated op).invoke ⟨[("id", "x")], [], none⟩ processor =
          .error (.binding (.invalidValue "id" Primitive.int.type "x")) ∧
        (Operation.generated op).invoke ⟨[("id", "7")], [], none⟩ processor =
          .error (.binding (.missingBody form)) := by
  have hm : IsModulePath renameBuilder.settings.moduleName :=
    ⟨["forge", "generated"], by decide, by decide, rfl⟩
  have htypes : ∀ d ∈ [renameDefinition], ∀ t ∈ d.types, ∃ text, TypeRef.ofText text = .ok t :=
    List.forall_mem_singleton.mpr renameDefinition_wellTyped.textual
  obtain ⟨specs, hspecs⟩ : ∃ specs, renameBuilder.specs [renameDefinition] = .ok specs :=
    exists_eq_ok (by decide +kernel)
  obtain ⟨m, files', hbuild⟩ := Builder.build_of_specs ⟨[], []⟩ hm renameBuilder_locates
    (List.forall_mem_singleton.mpr renameDefinition_wellTyped)
    (List.forall_mem_singleton.mpr renameDefinition_foreign)
    (List.forall_mem_singleton.mpr (by decide)) hspecs (renameBuilder_texts specs hspecs)
  obtain ⟨ops, hops, hserves⟩ := build_serves hm htypes hbuild
  obtain ⟨op, _, hop, hnil, rfl⟩ := List.forall₂_cons_left_iff.mp hserves
  obtain rfl := List.forall₂_nil_left_iff.mp hnil
  obtain ⟨names, hnames, hinvoke⟩ := hop.invoke
  rw [renameDefinition_keys] at hnames
  refine ⟨m, files', op, _, _, hbuild, hops, hop, hnames, fun processor => ⟨?_, ?_, ?_⟩⟩
  · obtain ⟨request, hfills, hhanded⟩ := (hinvoke ⟨[("id", "7")], [], some "name=Ada"⟩ processor).2
      fun _ => renameDefinition_fills.not_firstError
    rw [hhanded, hfills.unique renameDefinition_fills, hop.mode, hop.key]
    rfl
  · exact (hinvoke _ processor).1 _ renameDefinition_firstError_id
  · exact (hinvoke _ processor).1 _ renameDefinition_firstError_form

end EndpointCompiler
