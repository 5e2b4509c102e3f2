import EndpointCompiler.Proofs.Build.Findings
import EndpointCompiler.Proofs.Build.Typing

/-! What is made for a well-typed definition is accepted. The checker comes to an image of its
operation and to the fields of its carrier. -/

namespace EndpointCompiler

open Source Checked

namespace HandlerDefinition

/-- The carrier of a definition is in scope, with a field for each binding to the body. -/
def Carried (s : TypeScope) (d : HandlerDefinition) (carrier : Option String) : Prop :=
  ∀ name ∈ carrier, name ≠ "Async" ∧ s.shape? name = some d.bodyFields

section

variable {s : TypeScope} {d : HandlerDefinition} {carrier : Option String} {o : OpDecl}
  {key : Bool × String} {images : List ParamImage}

theorem TypedIn.located_answer (ht : d.TypedIn s) : d.response.unwrapAsync.Located :=
  TypeRef.located_unwrapAsync.mpr (ht.located _ (by simp [types]))

theorem TypedIn.admits_answer (ht : d.TypedIn s) : s.Admits false d.response.unwrapAsync :=
  ht.admits _ (mem_definitionTypes.mpr (.inr (.inl rfl)))

theorem TypedIn.admits_binding (ht : d.TypedIn s) {b : ParameterBinding} (hb : b ∈ d.parameters) :
    s.Admits false b.type :=
  ht.admits _ (mem_definitionTypes.mpr (.inr (.inr ⟨b, hb, rfl⟩)))

theorem SaysOp.checkAttributes_accepts (ho : d.SaysOp carrier o) (hd : d.Valid) (ht : d.TypedIn s) :
    ∃ found span, (checkAttributes s o).Yields found ∧
      found.route = some ⟨d.method, d.route, span⟩ := by
  obtain ⟨http, produces, verb, span, answer, hattributes, hhttp, hargs, hproduces, hargs', hanswer⟩ :=
    ho.exists_attributes
  have hroute : (checkAttribute s ⟨false, none, none⟩ http).Yields
      ⟨true, some ⟨d.method, d.route, http.span⟩, none⟩ := by
    rw [checkAttribute_yields_iff, if_pos hhttp, checkHttp_routed hd hargs]
    exact ⟨rfl, _, yields_pure'.mpr rfl, rfl⟩
  have hanswers : (checkAttribute s ⟨true, some ⟨d.method, d.route, http.span⟩, none⟩ produces).Yields
      ⟨true, some ⟨d.method, d.route, http.span⟩, some d.response.unwrapAsync⟩ := by
    rw [checkAttribute_yields_iff, hproduces, if_neg (by decide), if_pos rfl]
    have htype := TypeScope.resolve_of_admits hanswer ht.located_answer ht.admits_answer
    exact ⟨answer, _, hargs', htype, rfl⟩
  refine ⟨⟨true, some ⟨d.method, d.route, http.span⟩, some d.response.unwrapAsync⟩, http.span,
    checkAttributes_yields_iff.mpr ⟨?_, _, rfl⟩, rfl⟩
  rw [hattributes]
  exact yields_foldlM_cons.mpr ⟨_, hroute, yields_foldlM_cons.mpr ⟨_, hanswers, yields_pure.mpr rfl⟩⟩

/-- The parameter of a group has an image. -/
theorem SaysParam.accepted (ht : d.TypedIn s) (hc : d.Carried s carrier) {p : ParamDecl}
    (hp : d.SaysParam carrier key p) :
    ∃ image, d.ParamImaged s.module carrier key image ∧ ParamOf s p image := by
  have htype : ∃ t, (s.resolve false p.type).Yields t := by
    have hwritten := hp.type
    unfold SaysType at hwritten
    by_cases hbody : key.1 = true
    · rw [if_pos hbody] at hwritten
      obtain ⟨name, hname, hwritten⟩ := hwritten
      obtain ⟨hasync, hshape⟩ := hc name hname
      refine ⟨_, (s.resolve_yields_iff false p.type _).mpr ⟨?_, rfl⟩⟩
      rw [hwritten]
      exact ⟨hasync, hshape ▸ rfl, rfl⟩
    · rw [if_neg hbody] at hwritten
      obtain ⟨b, hb, hwritten⟩ := hwritten
      have hmem : b ∈ d.parameters := (mem_bindingsOf.mp (List.mem_of_mem_head? hb)).1
      exact ⟨_, TypeScope.resolve_of_admits hwritten (ht.located _ (mem_types hmem))
        (ht.admits_binding hmem)⟩
  obtain ⟨t, htype⟩ := htype
  have himage : ParamOf s p ⟨p.name.name, key.2, d.sourceOf key, t⟩ :=
    ⟨rfl, by rw [hp.checkBinding]; exact yields_pure'.mpr rfl, htype⟩
  exact ⟨_, hp.imaged ht.located himage, himage⟩

theorem ParamImaged.suits (ht : d.TypedIn s) (hc : d.Carried s carrier)
    (hkey : key ∈ wireKeys d.parameters) {image : ParamImage}
    (h : d.ParamImaged s.module carrier key image) :
    ParamSuits s (some (Route.placeholders d.route)) 0 image := by
  have hbody : image.source = .body ∨ image.source = .form ↔ key.1 = true := by
    rw [h.source]
    exact bodySource_iff hkey
  have htype := h.type
  refine ⟨fun hsource => ?_, fun _ => rfl, fun hform => ?_, fun hpath names hnames => ?_⟩
  · have hnot : ¬ key.1 = true := by
      rw [← hbody]
      rcases hsource with hs | hs <;> simp [hs]
    obtain ⟨b, hb, rfl⟩ := mem_wireKeys.mp hkey
    have hkind : b.kind = .queryOrPath :=
      BindingKind.isBodyLike_eq_false_iff.mp (Bool.eq_false_iff.mpr hnot)
    rw [if_neg hnot, ht.shared b hb hkind] at htype
    rw [htype]
    exact ht.scalars b hb hkind
  · rw [if_pos (hbody.mp (.inr hform))] at htype
    obtain ⟨name, hname, htype⟩ := htype
    rw [htype, TypeRef.declared, TypeScope.fieldsOf?, if_pos rfl, (hc name hname).2]
    rfl
  · obtain rfl := Option.some.inj hnames
    rw [h.wireName]
    exact mem_placeholders_of_path (h.source.symm.trans hpath)

theorem sourceOf_placeholder {name : String} (hkey : (false, name) ∈ wireKeys d.parameters)
    (hname : name ∈ Route.placeholders d.route) : d.sourceOf (false, name) = .path := by
  obtain ⟨b, bs, hbs⟩ := List.exists_cons_of_ne_nil (bindingsOf_ne_nil hkey)
  have hb : b.wireKey = (false, name) := (mem_bindingsOf.mp (hbs ▸ List.mem_cons_self)).2
  have hkind : b.kind = .queryOrPath :=
    BindingKind.isBodyLike_eq_false_iff.mp (Prod.mk.inj hb).1
  rw [sourceOf, hbs]
  simp [hkind, hname]

/-- The parameters for the body are those of the groups to it. -/
theorem bodyCount_eq {keys : List (Bool × String)} (hkeys : ∀ key ∈ keys, key ∈ wireKeys d.parameters)
    (h : List.Forall₂ (d.ParamImaged s.module carrier) keys images) :
    bodyCount images = keys.countP (·.1) := by
  induction h with
  | nil => rfl
  | @cons key image keys images himage _ ih =>
    rw [List.forall_mem_cons] at hkeys
    have hbody : image.source = .body ∨ image.source = .form ↔ key.1 = true := by
      rw [himage.source]
      exact bodySource_iff hkeys.1
    rw [bodyCount_cons, List.countP_cons, ih hkeys.2]
    simp only [hbody]

theorem bodyKeys_le (hd : d.Valid) : (wireKeys d.parameters).countP (·.1) ≤ 1 := by
  obtain ⟨target, htarget⟩ := hd.target_eq
  have hkeys : ∀ key ∈ wireKeys d.parameters, key.1 = true → (key == (true, target)) = true := by
    intro key hkey hbody
    obtain ⟨b, hb, rfl⟩ := mem_wireKeys.mp hkey
    exact beq_iff_eq.mpr (htarget b (List.mem_filter.mpr ⟨hb, hbody⟩))
  calc (wireKeys d.parameters).countP (·.1)
      ≤ (wireKeys d.parameters).countP (· == (true, target)) := List.countP_mono_left hkeys
    _ ≤ 1 := List.nodup_iff_count_le_one.mp (wireKeys_nodup d.parameters) (true, target)

theorem SaysOp.checkParams_accepts (ho : d.SaysOp carrier o) (hd : d.Valid) (ht : d.TypedIn s)
    (hc : d.Carried s carrier) (route : HttpRoute) (hroute : route.route = d.route) :
    ∃ images, (checkParams s o (some route)).Yields images ∧
      List.Forall₂ (d.ParamImaged s.module carrier) (wireKeys d.parameters) images := by
  obtain ⟨images, himages, heach⟩ :=
    exists_forall₂ (ho.params.imp fun key p hp => hp.accepted ht hc)
  refine ⟨images, checkParams_yields_iff.mpr ⟨?_, ?_⟩, himages⟩
  · rw [Option.map_some, hroute]
    refine ⟨heach, ho.paramNames, fun image himage => ?_, ?_⟩
    · obtain ⟨key, hkey, himaged⟩ := exists_left_of_forall₂ himages himage
      exact himaged.suits ht hc hkey
    · rw [bodyCount_eq (fun _ hkey => hkey) himages]
      exact bodyKeys_le hd
  · intro r hr name hname
    obtain rfl := Option.some.inj hr
    rw [hroute] at hname
    have hkey := ht.placeholders name hname
    obtain ⟨image, himage, himaged⟩ := exists_right_of_forall₂ himages hkey
    exact .inl ⟨image, himage, himaged.source.trans (sourceOf_placeholder hkey hname),
      himaged.wireName⟩

theorem SaysOp.checkResult_accepts (ho : d.SaysOp carrier o) (ht : d.TypedIn s) :
    (checkResult s o).Yields d.response := by
  rw [checkResult_yields_iff]
  refine ⟨?_, ho.isAsync⟩
  exact TypeScope.resolve_of_admits ho.result (ht.located _ (by simp [types]))
    (TypeScope.admits_async ht.admits_answer)

/-- A property is set with a value of its type. -/
theorem SaysInit.accepted (ht : d.TypedIn s) (hd : d.Valid) (hc : d.Carried s carrier)
    (hnames : (o.params.map (·.name.name)).Nodup)
    (himages : List.Forall₂ (d.ParamImaged s.module carrier) (wireKeys d.parameters) images)
    {b : ParameterBinding} (hb : b ∈ d.parameters) {init : Ident × Expr}
    (hinit : SaysInit ((wireKeys d.parameters).zip o.params) b init) :
    ∃ v, (checkValue s (paramVars o (some images)) init.2).Yields v ∧ v.type = b.type := by
  obtain ⟨p, x, hp, hx, hvalue⟩ := hinit.value
  obtain ⟨k, hk⟩ := List.mem_iff_getElem?.mp hp
  obtain ⟨hkey, hparam⟩ := List.getElem?_zip_eq_some.mp hk
  obtain ⟨image, himage, himaged⟩ := getElem?_of_forall₂ himages hkey
  have hvar : (checkValue s (paramVars o (some images)) (.var x)).Yields ⟨.param k, image.type⟩ := by
    rw [checkValue_var_yields_iff, hx, paramVars_find?_of_nodup hnames hparam, himage]
    rfl
  have htype := himaged.type
  by_cases hbody : b.kind.isBodyLike = true
  · have hkeyBody : b.wireKey.1 = true := hbody
    rw [if_pos hbody] at hvalue
    rw [if_pos hkeyBody] at htype
    obtain ⟨y, span, hfield, hy⟩ := hvalue
    obtain ⟨name, hname, htype⟩ := htype
    have hfields : s.fieldsOf? image.type = some d.bodyFields := by
      rw [htype, TypeRef.declared, TypeScope.fieldsOf?, if_pos rfl, (hc name hname).2]
    have hmem : (⟨b.source, b.type⟩ : Field) ∈ d.bodyFields :=
      List.mem_map.mpr ⟨b, List.mem_filter.mpr ⟨hb, hbody⟩, rfl⟩
    have hfound := find?_of_nodup_map hd.bodyFields_nodup hmem
    rw [hfield]
    exact ⟨_, checkValue_field_yields_iff.mpr ⟨_, _, _, hvar, hfields, hy ▸ hfound, rfl⟩, rfl⟩
  · have hkeyBody : ¬ b.wireKey.1 = true := hbody
    rw [if_neg hbody] at hvalue
    rw [if_neg hkeyBody] at htype
    have hkind := BindingKind.isBodyLike_eq_false_iff.mp (Bool.eq_false_iff.mpr hbody)
    rw [hvalue]
    exact ⟨_, hvar, htype.trans (ht.shared b hb hkind)⟩

/-- The request is built from values of the types of its fields, and handed on. -/
theorem SaysOp.checkStmts_accepts (ho : d.SaysOp carrier o) (hd : d.Valid) (ht : d.TypedIn s)
    (hc : d.Carried s carrier)
    (himages : List.Forall₂ (d.ParamImaged s.module carrier) (wireKeys d.parameters) images) :
    ∃ locals call, (checkStmts s o (some d.response.unwrapAsync) (paramVars o (some images)) []
      o.body).Yields (locals, call) := by
  obtain ⟨x, type, inits, span, span', value, span'', hbody, hx, htype, hinits, request, response, y,
    hcall, hrequest, hresponse, hy⟩ := ho.body
  obtain ⟨fields, hfields, hdeclared⟩ := ht.fields
  have hnew : (paramVars o (some images)).find? x.name = none := by
    rw [← Option.not_isSome_iff_eq_none, vars_find?_isSome_iff, paramVars_names]
    exact hx
  have hlocated : d.request.Located := ht.located _ (by simp [types])
  have hadmits : s.Admits false d.request := ht.admits _ (mem_definitionTypes.mpr (.inl rfl))
  have hnames : (inits.map (·.1.name)).Nodup := by
    rw [map_eq_map_of_forall₂ (fun _ _ hinit => hinit.property) hinits]
    exact hd.sources_nodup
  have hsuits : ∀ init ∈ inits, ∃ f v, fields.find? (·.name == init.1.name) = some f ∧
      (checkValue s (paramVars o (some images)) init.2).Yields v ∧
        (v.type = f.type ∨ f.type = objectType) := by
    intro init hinit
    obtain ⟨b, hb, hsays⟩ := exists_left_of_forall₂ hinits hinit
    have hmem : b ∈ d.parameters := mem_groupedBindings.mp hb
    obtain ⟨f, hf, hfield⟩ := Option.map_eq_some_iff.mp (hdeclared b hmem)
    obtain ⟨v, hv, hvtype⟩ := hsays.accepted ht hd hc ho.paramNames himages hmem
    exact ⟨f, v, hsays.property ▸ hf, hv, .inl (hvtype.trans hfield.symm)⟩
  obtain ⟨values, hvalues⟩ : ∃ values, (checkInits s (paramVars o (some images)) d.request fields []
      inits).Yields values := exists_checkInits hnames (fun _ _ => List.not_mem_nil) hsuits
  have hvalue : (checkValue s (paramVars o (some images)) (.new type inits span)).Yields
      ⟨.new d.request values, d.request⟩ :=
    checkValue_new_yields_iff.mpr
      ⟨_, _, _, TypeScope.resolve_of_admits htype hlocated hadmits, hfields, hvalues, rfl⟩
  have hlocal : (checkValue s ((x.name, some ⟨.local 0, d.request⟩) :: paramVars o (some images))
      (.var y)).Yields ⟨.local 0, d.request⟩ := by
    rw [checkValue_var_yields_iff, hy, Vars.find?_cons, if_pos rfl]
  -- The call finds the request that was just built under the first index.
  have hreturn : (checkReturn s o (some d.response.unwrapAsync)
      ((x.name, some ⟨.local 0, d.request⟩) :: paramVars o (some images)) value).Yields
        ⟨d.request, d.response.unwrapAsync, o.isAsync, .local 0⟩ :=
    checkReturn_yields (ho.isAsync ▸ hcall)
      (TypeScope.resolve_of_admits hrequest hlocated hadmits)
      (TypeScope.resolve_of_admits hresponse ht.located_answer ht.admits_answer) hlocal (.inl rfl)
      fun t h => (Option.some.inj h).symm
  rw [hbody]
  exact ⟨_, _, checkStmts_bind_yields_iff.mpr
    ⟨hnew, _, hvalue, checkStmts_result_yields_iff.mpr ⟨hreturn, rfl⟩⟩⟩

/-- The operation of a well-typed definition is accepted. -/
theorem SaysOp.checkOp_accepts (ho : d.SaysOp carrier o) (hd : d.Valid) (ht : d.TypedIn s)
    (hc : d.Carried s carrier) : ∃ image, (checkOp s o).Yields image := by
  obtain ⟨attrs, span, hattrs, hroute⟩ := ho.checkAttributes_accepts hd ht
  obtain ⟨params, hparams, himages⟩ :=
    ho.checkParams_accepts hd ht hc ⟨d.method, d.route, span⟩ rfl
  obtain ⟨locals, call, hbody⟩ := ho.checkStmts_accepts hd ht hc himages
  exact ⟨_, checkOp_yields_iff.mpr ⟨attrs, _, params, _, locals, call, hattrs, hroute, hparams,
    ho.checkResult_accepts ht, hbody, rfl⟩⟩

/-- The fields of a carrier are accepted as the bindings to the body have them. -/
theorem TypedIn.fieldsOf (ht : d.TypedIn s) (hd : d.Valid) {fields : List FieldDecl}
    (h : List.Forall₂ (fun b f => f.name.name = b.source ∧ f.type.toTypeRef = b.type) d.bodyLike
      fields) : FieldsOf s fields d.bodyFields := by
  have hmem : ∀ b ∈ d.bodyLike, b ∈ d.parameters := fun b hb => (List.mem_filter.mp hb).1
  constructor
  · rw [bodyFields, List.forall₂_map_right_iff]
    refine List.Forall₂.imp ?_ ((List.forall₂_and_left _ _).mpr ⟨hmem, h⟩).flip
    rintro f b ⟨hb, hname, htype⟩
    exact ⟨hname.symm, TypeScope.resolve_of_admits htype (ht.located _ (mem_types hb))
      (ht.admits_binding hb)⟩
  · rw [map_eq_map_of_forall₂ (fun _ _ hf => hf.1) h]
    exact hd.bindings.nodup.sublist (List.filter_sublist.map _)

end

end HandlerDefinition

end EndpointCompiler
