import EndpointCompiler.Proofs.Compilation.Soundness
import EndpointCompiler.Proofs.Endpoint.Wire
import EndpointCompiler.Proofs.Image.Objects
import EndpointCompiler.Proofs.References

/-! The image of a definition's operation. Its types are those of the definition as they stand, its
parameters are those of the groups, and its request sets every property from its group. -/

namespace EndpointCompiler

open Source Checked

namespace TypeRef

mutual

/-- A type whose names have modules is not changed where a module is put to the others. -/
theorem Located.qualify_eq (m : ModuleId) {t : TypeRef} (h : t.Located) : t.qualify m = t := by
  match t with
  | .named none name args => cases h _ (mem_subterms_self _) rfl
  | .named (some id) name args =>
    have hargs : qualifyAll m args = args := qualifyAll_eq m fun _ hu => h.of_mem_children hu
    rw [qualify, Option.getD_some, hargs]
  | .array t => rw [qualify, Located.qualify_eq m (h.of_mem_children (List.mem_singleton_self t))]
  | .async t => rw [qualify, Located.qualify_eq m (h.of_mem_children (List.mem_singleton_self t))]

theorem qualifyAll_eq (m : ModuleId) {ts : List TypeRef} (h : ∀ t ∈ ts, t.Located) :
    qualifyAll m ts = ts := by
  match ts with
  | [] => rfl
  | t :: ts =>
    rw [List.forall_mem_cons] at h
    rw [qualifyAll, h.1.qualify_eq m, qualifyAll_eq m h.2]

end

end TypeRef

theorem TypeScope.resolve_located {s : TypeScope} {allowAsync : Bool} {t : TypeExpr} {u r : TypeRef}
    (h : (s.resolve allowAsync t).Yields r) (ht : t.toTypeRef = u) (hu : u.Located) :
    r = u ∧ s.Admits allowAsync u := by
  obtain ⟨hadmits, rfl⟩ := (s.resolve_yields_iff allowAsync t r).mp h
  rw [ht] at hadmits ⊢
  exact ⟨hu.qualify_eq s.module, hadmits⟩

namespace HandlerDefinition

/-- The image of the parameter for a group. A body has the type of its carrier. -/
structure ParamImaged (d : HandlerDefinition) (module : ModuleId) (carrier : Option String)
    (key : Bool × String) (p : ParamImage) : Prop where
  wireName : p.wireName = key.2
  source : p.source = d.sourceOf key
  type : if key.1 then ∃ name ∈ carrier, p.type = .declared module name else p.type = d.wireType key

/-- A property is set from the parameter of its group, or from its member of the body. -/
def Initialises (d : HandlerDefinition) (b : ParameterBinding) (init : String × ValueExpr) : Prop :=
  init.1 = b.source ∧ ∃ i, (wireKeys d.parameters)[i]? = some b.wireKey ∧
    init.2 = if b.kind.isBodyLike then .field (.param i) b.source else .param i

/-- The image of a definition's operation. -/
structure Imaged (d : HandlerDefinition) (module : ModuleId) (carrier : Option String)
    (image : OperationImage) : Prop where
  method : image.method = d.method.token
  route : image.route = d.route
  produces : image.produces = some d.response.unwrapAsync
  params : List.Forall₂ (d.ParamImaged module carrier) (wireKeys d.parameters) image.params
  paramNames : (image.params.map (·.name)).Nodup
  callRequest : image.call.request = d.request
  callResponse : image.call.response = d.response.unwrapAsync
  callAsync : image.call.isAsync = d.response.isAsync
  response : d.response.unwrapAsync.isAsync = false
  request : ∃ inits, List.Forall₂ d.Initialises
      ((wireKeys d.parameters).flatMap (bindingsOf d.parameters)) inits ∧
    ∀ values, image.request values = .object (ValueExpr.evalFields values [] inits [])

/-- Without its locals an operation is the same to a definition. -/
theorem Imaged.inlineLocals {d : HandlerDefinition} {module : ModuleId} {carrier : Option String}
    {image : OperationImage} (h : d.Imaged module carrier image) :
    d.Imaged module carrier image.inlineLocals := by
  obtain ⟨inits, hinits, hrequest⟩ := h.request
  have hrequest' : ∀ values, image.inlineLocals.request values =
      .object (ValueExpr.evalFields values [] inits []) := fun values => by
    rw [OperationImage.request_inlineLocals, hrequest]
  have hlocals : image.inlineLocals = image ∨ image.inlineLocals =
      { image with
        locals := []
        call := { image.call with
          arg := image.call.arg.substitute (ValueExpr.expandLocals image.locals) } } := by
    unfold OperationImage.inlineLocals
    split
    · exact .inl rfl
    · exact .inr rfl
  rcases hlocals with he | he
  · rw [he]
    exact h
  · rw [he] at hrequest' ⊢
    exact { h with request := ⟨inits, hinits, hrequest'⟩ }

section

variable {s : TypeScope} {d : HandlerDefinition} {carrier : Option String} {o : OpDecl}
  {key : Bool × String}

theorem SaysOp.attributes_yield (ho : d.SaysOp carrier o) (hd : d.Valid)
    (hlocated : d.response.Located) {found : OpAttributes}
    (h : (checkAttributes s o).Yields found) :
    (∃ span, found.route = some ⟨d.method, d.route, span⟩) ∧
      found.produces = some d.response.unwrapAsync := by
  obtain ⟨http, produces, verb, span, answer, hattributes, hhttp, hargs, hproduces, hargs', hanswer⟩ :=
    ho.exists_attributes
  have hfold := (checkAttributes_yields_iff.mp h).1
  rw [hattributes] at hfold
  obtain ⟨seen, hfirst, hfold⟩ := yields_foldlM_cons.mp hfold
  obtain ⟨seen', hsecond, hfold⟩ := yields_foldlM_cons.mp hfold
  obtain rfl := yields_pure.mp hfold
  rw [checkAttribute_yields_iff, if_pos hhttp] at hfirst
  obtain ⟨-, route, hroute, rfl⟩ := hfirst
  rw [checkHttp_routed hd hargs] at hroute
  obtain rfl := yields_pure'.mp hroute
  rw [checkAttribute_yields_iff, hproduces, if_neg (by decide), if_pos rfl] at hsecond
  obtain ⟨t, u, ht, hu, rfl⟩ := hsecond
  obtain rfl : answer = t := by simpa [hargs'] using ht
  obtain ⟨rfl, -⟩ := TypeScope.resolve_located hu hanswer (TypeRef.located_unwrapAsync.mpr hlocated)
  exact ⟨⟨_, rfl⟩, rfl⟩

theorem SaysParam.imaged {p : ParamDecl} (hp : d.SaysParam carrier key p)
    (hlocated : ∀ t ∈ d.types, t.Located) {image : ParamImage} (h : ParamOf s p image) :
    d.ParamImaged s.module carrier key image := by
  have hbinding := h.binding
  rw [hp.checkBinding] at hbinding
  obtain ⟨hsource, hwireName⟩ := Prod.mk.inj (yields_pure'.mp hbinding)
  refine ⟨hwireName.symm, hsource.symm, ?_⟩
  have htype := hp.type
  unfold SaysType at htype
  by_cases hbody : key.1 = true
  · rw [if_pos hbody] at htype ⊢
    obtain ⟨name, hname, htype⟩ := htype
    obtain ⟨-, himage⟩ := (s.resolve_yields_iff false p.type image.type).mp h.type
    rw [htype] at himage
    exact ⟨name, hname, himage⟩
  · rw [if_neg hbody] at htype ⊢
    obtain ⟨b, hb, htype⟩ := htype
    have hmem : b ∈ d.parameters := (mem_bindingsOf.mp (List.mem_of_mem_head? hb)).1
    obtain ⟨himage, -⟩ := TypeScope.resolve_located h.type htype (hlocated _ (mem_types hmem))
    rw [himage, wireType, Option.mem_def.mp hb]
    rfl

theorem SaysInit.initialises {images : List ParamImage} {b : ParameterBinding} {init : Ident × Expr}
    (hinit : SaysInit ((wireKeys d.parameters).zip o.params) b init)
    (hnames : (o.params.map (·.name.name)).Nodup) {i : String × ValueExpr}
    (hname : i.1 = init.1.name) {v : TypedValue}
    (hv : (checkValue s (paramVars o (some images)) init.2).Yields v) (hi : i.2 = v.value) :
    d.Initialises b i := by
  refine ⟨hname.trans hinit.property, ?_⟩
  obtain ⟨p, x, hp, hx, hvalue⟩ := hinit.value
  obtain ⟨k, hk⟩ := List.mem_iff_getElem?.mp hp
  obtain ⟨hkey, hparam⟩ := List.getElem?_zip_eq_some.mp hk
  have hvar : ∀ w, (checkValue s (paramVars o (some images)) (.var x)).Yields w →
      w.value = .param k := by
    intro w hw
    rw [checkValue_var_yields_iff, hx, paramVars_find?_of_nodup hnames hparam] at hw
    obtain ⟨image, -, rfl⟩ := Option.map_eq_some_iff.mp (Option.some.inj hw)
    rfl
  refine ⟨k, hkey, ?_⟩
  by_cases hbody : b.kind.isBodyLike = true
  · rw [if_pos hbody] at hvalue ⊢
    obtain ⟨y, span, hfield, hy⟩ := hvalue
    rw [hfield] at hv
    obtain ⟨base, fields, f, hbase, -, -, rfl⟩ := checkValue_field_yields_iff.mp hv
    rw [hi, hvar base hbase, hy]
  · rw [if_neg hbody] at hvalue ⊢
    rw [hvalue] at hv
    rw [hi, hvar v hv]

/-- The request is the value that the first statement binds. -/
theorem SaysOp.body_yields (ho : d.SaysOp carrier o) (hlocated : ∀ t ∈ d.types, t.Located)
    {images : List ParamImage} {result : Option TypeRef} {locals : List ValueExpr} {call : BridgeCall}
    (h : (checkStmts s o result (paramVars o (some images)) [] o.body).Yields (locals, call)) :
    call.request = d.request ∧ call.response = d.response.unwrapAsync ∧
      call.isAsync = d.response.isAsync ∧ d.response.unwrapAsync.isAsync = false ∧
      ∃ t inits, locals = [.new t inits] ∧ call.arg = .local 0 ∧ List.Forall₂ d.Initialises
        ((wireKeys d.parameters).flatMap (bindingsOf d.parameters)) inits := by
  obtain ⟨x, type, inits, span, span', value, span'', hbody, -, -, hinits, request, response, y,
    hcall, hrequest, hresponse, hy⟩ := ho.body
  rw [hbody] at h
  obtain ⟨-, v, hv, h⟩ := checkStmts_bind_yields_iff.mp h
  obtain ⟨t, fields, values, -, -, hvalues, rfl⟩ := checkValue_new_yields_iff.mp hv
  obtain ⟨hreturn, hlocals⟩ := checkStmts_result_yields_iff.mp h
  obtain ⟨request', response', arg, r, r', w, hcall', hr, hr', hw, -, -, hresult⟩ :=
    checkReturn_sound hreturn
  rw [ho.isAsync] at hcall' hresult
  -- There is only one way to read the last statement as a call.
  obtain ⟨rfl, rfl, rfl⟩ := hcall.unique hcall'
  have hrequestLocated : d.request.Located := hlocated _ (by simp [types])
  have hresponseLocated : d.response.unwrapAsync.Located :=
    TypeRef.located_unwrapAsync.mpr (hlocated _ (by simp [types]))
  obtain ⟨rfl, -⟩ := TypeScope.resolve_located hr hrequest hrequestLocated
  obtain ⟨rfl, hadmits⟩ := TypeScope.resolve_located hr' hresponse hresponseLocated
  have hlocal : w.value = .local 0 := by
    rw [checkValue_var_yields_iff, hy, Vars.find?_cons, if_pos rfl] at hw
    obtain rfl := Option.some.inj (Option.some.inj hw)
    rfl
  obtain ⟨_, rfl, hall⟩ := checkInits_values hvalues
  have hnames := ho.paramNames
  have hsets : List.Forall₂ d.Initialises
      ((wireKeys d.parameters).flatMap (bindingsOf d.parameters)) values := by
    refine forall₂_comp (fun b init i hinit hi => ?_) hinits hall
    obtain ⟨hname, v, hv, hi⟩ := hi
    exact hinit.initialises hnames hname hv hi
  dsimp only at hresult hlocals
  rw [hresult]
  exact ⟨rfl, rfl, rfl, hadmits.isAsync, t, values, hlocals, hlocal, hsets⟩

/-- What the checker makes of a definition's operation. -/
theorem SaysOp.imaged (ho : d.SaysOp carrier o) (hd : d.Valid) (hlocated : ∀ t ∈ d.types, t.Located)
    {image : OperationImage} (h : (checkOp s o).Yields image) : d.Imaged s.module carrier image := by
  obtain ⟨attrs, route, params, result, locals, call, hattrs, hroute, hparams, -, hbody, rfl⟩ :=
    checkOp_yields_iff.mp h
  obtain ⟨⟨span, hroute'⟩, hproduces⟩ := ho.attributes_yield hd (hlocated _ (by simp [types])) hattrs
  obtain rfl := Option.some.inj (hroute.symm.trans hroute')
  have hparamsOf := (checkParams_yields_iff.mp hparams).1
  obtain ⟨hrequest, hresponse, hasync, hplain, t, inits, rfl, harg, hinits⟩ :=
    ho.body_yields hlocated hbody
  refine
    { method := rfl, route := rfl, produces := hproduces, params := ?_, paramNames := ?_
      callRequest := hrequest, callResponse := hresponse, callAsync := hasync, response := hplain
      request := ⟨inits, hinits, fun values => ?_⟩ }
  · exact forall₂_comp (fun _ _ _ hp himage => hp.imaged hlocated himage) ho.params hparamsOf.each
  · have hnames : params.map (·.name) = o.params.map (·.name.name) :=
      map_eq_map_of_forall₂ (fun _ _ hi => hi.name) hparamsOf.each
    rw [hnames]
    exact hparamsOf.names
  · rw [OperationImage.request, harg]
    rfl

end

end HandlerDefinition

end EndpointCompiler
