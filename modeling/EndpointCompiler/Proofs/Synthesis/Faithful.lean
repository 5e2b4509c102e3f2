import EndpointCompiler.Proofs.Matching
import EndpointCompiler.Proofs.Source.Types
import EndpointCompiler.Proofs.Synthesis.Parsing
import EndpointCompiler.Proofs.Synthesis.Run

/-! Generated source says what the definition says, whatever its texts are. The carrier has a field
for every binding to the body. The operation is one declaration with a parameter for every group of
bindings, which builds the request from them and hands it on. -/

namespace EndpointCompiler

open Source

namespace HandlerDefinition

/-- The types that a definition is made of. -/
def types (d : HandlerDefinition) : List TypeRef :=
  d.request :: d.response :: d.parameters.map (·.type)

/-- The bindings that share the body of a request. -/
def bodyLike (d : HandlerDefinition) : List ParameterBinding :=
  d.parameters.filter (·.kind.isBodyLike)

/-- Where the parameter of a group comes from. Its first binding decides between body and form. -/
def sourceOf (d : HandlerDefinition) (key : Bool × String) : ParamSource :=
  match (bindingsOf d.parameters key).head?.map ParameterBinding.kind with
  | some .body => .body
  | some .form => .form
  | _ => if key.2 ∈ Route.placeholders d.route then .path else .query

/-- A carrier has the type of a body, and the first binding that of another parameter. -/
def SaysType (d : HandlerDefinition) (carrier : Option String) (key : Bool × String)
    (t : TypeRef) : Prop :=
  if key.1 then ∃ name ∈ carrier, t = .named none name []
  else ∃ b ∈ (bindingsOf d.parameters key).head?, t = b.type

/-- The parameter of a group has one attribute, for its source. Without a text in it the parameter
is named as on the wire. -/
structure SaysParam (d : HandlerDefinition) (carrier : Option String) (key : Bool × String)
    (p : ParamDecl) : Prop where
  source : ∃ a, p.attributes = [a] ∧ a.name.name = (d.sourceOf key).keyword ∧
    (a.args = [] ∧ p.name.name = key.2 ∨ ∃ span, a.args = [.text key.2 span])
  type : d.SaysType carrier key p.type.toTypeRef

/-- A property is set from the parameter of its group, or from its field of the body. -/
structure SaysInit (params : List ((Bool × String) × ParamDecl)) (b : ParameterBinding)
    (init : Ident × Expr) : Prop where
  property : init.1.name = b.source
  value : ∃ p x, (b.wireKey, p) ∈ params ∧ x.name = p.name.name ∧
    if b.kind.isBodyLike then ∃ y span, init.2 = .field (.var x) y span ∧ y.name = b.source
    else init.2 = .var x

/-- What the operation of a definition declares. -/
structure SaysOp (d : HandlerDefinition) (carrier : Option String) (o : OpDecl) : Prop where
  attributes : List.Forall₂ WrittenAttribute.Says
    [⟨"http", [.type (.named none d.method.token []), .text d.route]⟩,
      ⟨"produces", [.type d.response.unwrapAsync]⟩] o.attributes
  isAsync : o.isAsync = d.response.isAsync
  params : List.Forall₂ (d.SaysParam carrier) (wireKeys d.parameters) o.params
  paramNames : (o.params.map (·.name.name)).Nodup
  result : o.result.toTypeRef = d.response
  body : ∃ x type inits span span' value span'',
    o.body = [.bind x (.new type inits span) span', .result value span''] ∧
      x.name ∉ o.params.map (·.name.name) ∧ type.toTypeRef = d.request ∧
      List.Forall₂ (SaysInit ((wireKeys d.parameters).zip o.params))
        ((wireKeys d.parameters).flatMap (bindingsOf d.parameters)) inits ∧
      ∃ request response y, CallsBridge d.response.isAsync request response (.var y) value ∧
        request.toTypeRef = d.request ∧ response.toTypeRef = d.response.unwrapAsync ∧
        y.name = x.name

section

variable {d : HandlerDefinition} {key : Bool × String} {b : ParameterBinding}

theorem Valid.target_eq (hd : d.Valid) : ∃ target, ∀ b ∈ d.bodyLike, b.wireKey = (true, target) := by
  obtain ⟨target, -, htarget⟩ := hd.bindings.body
  refine ⟨target, fun b hb => ?_⟩
  obtain ⟨hmem, hbody⟩ := List.mem_filter.mp hb
  rw [ParameterBinding.wireKey, hbody, htarget b hmem hbody]

/-- All bindings to the body have the one key, so that its group is all of them, in their order. -/
theorem Valid.bindingsOf_eq (hd : d.Valid) (hkey : key ∈ wireKeys d.parameters)
    (hbody : key.1 = true) : bindingsOf d.parameters key = d.bodyLike := by
  obtain ⟨target, htarget⟩ := hd.target_eq
  have htarget' : key = (true, target) := by
    obtain ⟨b, hb, rfl⟩ := mem_wireKeys.mp hkey
    exact htarget b (List.mem_filter.mpr ⟨hb, hbody⟩)
  refine List.filter_congr fun b hb => ?_
  by_cases hb' : b.kind.isBodyLike = true
  · simp [hb', htarget', htarget b (List.mem_filter.mpr ⟨hb, hb'⟩)]
  · simp [hb', htarget', ParameterBinding.wireKey]

/-- The bindings to the body form one group, in which they keep their order. -/
theorem Valid.bodyBindings_eq (hd : d.Valid) : Synthesizer.bodyBindings d = d.bodyLike := by
  obtain ⟨target, htarget⟩ := hd.target_eq
  have hgroups : (groupBindings d.parameters).filter (·.bodyLike) =
      ((wireKeys d.parameters).filter (·.1)).map (groupOf d.parameters) := by
    rw [groupBindings_eq, List.filter_map]
    rfl
  have hbindings : Synthesizer.bodyBindings d =
      ((wireKeys d.parameters).filter (·.1)).flatMap (bindingsOf d.parameters) := by
    rw [Synthesizer.bodyBindings, hgroups, List.flatMap_map]
    rfl
  -- Keys are distinct and all of the body have the one target, so there is at most one.
  have hkeys : ∀ key ∈ (wireKeys d.parameters).filter (·.1), key = (true, target) := by
    intro key hkey
    obtain ⟨hmem, hbody⟩ := List.mem_filter.mp hkey
    obtain ⟨b, hb, rfl⟩ := mem_wireKeys.mp hmem
    exact htarget b (List.mem_filter.mpr ⟨hb, hbody⟩)
  rw [hbindings]
  cases hk : (wireKeys d.parameters).filter (·.1) with
  | nil =>
    have hnone : ∀ b ∈ d.parameters, ¬ b.kind.isBodyLike = true := by
      intro b hb hbody
      have hmem : b.wireKey ∈ (wireKeys d.parameters).filter (·.1) :=
        List.mem_filter.mpr ⟨mem_wireKeys.mpr ⟨b, hb, rfl⟩, hbody⟩
      rw [hk] at hmem
      cases hmem
    exact (List.filter_eq_nil_iff.mpr hnone).symm
  | cons key keys =>
    have hkey : key = (true, target) := hkeys key (hk ▸ List.mem_cons_self)
    have hrest : keys = [] := by
      have hnodup := (wireKeys_nodup d.parameters).filter (·.1)
      rw [hk, List.nodup_cons] at hnodup
      refine List.eq_nil_iff_forall_not_mem.mpr fun key' hkey' => hnodup.1 ?_
      rw [hkey, ← hkeys key' (hk ▸ List.mem_cons_of_mem _ hkey')]
      exact hkey'
    have hmem : key ∈ wireKeys d.parameters :=
      (List.mem_filter.mp (hk ▸ List.mem_cons_self : key ∈ (wireKeys d.parameters).filter (·.1))).1
    rw [hrest, List.flatMap_cons, List.flatMap_nil, List.append_nil,
      hd.bindingsOf_eq hmem (congrArg Prod.fst hkey)]

theorem sourceOf_eq (hkey : key ∈ wireKeys d.parameters) :
    (groupOf d.parameters key).source (Route.placeholders d.route) = d.sourceOf key := by
  obtain ⟨b, bs, hbs⟩ := List.exists_cons_of_ne_nil (bindingsOf_ne_nil hkey)
  have hb : b.wireKey = key := (mem_bindingsOf.mp (hbs ▸ List.mem_cons_self)).2
  have hbody : key.1 = b.kind.isBodyLike := by rw [← hb, ParameterBinding.wireKey]
  unfold ParamGroup.source sourceOf groupOf
  simp only [hbs, hbody, List.head?_cons, Option.any_some, Option.map_some, List.contains_iff_mem]
  cases b.kind <;> rfl

theorem saysType_of_gives {carrier : Option String} {p : WrittenParam}
    (hkey : key ∈ wireKeys d.parameters) (hcarrier : key.1 = true → carrier.isSome = true)
    (hp : (groupOf d.parameters key).Gives (Route.placeholders d.route) (carrier.getD "") p) :
    d.SaysType carrier key p.type := by
  obtain ⟨b, bs, hbs⟩ := List.exists_cons_of_ne_nil (bindingsOf_ne_nil hkey)
  rw [SaysType, hp.type, ParamGroup.type, groupOf]
  by_cases hbody : key.1 = true
  · obtain ⟨name, rfl⟩ := Option.isSome_iff_exists.mp (hcarrier hbody)
    simp [hbody]
  · simp [hbody, hbs]

theorem saysParam_of_gives {carrier : Option String} {p : WrittenParam} {q : ParamDecl}
    (hkey : key ∈ wireKeys d.parameters) (hcarrier : key.1 = true → carrier.isSome = true)
    (hp : (groupOf d.parameters key).Gives (Route.placeholders d.route) (carrier.getD "") p)
    (hq : p.Says q) : d.SaysParam carrier key q := by
  obtain ⟨a, rest, ⟨hname, hargs⟩, hrest, hattributes⟩ := List.forall₂_cons_left_iff.mp hq.attributes
  obtain rfl := List.forall₂_nil_left_iff.mp hrest
  have hsource : p.source = d.sourceOf key := hp.source.trans (sourceOf_eq hkey)
  have hwire : p.wireName = key.2 := hp.wireName
  refine ⟨⟨a, hattributes, hsource ▸ hname, ?_⟩, ?_⟩
  · unfold WrittenParam.sourceAttribute at hargs
    by_cases hsame : p.wireName = p.name
    · rw [if_pos hsame] at hargs
      exact .inl ⟨List.forall₂_nil_left_iff.mp hargs, by rw [hq.name, ← hsame, hwire]⟩
    · rw [if_neg hsame] at hargs
      obtain ⟨arg, args, ⟨span, rfl⟩, hargs, hall⟩ := List.forall₂_cons_left_iff.mp hargs
      obtain rfl := List.forall₂_nil_left_iff.mp hargs
      exact .inr ⟨span, hwire ▸ hall⟩
  · rw [hq.type]
    exact saysType_of_gives hkey hcarrier hp

/-- An assignment takes the value of a binding from the parameter that stands beside its key. -/
structure Assigns (params : List ((Bool × String) × WrittenParam)) (b : ParameterBinding)
    (a : Assignment) : Prop where
  property : a.property = b.source
  param : ∃ p, (b.wireKey, p) ∈ params ∧ a.param = p.name
  field : a.field = if b.kind.isBodyLike then some b.source else none

theorem assigns_group {params : List ((Bool × String) × WrittenParam)} {p : WrittenParam}
    (bs : List ParameterBinding) (hp : (key, p) ∈ params) :
    List.Forall₂ (Assigns params) (bindingsOf bs key) ((groupOf bs key).assignments p.name) := by
  rw [ParamGroup.assignments, List.forall₂_map_right_iff, groupOf]
  refine List.forall₂_same.mpr fun b hb => ?_
  have hkey : b.wireKey = key := (mem_bindingsOf.mp hb).2
  refine ⟨rfl, ⟨p, hkey ▸ hp, rfl⟩, ?_⟩
  rw [← hkey, ParameterBinding.wireKey]

theorem assigns_groups (bs : List ParameterBinding) {keys : List (Bool × String)}
    {ps : List WrittenParam} {params : List ((Bool × String) × WrittenParam)}
    (hlength : keys.length = ps.length) (hsub : ∀ x ∈ keys.zip ps, x ∈ params) :
    List.Forall₂ (Assigns params) (keys.flatMap (bindingsOf bs))
      (((keys.map (groupOf bs)).zip ps).flatMap fun x => x.1.assignments x.2.name) := by
  induction keys generalizing ps with
  | nil => exact .nil
  | cons key keys ih =>
    cases ps with
    | nil => cases hlength
    | cons p ps =>
      have hfirst := assigns_group bs (hsub (key, p) List.mem_cons_self)
      have hrest := ih (Nat.succ.inj hlength) fun x hx => hsub x (List.mem_cons_of_mem _ hx)
      exact List.rel_append hfirst hrest

theorem saysInits {keys : List (Bool × String)} {ps : List WrittenParam} {qs : List ParamDecl}
    {bs : List ParameterBinding} {as : List Assignment} {inits : List (Ident × Expr)}
    (hparams : List.Forall₂ WrittenParam.Says ps qs)
    (has : List.Forall₂ (Assigns (keys.zip ps)) bs as)
    (hinits : List.Forall₂ Assignment.Says as inits) :
    List.Forall₂ (SaysInit (keys.zip qs)) bs inits := by
  refine forall₂_comp (fun b a init ha hinit => ?_) has hinits
  obtain ⟨hproperty, ⟨p, hp, hparam⟩, hfield⟩ := ha
  obtain ⟨q, hq, hsays⟩ := exists_mem_zip_of_forall₂ hparams hp
  have hname : a.param = q.name.name := by rw [hparam, hsays.name]
  have hvalue := hinit.value
  rw [Assignment.SaysValue, hfield] at hvalue
  refine ⟨hinit.property.trans hproperty, ?_⟩
  by_cases hbody : b.kind.isBodyLike = true
  · rw [if_pos hbody] at hvalue
    obtain ⟨x, y, span, hinit, hx, hy⟩ := hvalue
    exact ⟨q, x, hq, hx.trans hname, by rw [if_pos hbody]; exact ⟨y, span, hinit, hy⟩⟩
  · rw [if_neg hbody] at hvalue
    obtain ⟨x, hinit, hx⟩ := hvalue
    exact ⟨q, x, hq, hx.trans hname, by rw [if_neg hbody]; exact hinit⟩

end

theorem mem_types {d : HandlerDefinition} {b : ParameterBinding} (hb : b ∈ d.parameters) :
    b.type ∈ d.types :=
  List.mem_cons_of_mem _ (List.mem_cons_of_mem _ (List.mem_map_of_mem hb))

end HandlerDefinition

theorem OperationSpec.carrier_mem_units (spec : OperationSpec) {c : WrittenShape}
    (hc : c ∈ spec.carrier) : ⟨c.name, c.source, none⟩ ∈ spec.units := by
  rw [units, Option.mem_def.mp hc]
  exact List.mem_cons_self

theorem OperationSpec.operation_mem_units (spec : OperationSpec) :
    ⟨spec.operation.name, spec.operation.source, none⟩ ∈ spec.units :=
  List.mem_append_right _ (List.mem_singleton_self _)

namespace Synthesizer

section

variable {d : HandlerDefinition} {s s' : Synthesizer} {spec : OperationSpec}

theorem Makes.carrier_isSome_iff (h : Makes d s spec s') (hd : d.Valid) :
    spec.carrier.isSome = true ↔ ∃ b ∈ d.parameters, b.kind.isBodyLike = true := by
  have hcarrier := h.carrier
  rw [hd.bodyBindings_eq] at hcarrier
  rw [← Option.not_isNone, ← hcarrier]
  simp [HandlerDefinition.bodyLike]

theorem Makes.carrier_scannable (h : Makes d s spec s') (hd : d.Valid)
    (htypes : ∀ t ∈ d.types, t.Writable) {c : WrittenShape} (hc : c ∈ spec.carrier) :
    c.Scannable := by
  refine ⟨h.words _ (spec.carrier_mem_units hc), fun f hf => ?_⟩
  rw [h.fields c hc, carrierFields, hd.bodyBindings_eq] at hf
  obtain ⟨b, hb, rfl⟩ := List.mem_map.mp hf
  have hmem : b ∈ d.parameters := (List.mem_filter.mp hb).1
  exact ⟨hd.bindings.sources b hmem, htypes _ (HandlerDefinition.mem_types hmem)⟩

theorem Makes.carrier_of_key (h : Makes d s spec s') (hd : d.Valid) {key : Bool × String}
    (hkey : key ∈ wireKeys d.parameters) (hbody : key.1 = true) :
    (spec.carrier.map WrittenShape.name).isSome = true := by
  obtain ⟨b, hb, rfl⟩ := mem_wireKeys.mp hkey
  rw [Option.isSome_map, h.carrier_isSome_iff hd]
  exact ⟨b, hb, hbody⟩

theorem Makes.param_type_writable (h : Makes d s spec s') (hd : d.Valid)
    (htypes : ∀ t ∈ d.types, t.Writable) {p : WrittenParam} (hp : p ∈ spec.operation.params) :
    p.type.Writable := by
  have hparams := h.params
  rw [groupBindings_eq, List.forall₂_map_left_iff] at hparams
  obtain ⟨key, hkey, hgives⟩ := exists_left_of_forall₂ hparams hp
  have htype := HandlerDefinition.saysType_of_gives hkey (h.carrier_of_key hd hkey) hgives
  unfold HandlerDefinition.SaysType at htype
  by_cases hbody : key.1 = true
  · rw [if_pos hbody] at htype
    obtain ⟨name, hname, ht⟩ := htype
    obtain ⟨c, hc, rfl⟩ := Option.map_eq_some_iff.mp hname
    rw [ht]
    exact ⟨by simp, h.words _ (spec.carrier_mem_units hc), trivial, by simp⟩
  · rw [if_neg hbody] at htype
    obtain ⟨b, hb, ht⟩ := htype
    rw [ht]
    have hmem := (mem_bindingsOf.mp (List.mem_of_mem_head? hb)).1
    exact htypes _ (HandlerDefinition.mem_types hmem)

theorem isPropertyName_requestVar (u : SurrogateSource) :
    isPropertyName ("request_" ++ u.next.1) = true :=
  isPropertyName_surrogate (by decide) (by decide) fun _ hc => u.mem_next hc

theorem Makes.assignment_scannable (h : Makes d s spec s') (hd : d.Valid) {a : Assignment}
    (ha : a ∈ spec.operation.assignments) : a.Scannable := by
  rw [h.assignments] at ha
  obtain ⟨⟨g, p⟩, hgp, ha⟩ := List.mem_flatMap.mp ha
  obtain ⟨b, hb, rfl⟩ := List.mem_map.mp ha
  have hgives := List.forall₂_zip h.params hgp
  have hsource : isPropertyName b.source = true := by
    rw [groupBindings_eq] at hgp
    obtain ⟨key, -, rfl⟩ := List.mem_map.mp (List.of_mem_zip hgp).1
    exact hd.bindings.sources b (mem_bindingsOf.mp hb).1
  refine ⟨hsource, hgives.name, fun f hf => ?_⟩
  by_cases hbody : g.bodyLike = true
  · simp only [hbody, if_true, Option.some.injEq] at hf
    exact hf ▸ hsource
  · simp [hbody] at hf

theorem Makes.operation_scannable (h : Makes d s spec s') (hd : d.Valid)
    (htypes : ∀ t ∈ d.types, t.Writable) : spec.operation.Scannable where
  name := h.words _ spec.operation_mem_units
  method := by
    rw [h.method]
    have hall : Method.supported.all (fun m => isPropertyName m.token) = true := by decide
    exact List.all_eq_true.mp hall _ hd.method
  route := by
    rw [h.route]
    intro hmem
    exact absurd ((Route.no_fault hd.route).2 _ hmem) (by decide)
  params := fun p hp => by
    obtain ⟨g, -, hgives⟩ := exists_left_of_forall₂ h.params hp
    exact ⟨hgives.name, h.param_type_writable hd htypes hp⟩
  request := h.request ▸ htypes _ (by simp [HandlerDefinition.types])
  response := h.response ▸ htypes _ (by simp [HandlerDefinition.types])
  requestVar := h.requestVar ▸ isPropertyName_requestVar _
  assignments := fun _ ha => h.assignment_scannable hd ha

theorem Makes.exists_wireName_iff (h : Makes d s spec s') {c : Char} :
    (∃ p ∈ spec.operation.params, c ∈ p.wireName.toList) ↔
      ∃ b ∈ d.parameters, c ∈ b.target.toList := by
  have hparams := h.params
  rw [groupBindings_eq, List.forall₂_map_left_iff] at hparams
  constructor
  · rintro ⟨p, hp, hc⟩
    obtain ⟨key, hkey, hgives⟩ := exists_left_of_forall₂ hparams hp
    obtain ⟨b, hb, rfl⟩ := mem_wireKeys.mp hkey
    have hname : p.wireName = b.target := hgives.wireName
    exact ⟨b, hb, hname ▸ hc⟩
  · rintro ⟨b, hb, hc⟩
    obtain ⟨p, hp, hgives⟩ := exists_right_of_forall₂ hparams (mem_wireKeys.mpr ⟨b, hb, rfl⟩)
    have hname : p.wireName = b.target := hgives.wireName
    exact ⟨p, hp, hname ▸ hc⟩

/-- A declaration that says what an operation says declares what the definition says. -/
theorem Makes.saysOp (h : Makes d s spec s') (hd : d.Valid) {o : OpDecl}
    (ho : spec.operation.Says o) : d.SaysOp (spec.carrier.map WrittenShape.name) o := by
  have hparams := h.params
  rw [groupBindings_eq, List.forall₂_map_left_iff] at hparams
  have hnames : o.params.map (·.name.name) = spec.operation.params.map (·.name) :=
    map_eq_map_of_forall₂ (fun _ _ hsays => hsays.name) ho.params
  obtain ⟨x, type, inits, span, span', value, span'', hbody, hx, htype, hinits, hcall⟩ := ho.body
  obtain ⟨request, response, y, hcall, hrequest, hresponse, hy⟩ := hcall
  have hassigns := HandlerDefinition.assigns_groups d.parameters hparams.length_eq
    fun _ hmem => hmem
  have hassignments := h.assignments
  rw [groupBindings_eq] at hassignments
  rw [hassignments] at hinits
  rw [h.request] at htype
  refine
    { attributes := ?_
      isAsync := h.response ▸ ho.isAsync
      params := ?_
      paramNames := hnames ▸ h.paramNames
      result := h.response ▸ ho.result
      body := ⟨x, type, inits, span, span', value, span'', hbody, ?_, htype,
        HandlerDefinition.saysInits ho.params hassigns hinits,
        request, response, y, ?_, ?_, ?_, ?_⟩ }
  · have hattributes := ho.attributes
    rwa [WrittenOperation.attributes, h.method, h.route, h.response] at hattributes
  · have hkeys : ∀ key ∈ wireKeys d.parameters, key ∈ wireKeys d.parameters := fun _ hkey => hkey
    have hgiven := (List.forall₂_and_left _ _).mpr ⟨hkeys, hparams⟩
    refine forall₂_comp (fun key p q hgives hsays => ?_) hgiven ho.params
    exact HandlerDefinition.saysParam_of_gives hgives.1 (h.carrier_of_key hd hgives.1) hgives.2 hsays
  · rw [hnames, hx]
    intro hmem
    obtain ⟨p, hp, hname⟩ := List.mem_map.mp hmem
    exact h.paramVar p hp hname
  · rw [WrittenOperation.call, h.response] at hcall
    exact hcall
  · rw [hrequest, WrittenOperation.call, h.request]
  · rw [hresponse, WrittenOperation.call, h.response]
  · rw [hy, hx, WrittenOperation.call]

theorem Makes.parse_carrier (h : Makes d s spec s') (hd : d.Valid)
    (htypes : ∀ t ∈ d.types, t.Writable) {c : WrittenShape} (hc : c ∈ spec.carrier) :
    ∃ decl, parseSource c.source = .ok [.shape decl] ∧ decl.attributes = [] ∧
      decl.name.name = c.name ∧
      List.Forall₂ (fun b f => f.name.name = b.source ∧ f.type.toTypeRef = b.type) d.bodyLike
        decl.fields := by
  obtain ⟨decl, hparse, hsays⟩ := WrittenShape.parse (h.carrier_scannable hd htypes hc)
  have hfields := hsays.fields
  rw [h.fields c hc, carrierFields, hd.bodyBindings_eq, List.forall₂_map_left_iff] at hfields
  exact ⟨decl, hparse, hsays.attributes, hsays.name, hfields.imp fun b f hf => ⟨hf.name, hf.type⟩⟩

theorem Makes.parse_operation (h : Makes d s spec s') (hd : d.Valid)
    (htypes : ∀ t ∈ d.types, t.Writable) (hbreak : ¬ ∃ b ∈ d.parameters, '\n' ∈ b.target.toList) :
    ∃ decl, parseSource spec.operation.source = .ok [.op decl] ∧
      decl.name.name = spec.operation.name ∧
      d.SaysOp (spec.carrier.map WrittenShape.name) decl := by
  obtain ⟨decl, hparse, hsays⟩ := WrittenOperation.parse (h.operation_scannable hd htypes)
    fun p hp hmem => hbreak (h.exists_wireName_iff.mp ⟨p, hp, hmem⟩)
  exact ⟨decl, hparse, hsays.name, h.saysOp hd hsays⟩

theorem Makes.parse_operation_error (h : Makes d s spec s') (hd : d.Valid)
    (htypes : ∀ t ∈ d.types, t.Writable) (hbreak : ∃ b ∈ d.parameters, '\n' ∈ b.target.toList) :
    ∃ e, parseSource spec.operation.source = .error e := by
  obtain ⟨typeTokens, hspells⟩ := exists_spellsTypes
  exact parseSource_unscannable (WrittenOperation.unscannable hspells
    (h.operation_scannable hd htypes) (h.exists_wireName_iff.mpr hbreak))

end

end Synthesizer

/-- The units of a definition say what it says. There is a carrier if something is bound to the
body, and it is read as one shape with a field for each such binding. The operation is read as one
declaration, and not at all if a name on the wire has a line break in it. -/
theorem synthesize_says {d : HandlerDefinition} (hd : d.validate = .ok ())
    (htypes : ∀ t ∈ d.types, ∃ text, TypeRef.ofText text = .ok t) {names : NameTable}
    {surrogates : SurrogateSource} {spec : OperationSpec} {s' : Synthesizer}
    (h : Synthesizer.Runs (Synthesizer.synthesize d) ⟨names, surrogates⟩ spec s') :
    ∃ (carrier : Option SourceUnit) (op : SourceUnit),
      spec.units = carrier.toList ++ [op] ∧
      (carrier.isSome = true ↔ ∃ b ∈ d.parameters, b.kind.isBodyLike = true) ∧
      (∀ u ∈ carrier, ∃ decl, parseSource u.text = .ok [.shape decl] ∧ decl.attributes = [] ∧
        decl.name.name = u.name ∧
        List.Forall₂ (fun b f => f.name.name = b.source ∧ f.type.toTypeRef = b.type) d.bodyLike
          decl.fields) ∧
      ((∃ b ∈ d.parameters, '\n' ∈ b.target.toList) ∧ (∃ e, parseSource op.text = .error e) ∨
        (¬ ∃ b ∈ d.parameters, '\n' ∈ b.target.toList) ∧
          ∃ decl, parseSource op.text = .ok [.op decl] ∧ decl.name.name = op.name ∧
            d.SaysOp (carrier.map (·.name)) decl) := by
  have hvalid := HandlerDefinition.valid_of_validate hd
  have hwritable : ∀ t ∈ d.types, t.Writable :=
    fun t ht => TypeRef.exists_ofText_iff.mp (htypes t ht)
  have hmakes := Synthesizer.makes_of_runs h
  refine ⟨spec.carrier.map fun c => ⟨c.name, c.source, none⟩,
    ⟨spec.operation.name, spec.operation.source, none⟩, rfl, ?_, ?_, ?_⟩
  · rw [Option.isSome_map]
    exact hmakes.carrier_isSome_iff hvalid
  · intro u hu
    obtain ⟨c, hc, rfl⟩ := Option.map_eq_some_iff.mp hu
    exact hmakes.parse_carrier hvalid hwritable hc
  · by_cases hbreak : ∃ b ∈ d.parameters, '\n' ∈ b.target.toList
    · exact .inl ⟨hbreak, hmakes.parse_operation_error hvalid hwritable hbreak⟩
    · refine .inr ⟨hbreak, ?_⟩
      rw [Option.map_map]
      exact hmakes.parse_operation hvalid hwritable hbreak

/-- A name on the wire that would end its attribute and begin a comment. -/
def hostileDefinition : HandlerDefinition :=
  { request := .declared "shop" "CreateUser"
    response := .async (.declared "shop" "User")
    method := .post
    route := "/users/\x7bid\x7d"
    parameters := [⟨"id", "id", .queryOrPath, Primitive.int.type⟩,
      ⟨"name", "body", .body, Primitive.string.type⟩,
      ⟨"tag", "\")] op x() // \\", .queryOrPath, Primitive.string.type⟩] }

theorem synthesize_says_hostile :
    ∃ spec s' carrier op, Synthesizer.Runs (Synthesizer.synthesize hostileDefinition)
        ⟨.empty defaultMaxSuffix, .sequential 1⟩ spec s' ∧
      spec.units = [carrier, op] ∧
      ∃ decl, parseSource op.text = .ok [.op decl] ∧
        hostileDefinition.SaysOp (some carrier.name) decl := by
  have hd : hostileDefinition.validate = .ok () := by decide +kernel
  have htypes : ∀ t ∈ hostileDefinition.types, ∃ text, TypeRef.ofText text = .ok t := by
    have hall : ∀ t ∈ hostileDefinition.types, TypeRef.ofText t.text = .ok t := by decide +kernel
    exact fun t ht => ⟨t.text, hall t ht⟩
  have hok : (Synthesizer.outcome (Synthesizer.synthesize hostileDefinition)
      ⟨.empty defaultMaxSuffix, .sequential 1⟩).1.isOk = true := by decide +kernel
  rcases ho : Synthesizer.outcome (Synthesizer.synthesize hostileDefinition)
    ⟨.empty defaultMaxSuffix, .sequential 1⟩ with ⟨e | spec, s'⟩
  · rw [ho] at hok
    cases hok
  · obtain ⟨carrier, op, hunits, hcarrier, -, hop⟩ := synthesize_says hd htypes ho
    obtain ⟨u, rfl⟩ := Option.isSome_iff_exists.mp
      (hcarrier.mpr ⟨⟨"name", "body", .body, Primitive.string.type⟩, by decide, rfl⟩)
    have hbreak : ¬ ∃ b ∈ hostileDefinition.parameters, '\n' ∈ b.target.toList := by decide
    obtain ⟨decl, hparse, -, hsays⟩ := (hop.resolve_left fun h => hbreak h.1).2
    exact ⟨spec, s', u, op, ho, hunits, decl, hparse, hsays⟩

end EndpointCompiler
