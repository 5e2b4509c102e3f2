import EndpointCompiler.Proofs.Checking.Program

/-! What declarations say, read without the checker. The image of a declaration that is accepted
says all of it, and nothing of it is left out. -/

namespace EndpointCompiler

open Source Checked

namespace Source

/-- A field as it is declared. Names of types without a module are put into the given one. -/
def FieldDecl.toField (module : ModuleId) (d : FieldDecl) : Field :=
  ⟨d.name.name, d.type.toTypeRef.qualify module⟩

def ShapeDecl.toImage (module : ModuleId) (d : ShapeDecl) : ShapeImage :=
  ⟨d.name.name, d.fields.map (·.toField module)⟩

/-- The attributes of one name. -/
def attributesNamed (name : String) (attrs : List Attribute) : List Attribute :=
  attrs.filter (·.name.name == name)

/-- The sources that a parameter is declared to come from, with their attributes. -/
def ParamDecl.sources (p : ParamDecl) : List (ParamSource × Attribute) :=
  p.attributes.filterMap fun a => (ParamSource.ofKeyword? a.name.name).map (·, a)

/-- The names that the body of an operation binds, with what they are bound to. -/
def letsOf (body : List Stmt) : List (Ident × Expr) :=
  body.filterMap fun
    | .bind name value _ => some (name, value)
    | .result _ _ => none

/-- What a name stands for among parameters and locals. -/
def denoted? (params : List ParamDecl) (lets : List (Ident × Expr)) (name : String) :
    Option ValueExpr :=
  match params.findIdx? (·.name.name == name) with
  | some i => some (.param i)
  | none => (lets.findIdx? (·.1.name == name)).map .local

mutual

/-- The value that an expression denotes, given what names stand for. -/
def Expr.toValue? (module : ModuleId) (names : String → Option ValueExpr) :
    Expr → Option ValueExpr
  | .var name => names name.name
  | .field base name _ => (base.toValue? module names).map (.field · name.name)
  | .new type inits _ =>
    (Expr.toInits? module names inits).map (.new (type.toTypeRef.qualify module))
  | .call _ _ _ _ => none
  | .await _ _ => none

def Expr.toInits? (module : ModuleId) (names : String → Option ValueExpr) :
    List (Ident × Expr) → Option (List (String × ValueExpr))
  | [] => some []
  | (name, e) :: inits =>
    (e.toValue? module names).bind fun value =>
      (Expr.toInits? module names inits).map ((name.name, value) :: ·)

end

/-- The image of a parameter that says what its declaration says. It comes from its one source,
under its own name unless the source gives another. -/
structure ParamDecl.ImagedAs (module : ModuleId) (p : ParamDecl) (image : ParamImage) : Prop where
  name : image.name = p.name.name
  source : ∃ a, p.sources = [(image.source, a)] ∧
    (a.args = [] ∧ image.wireName = p.name.name ∨ ∃ span, a.args = [.text image.wireName span])
  type : image.type = p.type.toTypeRef.qualify module

/-- A body ends with a bridge call, of which this is the image. -/
structure EndsWithCall (module : ModuleId) (isAsync : Bool) (names : String → Option ValueExpr)
    (body : List Stmt) (call : BridgeCall) : Prop where
  returned : ∃ value span request response arg, body.getLast? = some (.result value span) ∧
    CallsBridge isAsync request response arg value ∧
    call.request = request.toTypeRef.qualify module ∧
    call.response = response.toTypeRef.qualify module ∧
    arg.toValue? module names = some call.arg
  isAsync : call.isAsync = isAsync

/-- The image of an operation that says what its declaration says. -/
structure OpDecl.ImagedAs (module : ModuleId) (d : OpDecl) (image : OperationImage) : Prop where
  name : image.name = d.name.name
  route : ∃ a span routeSpan, attributesNamed "http" d.attributes = [a] ∧
    a.args = [.type (.path none image.method [] span), .text image.route routeSpan]
  /-- Of several answers the last counts. -/
  produces : ∃ types : List TypeExpr,
    (attributesNamed "produces" d.attributes).map (·.args) = types.map ([.type ·]) ∧
    image.produces = types.getLast?.map (·.toTypeRef.qualify module)
  params : List.Forall₂ (ParamDecl.ImagedAs module) d.params image.params
  /-- Every statement but the last binds a local. -/
  length : d.body.length = image.locals.length + 1
  locals : List.Forall₂
    (fun l value => l.2.toValue? module (denoted? d.params (letsOf d.body)) = some value)
    (letsOf d.body) image.locals
  call : EndsWithCall module d.isAsync (denoted? d.params (letsOf d.body)) d.body image.call

end Source

section

variable {s : TypeScope}

theorem FieldsOf.eq_toField {ds : List FieldDecl} {fs : List Field} (h : FieldsOf s ds fs) :
    fs = ds.map (·.toField s.module) := by
  have hfield : ∀ d f, FieldOf s d f → f = d.toField s.module := by
    rintro d ⟨name, type⟩ ⟨rfl, htype⟩
    rw [FieldDecl.toField, ((s.resolve_yields_iff false d.type type).mp htype).2]
  rw [← map_eq_map_of_forall₂ hfield h.each, List.map_id']

theorem ShapeOf.eq_toImage {d : SourceUnit × ShapeDecl} {image : ShapeImage}
    (h : ShapeOf s d image) : image = d.2.toImage s.module := by
  obtain ⟨name, fields⟩ := image
  rw [ShapeDecl.toImage, ← h.fields.eq_toField]
  exact congrArg (ShapeImage.mk · fields) h.name

theorem checkShape_complete (d : ShapeDecl) (hc : (checkShape s d).Clean) :
    (checkShape s d).value = some (d.toImage s.module).fields := by
  obtain ⟨fs, hfs⟩ := checkShape_loud d hc
  rw [hfs.1, (checkShape_yields_iff.mp hfs).eq_toField]
  rfl

theorem bindingAttributes_yields_iff {attrs : List Attribute}
    {found : List (ParamSource × Attribute)} :
    (bindingAttributes attrs).Yields found ↔
      found = attrs.filterMap fun a => (ParamSource.ofKeyword? a.name.name).map (·, a) := by
  induction attrs generalizing found with
  | nil => rw [bindingAttributes, yields_pure', List.filterMap_nil, eq_comm]
  | cons a attrs ih =>
    rw [bindingAttributes, List.filterMap_cons]
    cases ParamSource.ofKeyword? a.name.name with
    | none =>
      simp only [yields_bind, yields_note, Problem.isError, Problem.severity, ih, Option.map_none]
      simp
    | some source => simp [yields_bind, ih, eq_comm]

theorem checkBinding_yields_iff {p : ParamDecl} {source : ParamSource} {wireName : String} :
    (checkBinding p).Yields (source, wireName) ↔ ∃ a, p.sources = [(source, a)] ∧
      (a.args = [] ∧ wireName = p.name.name ∨ ∃ span, a.args = [.text wireName span]) := by
  have hsources : ∀ found, (bindingAttributes p.attributes).Yields found ↔ found = p.sources :=
    fun _ => bindingAttributes_yields_iff
  rw [checkBinding, yields_bind]
  simp only [hsources, exists_eq_left]
  rcases p.sources with _ | ⟨⟨source', name, args, span⟩, _ | ⟨next, found⟩⟩
  · simp
  · rcases args with _ | ⟨arg, _ | ⟨next, args⟩⟩
    · simp [eq_comm]
    · cases arg <;> simp [eq_comm]
    · cases arg <;> simp
  · simp

theorem ParamOf.imagedAs {p : ParamDecl} {image : ParamImage} (h : ParamOf s p image) :
    p.ImagedAs s.module image :=
  ⟨h.name, checkBinding_yields_iff.mp h.binding,
    ((s.resolve_yields_iff false p.type image.type).mp h.type).2⟩

theorem attributesNamed_cons (name : String) (a : Attribute) (attrs : List Attribute) :
    attributesNamed name (a :: attrs) =
      if a.name.name = name then a :: attributesNamed name attrs
      else attributesNamed name attrs := by
  rw [attributesNamed, List.filter_cons]
  simp only [beq_iff_eq]
  rfl

/-- The attributes that a fold of them takes in: one route at most, and any number of answers. -/
theorem foldlM_checkAttribute_reads {attrs : List Attribute} {seen found : OpAttributes}
    (h : (attrs.foldlM (checkAttribute s) seen).Yields found) :
    (attributesNamed "http" attrs = [] ∧ found.route = seen.route ∨
      seen.routeSeen = false ∧ ∃ a r, attributesNamed "http" attrs = [a] ∧
        (checkHttp a).Yields r ∧ found.route = some r) ∧
    ∃ types : List TypeExpr,
      (attributesNamed "produces" attrs).map (·.args) = types.map ([.type ·]) ∧
      found.produces = (types.getLast?.map (·.toTypeRef.qualify s.module)).or seen.produces := by
  -- A second route is refused, but a later answer takes the place of an earlier one.
  induction attrs generalizing seen with
  | nil =>
    obtain rfl := yields_pure.mp h
    exact ⟨.inl ⟨rfl, rfl⟩, [], rfl, rfl⟩
  | cons a attrs ih =>
    obtain ⟨seen', ha, hrest⟩ := yields_foldlM_cons.mp h
    obtain ⟨hroute, types, htypes, hproduces⟩ := ih hrest
    rw [checkAttribute_yields_iff] at ha
    rw [attributesNamed_cons, attributesNamed_cons]
    split at ha
    · rename_i hname
      obtain ⟨hunseen, r, hr, rfl⟩ := ha
      rw [if_pos hname, if_neg (by rw [hname]; decide)]
      rcases hroute with ⟨hnone, hfound⟩ | ⟨hseen, -⟩
      · exact ⟨.inr ⟨hunseen, a, r, by rw [hnone], hr, hfound⟩, types, htypes, hproduces⟩
      · cases hseen
    · rename_i hhttp
      rw [if_neg hhttp]
      split at ha
      · rename_i hname
        obtain ⟨t, u, hargs, hu, rfl⟩ := ha
        obtain ⟨-, rfl⟩ := (s.resolve_yields_iff false t u).mp hu
        rw [if_pos hname]
        refine ⟨hroute, t :: types, by rw [List.map_cons, List.map_cons, htypes, hargs], ?_⟩
        rw [hproduces, List.getLast?_cons]
        cases types.getLast? <;> rfl
      · rename_i hname
        subst ha
        rw [if_neg hname]
        exact ⟨hroute, types, htypes, hproduces⟩

mutual

/-- An expression that is accepted denotes its value. -/
theorem checkValue_toValue? {vars : Vars} {names : String → Option ValueExpr}
    (hn : ∀ name v, vars.find? name = some (some v) → names name = some v.value) (e : Expr)
    {v : TypedValue} (h : (checkValue s vars e).Yields v) :
    e.toValue? s.module names = some v.value := by
  match e with
  | .var name =>
    rw [Expr.toValue?]
    exact hn _ v (checkValue_var_yields_iff.mp h)
  | .field base name span =>
    obtain ⟨b, fields, f, hb, -, -, rfl⟩ := checkValue_field_yields_iff.mp h
    rw [Expr.toValue?, checkValue_toValue? hn base hb, Option.map_some]
  | .new type inits span =>
    obtain ⟨t, fields, values, ht, -, hi, rfl⟩ := checkValue_new_yields_iff.mp h
    obtain ⟨-, rfl⟩ := (s.resolve_yields_iff false type t).mp ht
    obtain ⟨more, hmore, rfl⟩ := checkInits_toInits? hn inits hi
    rw [Expr.toValue?, hmore, Option.map_some]
  | .call .. => exact absurd h not_checkValue_call_yields
  | .await .. => exact absurd h not_checkValue_await_yields

theorem checkInits_toInits? {vars : Vars} {names : String → Option ValueExpr}
    (hn : ∀ name v, vars.find? name = some (some v) → names name = some v.value)
    (inits : List (Ident × Expr)) {type : TypeRef} {fields : List Field}
    {done values : List (String × ValueExpr)}
    (h : (checkInits s vars type fields done inits).Yields values) :
    ∃ more, Expr.toInits? s.module names inits = some more ∧ values = done ++ more := by
  match inits with
  | [] => exact ⟨[], rfl, by rw [checkInits_nil_yields_iff.mp h, List.append_nil]⟩
  | (name, e) :: inits =>
    obtain ⟨f, v, -, -, hv, -, hrest⟩ := checkInits_cons_yields_iff.mp h
    obtain ⟨more, hmore, rfl⟩ := checkInits_toInits? hn inits hrest
    refine ⟨(name.name, v.value) :: more, ?_, by simp⟩
    rw [Expr.toInits?, checkValue_toValue? hn e hv, hmore, Option.bind_some, Option.map_some]

end

theorem letsOf_bind (name : Ident) (value : Expr) (span : Span) (body : List Stmt) :
    letsOf (.bind name value span :: body) = (name, value) :: letsOf body := rfl

/-- A name that is bound once, and is not the name of a parameter, is the name of a local. -/
theorem denoted?_local {params : List ParamDecl} {before after : List (Ident × Expr)} {name : Ident}
    (hp : name.name ∉ params.map (·.name.name)) (hb : name.name ∉ before.map (·.1.name))
    (value : Expr) :
    denoted? params (before ++ (name, value) :: after) name.name = some (.local before.length) := by
  have hparams : params.findIdx? (·.name.name == name.name) = none := by
    simpa [List.findIdx?_eq_none_iff, @eq_comm _ name.name] using hp
  have hbefore : before.findIdx? (·.1.name == name.name) = none := by
    simpa [List.findIdx?_eq_none_iff] using hb
  rw [denoted?, hparams, List.findIdx?_append, hbefore]
  simp [List.findIdx?_cons]

/-- A parameter with a name of its own is what the name stands for. -/
theorem denoted?_param {params : List ParamDecl} (lets : List (Ident × Expr))
    (hn : (params.map (·.name.name)).Nodup) {i : Nat} {p : ParamDecl} (hp : params[i]? = some p) :
    denoted? params lets p.name.name = some (.param i) := by
  obtain ⟨hi, rfl⟩ := List.getElem?_eq_some_iff.mp hp
  have hfirst : params.findIdx? (·.name.name == params[i].name.name) = some i := by
    rw [List.findIdx?_eq_some_iff_getElem]
    refine ⟨hi, beq_self_eq_true _, fun j hj hsame => ?_⟩
    have hj' : j < params.length := Nat.lt_trans hj hi
    have hne := (List.pairwise_iff_getElem.mp hn) j i (by simpa) (by simpa) hj
    exact hne (by simpa using hsame)
  rw [denoted?, hfirst]

/-- Names in scope stand for what they do in the whole body, and other names are still free. -/
structure VarsDenote (params : List ParamDecl) (before : List (Ident × Expr))
    (names : String → Option ValueExpr) (vars : Vars) : Prop where
  value : ∀ name v, vars.find? name = some (some v) → names name = some v.value
  free : ∀ name, vars.find? name = none →
    name ∉ params.map (·.name.name) ∧ name ∉ before.map (·.1.name)

theorem paramVars_denote {d : OpDecl} (images : List ParamImage)
    (hn : (d.params.map (·.name.name)).Nodup) (lets : List (Ident × Expr)) :
    VarsDenote d.params [] (denoted? d.params lets) (paramVars d (some images)) := by
  refine ⟨fun name v hv => ?_, fun name hnone => ⟨?_, by simp⟩⟩
  · obtain ⟨i, p, hi, rfl, ho⟩ := paramVars_find? hv
    obtain ⟨image, -, rfl⟩ := Option.map_eq_some_iff.mp ho.symm
    exact denoted?_param lets hn hi
  · rw [← paramVars_names d (some images), ← vars_find?_isSome_iff, hnone]
    exact Bool.false_ne_true

theorem VarsDenote.bind {params : List ParamDecl} {before after : List (Ident × Expr)} {vars : Vars}
    {name : Ident} {value : Expr}
    (h : VarsDenote params before (denoted? params (before ++ (name, value) :: after)) vars)
    (hnew : vars.find? name.name = none) (t : TypeRef) :
    VarsDenote params (before ++ [(name, value)])
      (denoted? params (before ++ (name, value) :: after))
      ((name.name, some ⟨.local before.length, t⟩) :: vars) := by
  constructor
  · intro n v hv
    rw [Vars.find?_cons] at hv
    split at hv
    · rename_i he
      cases hv
      exact he ▸ denoted?_local (h.free _ hnew).1 (h.free _ hnew).2 value
    · exact h.value n v hv
  · intro n hn
    rw [Vars.find?_cons] at hn
    split at hn
    · cases hn
    · rename_i hne
      obtain ⟨hp, hb⟩ := h.free n hn
      refine ⟨hp, ?_⟩
      rw [List.map_append, List.mem_append, not_or]
      exact ⟨hb, by simpa [eq_comm] using hne⟩

theorem Source.EndsWithCall.cons {module : ModuleId} {isAsync : Bool}
    {names : String → Option ValueExpr} {body : List Stmt} {call : BridgeCall}
    (h : EndsWithCall module isAsync names body call) (stmt : Stmt) :
    EndsWithCall module isAsync names (stmt :: body) call := by
  obtain ⟨⟨value, span, request, response, arg, hlast, hcall⟩, hasync⟩ := h
  refine ⟨⟨value, span, request, response, arg, ?_, hcall⟩, hasync⟩
  rw [List.getLast?_cons, hlast, Option.getD_some]

theorem checkReturn_endsWithCall {op : OpDecl} {result : Option TypeRef} {vars : Vars}
    {names : String → Option ValueExpr}
    (hn : ∀ name v, vars.find? name = some (some v) → names name = some v.value) {value : Expr}
    (span : Span) {call : BridgeCall} (h : (checkReturn s op result vars value).Yields call) :
    EndsWithCall s.module op.isAsync names [.result value span] call := by
  obtain ⟨request, response, arg, t, t', v, hcall, ht, ht', hv, -, -, rfl⟩ := checkReturn_sound h
  have hrequest := ((s.resolve_yields_iff false request t).mp ht).2
  have hresponse := ((s.resolve_yields_iff false response t').mp ht').2
  exact ⟨⟨value, span, request, response, arg, rfl, hcall, hrequest, hresponse,
    checkValue_toValue? hn arg hv⟩, rfl⟩

/-- What the statements of a body that is accepted say, after those that bound names before. -/
theorem checkStmts_imaged {op : OpDecl} {result : Option TypeRef} {vars : Vars}
    {before : List (Ident × Expr)} {values : List ValueExpr} {body : List Stmt}
    {r : List ValueExpr × BridgeCall} (h : (checkStmts s op result vars values body).Yields r)
    (hlength : values.length = before.length)
    (hvars : VarsDenote op.params before (denoted? op.params (before ++ letsOf body)) vars) :
    ∃ more, r.1 = values ++ more ∧ body.length = more.length + 1 ∧
      List.Forall₂ (fun l value =>
        l.2.toValue? s.module (denoted? op.params (before ++ letsOf body)) = some value)
        (letsOf body) more ∧
      EndsWithCall s.module op.isAsync (denoted? op.params (before ++ letsOf body)) body r.2 := by
  -- A statement moves from the body to those before it, so names stand for the same throughout.
  induction body generalizing vars before values with
  | nil => simp [checkStmts] at h
  | cons stmt rest ih =>
    cases stmt with
    | bind name value span =>
      obtain ⟨hnew, v, hvalue, hrest⟩ := checkStmts_bind_yields_iff.mp h
      rw [letsOf_bind] at hvars ⊢
      have hnext := hvars.bind hnew v.type
      have hlocal := checkValue_toValue? hvars.value value hvalue
      have hsame : before ++ (name, value) :: letsOf rest =
          (before ++ [(name, value)]) ++ letsOf rest := by simp
      rw [hsame] at hnext hlocal ⊢
      rw [hlength] at hrest
      obtain ⟨more, hlocals, hbody, hmore, hcall⟩ := ih hrest (by simp [hlength]) hnext
      refine ⟨v.value :: more, ?_, ?_, .cons hlocal hmore, hcall.cons _⟩
      · rw [hlocals, List.append_assoc, List.singleton_append]
      · rw [List.length_cons, hbody, List.length_cons]
    | result value span =>
      cases rest with
      | nil =>
        obtain ⟨hreturn, hlocals⟩ := checkStmts_result_yields_iff.mp h
        exact ⟨[], by rw [hlocals, List.append_nil], rfl, .nil,
          checkReturn_endsWithCall hvars.value span hreturn⟩
      | cons next more => simp [checkStmts, yields_proceed] at h

/-- The image of an operation says all that its declaration says. -/
theorem checkOp_imagedAs {d : OpDecl} {image : OperationImage}
    (h : (checkOp s d).Yields image) : d.ImagedAs s.module image := by
  obtain ⟨attrs, route, params, result, locals, call, ha, hroute, hp, -, hb, rfl⟩ :=
    checkOp_yields_iff.mp h
  obtain ⟨hhttp, types, htypes, hproduces⟩ :=
    foldlM_checkAttribute_reads (checkAttributes_yields_iff.mp ha).1
  have hparams := (checkParams_yields_iff.mp hp).1
  have hvars := paramVars_denote params hparams.names (letsOf d.body)
  obtain ⟨more, hmore, hlength, hlets, hcall⟩ := checkStmts_imaged hb rfl hvars
  obtain rfl : locals = more := hmore
  exact {
    name := rfl
    route := by
      rcases hhttp with ⟨-, hnone⟩ | ⟨-, a, r, hfilter, hr, hfound⟩
      · rw [hroute] at hnone
        cases hnone
      · obtain rfl : r = route := Option.some.inj (hfound.symm.trans hroute)
        obtain ⟨span, routeSpan, hargs, -⟩ := checkHttp_yields_iff.mp hr
        exact ⟨a, span, routeSpan, hfilter, hargs⟩
    produces := ⟨types, htypes, by rw [hproduces, Option.or_none]⟩
    params := hparams.each.imp fun _ _ hi => hi.imagedAs
    length := hlength
    locals := hlets
    call := hcall }

end

end EndpointCompiler
