import EndpointCompiler.Proofs.Compilation.Emission
import EndpointCompiler.Proofs.Image.Inlining

/-! What an image promises to those who load it. Its operations refer only to what is there, all
their values have the types of the places where they stand, and they agree with their declarations. -/

namespace EndpointCompiler

open Source Checked

namespace ValueExpr

mutual

/-- An expression refers only to the given numbers of parameters and of locals. -/
def ScopedIn (params locals : Nat) : ValueExpr → Prop
  | .param i => i < params
  | .local i => i < locals
  | .field base _ => base.ScopedIn params locals
  | .new _ fields => FieldsScopedIn params locals fields

def FieldsScopedIn (params locals : Nat) : List (String × ValueExpr) → Prop
  | [] => True
  | (_, value) :: fields => value.ScopedIn params locals ∧ FieldsScopedIn params locals fields

end

end ValueExpr

section

variable {s : TypeScope} {params types : List TypeRef}

mutual

theorem HasType.scopedIn : ∀ {e : ValueExpr} {t : TypeRef}, HasType s params types e t →
    e.ScopedIn params.length types.length
  | _, _, .param hp => (List.getElem?_eq_some_iff.mp hp).1
  | _, _, .local hi => (List.getElem?_eq_some_iff.mp hi).1
  | _, _, .field hb _ _ => hb.scopedIn
  | _, _, .new _ _ hi => hi.scopedIn

theorem HaveTypes.scopedIn : ∀ {declared : List Field} {inits : List (String × ValueExpr)},
    HaveTypes s params types declared inits →
    ValueExpr.FieldsScopedIn params.length types.length inits
  | _, _, .nil => trivial
  | _, _, .cons _ hv _ hi => ⟨hv.scopedIn, hi.scopedIn⟩

end

theorem LocalsTyped.scopedIn {locals : List ValueExpr} (h : LocalsTyped s params types locals)
    {i : Nat} {e : ValueExpr} (he : locals[i]? = some e) : e.ScopedIn params.length i := by
  have hi : i < types.length := h.1 ▸ (List.getElem?_eq_some_iff.mp he).1
  have ht := (h.2 i e types[i] he (List.getElem?_eq_getElem hi)).scopedIn
  rwa [List.length_take, Nat.min_eq_left (Nat.le_of_lt hi)] at ht

end

/-- An operation of an image is in scope, well typed, and what its declaration says. -/
structure SoundFor (s : TypeScope) (d : OpDecl) (op : OperationImage) : Prop where
  name : op.name = d.name.name
  method : ⟨op.method⟩ ∈ Method.supported
  slash : op.route.toList.head? = some '/'
  paramNames : op.params.map (·.name) = d.params.map (·.name.name) ∧
    (op.params.map (·.name)).Nodup
  /-- Types and placeholders suit the sources of the parameters. -/
  params : ∀ p ∈ op.params, ParamSuits s (some (Route.placeholders op.route)) 0 p
  bodies : bodyCount op.params ≤ 1
  localsScoped : ∀ (i : Nat) (e : ValueExpr), op.locals[i]? = some e →
    e.ScopedIn op.params.length i
  argScoped : op.call.arg.ScopedIn op.params.length op.locals.length
  /-- The argument is of the request type, or of any type where the request takes objects. -/
  typed : ∃ types t, LocalsTyped s (op.params.map (·.type)) types op.locals ∧
    HasType s (op.params.map (·.type)) types op.call.arg t ∧
    (t = op.call.request ∨ op.call.request = objectType)
  response : op.call.response = (d.result.toTypeRef.qualify s.module).unwrapAsync
  isAsync : op.call.isAsync = d.isAsync
  declaredAsync : d.isAsync = (d.result.toTypeRef.qualify s.module).isAsync

section

variable {s : TypeScope} {d : OpDecl} {op : OperationImage}

/-- The route of an operation is one that an attribute declares. -/
theorem foldlM_checkAttribute_http {attrs : List Attribute} {seen found : OpAttributes}
    (h : (attrs.foldlM (checkAttribute s) seen).Yields found) {r : HttpRoute}
    (hr : found.route = some r) :
    seen.route = some r ∨ ∃ a ∈ attrs, (checkHttp a).Yields r := by
  induction attrs generalizing seen with
  | nil =>
    cases yields_pure.mp h
    exact .inl hr
  | cons a attrs ih =>
    obtain ⟨seen', ha, hrest⟩ := yields_foldlM_cons.mp h
    rcases ih hrest with hs | ⟨b, hb, hyields⟩
    · rw [checkAttribute_yields_iff] at ha
      split at ha
      · obtain ⟨-, r', hr', rfl⟩ := ha
        cases hs
        exact .inr ⟨a, by simp, hr'⟩
      · split at ha
        · obtain ⟨t, u, -, -, rfl⟩ := ha
          exact .inl hs
        · exact .inl (ha ▸ hs)
    · exact .inr ⟨b, by simp [hb], hyields⟩

/-- Each part of an accepted operation is sound by the check that it has passed. -/
theorem checkOp_sound (h : (checkOp s d).Yields op) : SoundFor s d op := by
  obtain ⟨attrs, route, params, result, locals, call, ha, hroute, hp, hr, hb, rfl⟩ :=
    checkOp_yields_iff.mp h
  have hhttp : route.method ∈ Method.supported ∧ route.route.toList.head? = some '/' := by
    rcases foldlM_checkAttribute_http (checkAttributes_yields_iff.mp ha).1 hroute with hn | ⟨a, -, hy⟩
    · cases hn
    · obtain ⟨_, _, -, hm, hslash, -⟩ := checkHttp_yields_iff.mp hy
      exact ⟨hm, hslash⟩
  have hparams := (checkParams_yields_iff.mp hp).1
  have hnames : params.map (·.name) = d.params.map (·.name.name) :=
    map_eq_map_of_forall₂ (fun _ _ hi => hi.name) hparams.each
  obtain ⟨hresult, hasync⟩ := checkResult_yields_iff.mp hr
  obtain ⟨-, rfl⟩ := (s.resolve_yields_iff true d.result result).mp hresult
  obtain ⟨types, t, hlocals, harg, hsuits, hisAsync, hresponse⟩ :=
    checkStmts_sound hb paramVars_varsTyped localsTyped_nil
  have hcount : (params.map (·.type)).length = params.length := List.length_map _
  exact {
    name := rfl
    method := hhttp.1
    slash := hhttp.2
    paramNames := ⟨hnames, hnames ▸ hparams.names⟩
    params := hparams.suits
    bodies := hparams.body
    localsScoped := fun i e he => hcount ▸ hlocals.scopedIn he
    argScoped := hcount ▸ hlocals.1 ▸ harg.scopedIn
    typed := ⟨types, t, hlocals, harg, hsuits⟩
    response := hresponse _ rfl
    isAsync := hisAsync
    declaredAsync := hasync }

/-- Without its locals an operation is as sound as with them. -/
theorem SoundFor.inlineLocals (h : SoundFor s d op) : SoundFor s d op.inlineLocals := by
  unfold OperationImage.inlineLocals
  split
  · exact h
  · obtain ⟨types, t, hlocals, harg, hsuits⟩ := h.typed
    have harg' := harg.substitute hlocals.expanded
    exact { h with
      localsScoped := fun i e he => by simp at he
      argScoped := by simpa using harg'.scopedIn
      typed := ⟨[], t, localsTyped_nil, harg', hsuits⟩ }

end

/-- Every operation of a compiled module is sound for its declaration, with the shapes of the module
and the references in scope; in release builds it has no locals. -/
theorem compile_sound {references : ReferenceSet} {o : CompileOptions} {units : List SourceUnit}
    {a : Artifact} (h : compile references o units = .ok a) :
    ∃ e parsed, emit references o units = .ok e ∧ a = e.artifact o units ∧
      List.Forall₂ Parses units parsed ∧
      List.Forall₂ (ShapeOf (scopeOf references o.module e.image.shapes)) (declaredShapes parsed)
        e.image.shapes ∧
      List.Forall₂ (fun d op => SoundFor (scopeOf references o.module e.image.shapes) d.2 op)
        (declaredOps parsed) e.image.operations ∧
      (o.mode = .release → ∀ op ∈ e.image.operations, op.locals = []) := by
  obtain ⟨e, he, rfl⟩ := compile_eq_ok_iff.mp h
  obtain ⟨parsed, p, hparsed, hp, himage⟩ := emit_sound he
  have hshapes : e.image.shapes = p.shapes := by rw [himage, CheckedProgram.image]
  refine ⟨e, parsed, he, rfl, hparsed, hshapes ▸ hp.shapes, ?_, ?_⟩
  · rw [himage, CheckedProgram.image]
    cases o.mode with
    | debug => exact hp.operations.imp fun _ _ hy => checkOp_sound hy
    | release =>
      rw [List.forall₂_map_right_iff]
      exact hp.operations.imp fun _ _ hy => (checkOp_sound hy).inlineLocals
  · intro hm op hop
    rw [himage, CheckedProgram.image, hm] at hop
    obtain ⟨op', -, rfl⟩ := List.mem_map.mp hop
    exact op'.inlineLocals_locals

/-- A shape that is made from a parameter and handed on by way of a local. -/
def echoUnits : List SourceUnit :=
  [⟨"echo",
    "shape S \x7b n: core::Int \x7d #[http(GET, \"/\")] op f(#[query] n: core::Int) -> core::Int " ++
      "\x7b let s = new S \x7b n = n \x7d; return process::<S, core::Int>(s); \x7d",
    none⟩]

def echoOptions : CompileOptions :=
  ⟨"shop", "EchoController", .release, "", "shop"⟩

theorem emit_echo : ∃ e, emit ⟨[Catalog.core]⟩ echoOptions echoUnits = .ok e := by
  obtain ⟨parsed, hparsed, hclean⟩ : ∃ parsed, List.Forall₂ Parses echoUnits parsed ∧
      ((checkProgram ⟨[Catalog.core]⟩ "shop" parsed).diagnostics.all fun d => !d.isError) = true :=
    exists_parsed rfl _ (by decide +kernel)
  have hprogram := checkProgram_sound fun d hd => by simpa using List.all_eq_true.mp hclean d hd
  obtain ⟨e, he, -⟩ := emit_complete (o := echoOptions) hparsed hprogram
  exact ⟨e, he⟩

theorem compile_sound_echo :
    ∃ a e parsed, compile ⟨[Catalog.core]⟩ echoOptions echoUnits = .ok a ∧
      emit ⟨[Catalog.core]⟩ echoOptions echoUnits = .ok e ∧
      List.Forall₂ (fun d op => SoundFor (scopeOf ⟨[Catalog.core]⟩ "shop" e.image.shapes) d.2 op)
        (declaredOps parsed) e.image.operations ∧
      ∀ op ∈ e.image.operations, op.locals = [] := by
  obtain ⟨e, he⟩ := emit_echo
  have hcompile := compile_eq_ok_iff.mpr ⟨e, he, rfl⟩
  obtain ⟨e, parsed, he, -, -, -, hops, hlocals⟩ := compile_sound hcompile
  exact ⟨_, e, parsed, hcompile, he, hops, hlocals rfl⟩

end EndpointCompiler
