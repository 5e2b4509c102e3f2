import EndpointCompiler.Proofs.Checking.Program
import EndpointCompiler.Proofs.Source.Bare

/-! Checks of trees without their ranges. They find the same problems and come to the same results
as checks of the trees themselves, so that no check depends on where something stands. -/

namespace EndpointCompiler

open Source

/-- A problem without its place. -/
def Finding.bare (f : Finding) : Finding :=
  ⟨f.problem, noSpan⟩

namespace Checked

section

variable {α β γ δ : Type} {x : Checked α} {f : α → β}

/-- A check without the places of what it finds, and with its result as the function gives it. -/
def bare (f : α → β) (x : Checked α) : Checked β :=
  ⟨x.findings.map (·.bare), x.value.map f⟩

@[simp] theorem bare_pure (f : α → β) (a : α) :
    (Pure.pure a : Checked α).bare f = Pure.pure (f a) := rfl

@[simp] theorem bare_pure' (f : α → β) (a : α) : (Checked.pure a).bare f = Checked.pure (f a) :=
  rfl

@[simp] theorem bare_fail (f : α → β) (p : Problem) (span : Span) :
    (Checked.fail p span).bare f = Checked.fail p noSpan := rfl

@[simp] theorem bare_abandon (f : α → β) : (Checked.abandon : Checked α).bare f = .abandon := rfl

@[simp] theorem bare_note (p : Problem) (span : Span) :
    (Checked.note p span).bare id = Checked.note p noSpan := rfl

theorem bare_bind {k : α → Checked γ} {k' : β → Checked δ} {g : γ → δ}
    (h : ∀ a, x.value = some a → (k a).bare g = k' (f a)) :
    (x >>= k).bare g = x.bare f >>= k' := by
  cases hv : x.value with
  | none => simp only [Bind.bind, Checked.bind, bare, hv, Option.map_none]
  | some a =>
    simp only [Bind.bind, Checked.bind, hv, bare, Option.map_some, ← h a hv, List.map_append]

theorem bare_attempt (f : α → β) (x : Checked α) :
    x.attempt.bare (Option.map f) = (x.bare f).attempt := rfl

theorem bare_id_attempt (x : Checked α) : (x.bare id).attempt = x.attempt.bare id := by
  rw [← bare_attempt, Option.map_id_fun]

theorem bare_proceed {k : Option α → Checked γ} {k' : Option β → Checked δ} {g : γ → δ}
    (h : (k x.value).bare g = k' (x.value.map f)) :
    (x.proceed k).bare g = (x.bare f).proceed k' := by
  simp only [Checked.proceed, bare, ← h, List.map_append, Option.isSome_map]
  split <;> rfl

theorem bare_both (x : Checked α) (y : Checked β) :
    (x.both y).bare id = (x.bare id).both (y.bare id) := by
  simp only [Checked.both, bare, List.map_append, Option.map_id_fun, id]

theorem bare_unlessError (f : α → β) (x : Checked α) :
    x.unlessError.bare f = (x.bare f).unlessError := by
  simp only [Checked.unlessError, bare, List.any_map, Finding.bare, Function.comp_def]
  split <;> rfl

theorem bare_foldlM {step : α → γ → Checked α} {step' : β → δ → Checked β} {g : γ → δ}
    (h : ∀ a c, (step a c).bare f = step' (f a) (g c)) (cs : List γ) (a : α) :
    (cs.foldlM step a).bare f = (cs.map g).foldlM step' (f a) := by
  induction cs generalizing a with
  | nil => rfl
  | cons c cs ih =>
    rw [List.foldlM_cons, List.map_cons, List.foldlM_cons, ← h]
    exact bare_bind fun a' _ => ih a'

theorem bare_forM {k : γ → Checked Unit} {k' : δ → Checked Unit} {g : γ → δ}
    (h : ∀ c, (k c).bare id = k' (g c)) (cs : List γ) :
    (cs.forM k).bare id = (cs.map g).forM k' := by
  induction cs with
  | nil => rfl
  | cons c cs ih =>
    have hc : (c :: cs).forM k = k c >>= fun _ => cs.forM k := rfl
    have hc' : ((c :: cs).map g).forM k' = k' (g c) >>= fun _ => (cs.map g).forM k' := rfl
    rw [hc, hc', ← h]
    exact bare_bind fun _ _ => ih

/-- What is only noted makes no difference to what follows. -/
theorem bare_unless {c : Prop} [Decidable c] {p : Problem} {span : Span} {k : Checked α}
    {k' : Checked β} (h : k.bare f = k') :
    (if c then (Checked.note p span >>= fun _ => k) else k).bare f =
      if c then (Checked.note p noSpan >>= fun _ => k') else k' := by
  split
  · exact bare_bind (f := id) fun _ _ => h
  · exact h

theorem bare_note_if {c : Prop} [Decidable c] {p : Problem} {span : Span} :
    (if c then Checked.note p span else Pure.pure ()).bare id =
      if c then Checked.note p noSpan else Pure.pure () := by
  split <;> rfl

theorem bare_clean : (x.bare f).Clean ↔ x.Clean := by
  simp [Clean, bare, Finding.bare]

theorem bare_yields {b : β} : (x.bare f).Yields b ↔ ∃ a, x.Yields a ∧ f a = b := by
  simp only [Yields, bare_clean]
  simp only [bare, Option.map_eq_some_iff]
  constructor
  · rintro ⟨⟨a, ha, hb⟩, hc⟩
    exact ⟨a, ⟨ha, hc⟩, hb⟩
  · rintro ⟨a, ⟨ha, hc⟩, hb⟩
    exact ⟨⟨a, ha, hb⟩, hc⟩

theorem bare_id_yields {a : α} : (x.bare id).Yields a ↔ x.Yields a := by
  simp [bare_yields]

end

end Checked

open Checked

section

variable {s : TypeScope}

theorem TypeScope.resolveShape_bare (name : String) (argCount : Nat) (span : Span) :
    (s.resolveShape name argCount span).bare id = s.resolveShape name argCount noSpan := by
  unfold resolveShape
  split
  · rfl
  · split <;> rfl

theorem TypeScope.resolveReferenced_bare (m : ModuleId) (name : String) (argCount : Nat)
    (span : Span) :
    (s.resolveReferenced m name argCount span).bare id =
      s.resolveReferenced m name argCount noSpan := by
  unfold resolveReferenced
  split
  · rfl
  · split
    · rfl
    · split <;> rfl

mutual

theorem TypeScope.resolve_bare (allowAsync : Bool) (t : TypeExpr) :
    (s.resolve allowAsync t).bare id = s.resolve allowAsync t.bare := by
  match t with
  | .array element _ =>
    rw [TypeExpr.bare, resolve, resolve, ← TypeScope.resolve_bare false element]
    exact bare_bind fun _ _ => rfl
  | .path none name args span =>
    rw [TypeExpr.bare]
    unfold resolve
    split
    · split
      · rfl
      · match args with
        | [] => rfl
        | [arg] =>
          simp only [TypeExpr.bareAll, ← TypeScope.resolve_bare false arg]
          exact bare_bind fun _ _ => rfl
        | _ :: _ :: _ => simp [TypeExpr.bareAll]
    · rw [resolveShape_bare, TypeExpr.bareAll_length]
  | .path (some m) name args span =>
    rw [TypeExpr.bare, resolve, resolve, TypeExpr.bareAll_length]
    split
    · exact resolveShape_bare _ _ _
    · rw [← resolveReferenced_bare m name args.length span, ← TypeScope.resolveAll_bare args]
      exact bare_bind fun _ _ => bare_bind fun _ _ => rfl

theorem TypeScope.resolveAll_bare (ts : List TypeExpr) :
    (s.resolveAll ts).bare id = s.resolveAll (TypeExpr.bareAll ts) := by
  match ts with
  | [] => rfl
  | t :: ts =>
    rw [TypeExpr.bareAll, resolveAll, resolveAll, ← TypeScope.resolve_bare false t,
      ← TypeScope.resolveAll_bare ts, ← bare_both]
    exact bare_bind fun _ _ => rfl

end

mutual

/-- Spans make no difference to what an expression is checked to. -/
theorem checkValue_bare (vars : Vars) (e : Expr) :
    (checkValue s vars e).bare id = checkValue s vars e.bare := by
  match e with
  | .var name =>
    rw [Expr.bare, checkValue, checkValue, Ident.bare_name]
    split <;> rfl
  | .field base name span =>
    rw [Expr.bare, checkValue, checkValue, ← checkValue_bare vars base]
    refine bare_bind fun b _ => ?_
    cases hf : s.fieldsOf? b.type with
    | none => simp [hf]
    | some fields =>
      simp only [id, hf, Ident.bare_name]
      split <;> rfl
  | .new type inits span =>
    rw [Expr.bare, checkValue, checkValue, ← TypeScope.resolve_bare]
    refine bare_bind fun t _ => ?_
    cases hf : s.fieldsOf? t with
    | none => simp [hf]
    | some fields =>
      simp only [id, hf, ← checkInits_bare vars t fields [] inits]
      exact bare_bind fun _ _ => rfl
  | .call function types args span =>
    rw [Expr.bare, checkValue, checkValue]
    rfl
  | .await inner span =>
    rw [Expr.bare, checkValue, checkValue]
    rfl

theorem checkInits_bare (vars : Vars) (type : TypeRef) (fields : List Field)
    (done : List (String × ValueExpr)) (inits : List (Ident × Expr)) :
    (checkInits s vars type fields done inits).bare id =
      checkInits s vars type fields done (Expr.bareFields inits) := by
  match inits with
  | [] => rfl
  | (name, e) :: inits =>
    have hinit : (checkInit s vars type fields done name e).bare id =
        checkInit s vars type fields done name.bare e.bare := by
      unfold checkInit
      rw [Ident.bare_name]
      split
      · rfl
      · split
        · rfl
        · rw [← checkValue_bare vars e]
          refine bare_bind fun v _ => ?_
          simp only [id]
          split
          · rfl
          · rw [Expr.bare_span]
            rfl
    rw [Expr.bareFields, checkInits_cons, checkInits_cons, ← hinit]
    refine bare_proceed ?_
    rw [Option.map_id]
    cases (checkInit s vars type fields done name e).value with
    | none => exact checkInits_bare vars type fields done inits
    | some v => exact checkInits_bare vars type fields _ inits

end

theorem unwrapAwait_bare (op : OpDecl) (value : Expr) :
    (unwrapAwait op value).bare (Prod.map (·.bare) id) = unwrapAwait op.bare value.bare := by
  cases value with
  | await inner span =>
    have hasync : op.bare.isAsync = op.isAsync := rfl
    simp only [unwrapAwait, Expr.bare, hasync]
    split <;> rfl
  | _ => rfl

theorem checkCallParts_bare (vars : Vars) (request response : TypeExpr) (arg : Expr) :
    (checkCallParts s vars request response arg).bare id =
      checkCallParts s vars request.bare response.bare arg.bare := by
  rw [checkCallParts, checkCallParts, bare_both, bare_both, TypeScope.resolve_bare,
    TypeScope.resolve_bare, checkValue_bare]

theorem checkReturn_bare (op : OpDecl) (result : Option TypeRef) (vars : Vars) (value : Expr) :
    (checkReturn s op result vars value).bare id =
      checkReturn s op.bare result vars value.bare := by
  rw [checkReturn, checkReturn, ← unwrapAwait_bare]
  refine bare_bind ?_
  rintro ⟨called, awaited⟩ -
  cases called with
  | call function types args span =>
    simp only [Prod.map, Expr.bare, Expr.bareAll_eq, Ident.bare_name]
    split
    · rfl
    · rcases types with _ | ⟨request, _ | ⟨response, _ | ⟨extra, types⟩⟩⟩
      · rfl
      · rfl
      · rcases args with _ | ⟨arg, _ | ⟨next, args⟩⟩
        · rfl
        · simp only [List.map_cons, List.map_nil, ← checkCallParts_bare]
          refine bare_bind ?_
          rintro ⟨requestType, responseType, v⟩ -
          simp only [id, apply_ite (Checked.bare id), bare_fail, bare_pure, Expr.bare_span,
            TypeExpr.bare_span]
          rfl
        · simp
      · simp
  | var _ => simp [Prod.map, Expr.bare]
  | field _ _ _ => simp [Prod.map, Expr.bare]
  | new _ _ _ => simp [Prod.map, Expr.bare]
  | await _ _ => simp [Prod.map, Expr.bare]

/-- Spans make no difference to what a body is checked to, under the locals that it has so far. -/
theorem checkStmts_bare (op : OpDecl) (result : Option TypeRef) (vars : Vars)
    (locals : List ValueExpr) (body : List Stmt) :
    (checkStmts s op result vars locals body).bare id =
      checkStmts s op.bare result vars locals (body.map (·.bare)) := by
  induction body generalizing vars locals with
  | nil => rfl
  | cons stmt rest ih =>
    cases stmt with
    | bind name value span =>
      rw [List.map_cons, Stmt.bare, checkStmts, checkStmts, Ident.bare_name]
      split
      · rw [← ih vars locals]
        exact bare_proceed (f := id) rfl
      · rw [← checkValue_bare vars value]
        refine bare_proceed ?_
        rw [Option.map_id]
        cases (checkValue s vars value).value with
        | none => exact ih _ _
        | some v => exact ih _ _
    | result value span =>
      have hreturn := checkReturn_bare (s := s) op result vars value
      cases rest with
      | nil =>
        rw [List.map_cons, List.map_nil, Stmt.bare, checkStmts, checkStmts, ← hreturn]
        exact bare_bind fun _ _ => rfl
      | cons next more =>
        rw [List.map_cons, List.map_cons, Stmt.bare, checkStmts, checkStmts, ← hreturn,
          Stmt.bare_span]
        exact bare_proceed rfl

theorem paramVars_bare (op : OpDecl) (params : Option (List ParamImage)) :
    paramVars op.bare params = paramVars op params := by
  simp only [paramVars, OpDecl.bare, List.zipIdx_map, List.map_map]
  rfl

def HttpRoute.bare (r : HttpRoute) : HttpRoute :=
  { r with span := noSpan }

def OpAttributes.bare (found : OpAttributes) : OpAttributes :=
  { found with route := found.route.map (·.bare) }

theorem checkHttp_bare (a : Attribute) :
    (checkHttp a).bare HttpRoute.bare = checkHttp a.bare := by
  obtain ⟨name, args, span⟩ := a
  match args with
  | [.type verb, .text route routeSpan] =>
    simp only [checkHttp, Attribute.bare, List.map_cons, List.map_nil, AttributeArg.bare]
    match verb with
    | .path none name args span =>
      simp only [TypeExpr.bare, TypeExpr.bareAll_eq, List.isEmpty_map]
      split
      · rfl
      · split <;> rfl
    | .path (some _) _ _ _ => rfl
    | .array _ _ => rfl
  | [] => rfl
  | [.text _ _] => rfl
  | [.type _] => rfl
  | [.type _, .type _] => rfl
  | [.text _ _, _] => rfl
  | _ :: _ :: _ :: _ => simp [checkHttp, Attribute.bare]

theorem checkAttribute_bare (seen : OpAttributes) (a : Attribute) :
    (checkAttribute s seen a).bare OpAttributes.bare =
      checkAttribute s seen.bare a.bare := by
  have hname : a.bare.name.name = a.name.name := rfl
  have hseen : seen.bare.routeSeen = seen.routeSeen := rfl
  unfold checkAttribute
  rw [hname, hseen]
  split
  · split
    · exact bare_bind (f := id) fun _ _ => rfl
    · rw [← checkHttp_bare, ← bare_attempt]
      exact bare_bind fun _ _ => rfl
  · split
    · obtain ⟨name, args, span⟩ := a
      match args with
      | [.type t] =>
        simp only [Attribute.bare, List.map_cons, List.map_nil, AttributeArg.bare,
          ← TypeScope.resolve_bare, bare_id_attempt]
        exact bare_bind fun _ _ => rfl
      | [] => exact bare_bind (f := id) fun _ _ => rfl
      | [.text _ _] => exact bare_bind (f := id) fun _ _ => rfl
      | .text _ _ :: _ :: _ => exact bare_bind (f := id) fun _ _ => rfl
      | .type _ :: _ :: _ => exact bare_bind (f := id) fun _ _ => rfl
    · exact bare_bind (f := id) fun _ _ => rfl

theorem checkAttributes_bare (op : OpDecl) :
    (checkAttributes s op).bare OpAttributes.bare = checkAttributes s op.bare := by
  have hfold := bare_foldlM (checkAttribute_bare (s := s)) op.attributes ⟨false, none, none⟩
  have hstart : OpAttributes.bare ⟨false, none, none⟩ = ⟨false, none, none⟩ := rfl
  have hattributes : op.bare.attributes = op.attributes.map (·.bare) := rfl
  rw [hstart] at hfold
  rw [checkAttributes, checkAttributes, hattributes, ← hfold]
  refine bare_bind fun found _ => ?_
  exact bare_unless rfl

theorem bindingAttributes_bare (attrs : List Attribute) :
    (bindingAttributes attrs).bare (List.map (Prod.map id (·.bare))) =
      bindingAttributes (attrs.map (·.bare)) := by
  induction attrs with
  | nil => rfl
  | cons a attrs ih =>
    have hname : a.bare.name.name = a.name.name := rfl
    rw [List.map_cons, bindingAttributes, bindingAttributes, hname, ← ih]
    split
    · exact bare_bind fun _ _ => rfl
    · exact bare_bind (f := id) fun _ _ => rfl

theorem checkBinding_bare (p : ParamDecl) : (checkBinding p).bare id = checkBinding p.bare := by
  have hattributes : p.bare.attributes = p.attributes.map (·.bare) := rfl
  rw [checkBinding, checkBinding, hattributes, ← bindingAttributes_bare]
  refine bare_bind fun found _ => ?_
  rcases found with _ | ⟨⟨source, name, args, span⟩, _ | ⟨next, found⟩⟩
  · rfl
  · rcases args with _ | ⟨arg, _ | ⟨next, args⟩⟩
    · rfl
    · cases arg <;> rfl
    · cases arg <;> rfl
  · rfl

theorem checkImage_bare (p : ParamDecl) : (checkImage s p).bare id = checkImage s p.bare := by
  have htype : p.bare.type = p.type.bare := rfl
  rw [checkImage, checkImage, htype, ← checkBinding_bare, ← TypeScope.resolve_bare]
  exact bare_bind fun _ _ => bare_bind fun _ _ => rfl

theorem checkParamType_bare (op : OpDecl) (placeholders : Option (List String)) (bodies : Nat)
    (p : ParamDecl) (image : ParamImage) :
    (checkParamType s op placeholders bodies p image).bare id =
      checkParamType s op.bare placeholders bodies p.bare image := by
  have htype : p.bare.type.span = noSpan := p.type.bare_span
  unfold checkParamType
  rw [htype]
  cases image.source with
  | path | query => exact bare_unless bare_note_if
  | body | form => exact bare_unless (bare_unless bare_note_if)

theorem checkParam_bare (op : OpDecl) (placeholders : Option (List String)) (seen : ParamsSeen)
    (p : ParamDecl) :
    (checkParam s op placeholders seen p).bare id =
      checkParam s op.bare placeholders seen p.bare := by
  have hname : p.bare.name.name = p.name.name := rfl
  rw [checkParam_eq, checkParam_eq, hname, ← checkImage_bare, bare_id_attempt]
  split
  · exact bare_bind (f := id) fun _ _ => rfl
  · refine bare_bind fun o _ => ?_
    cases o with
    | none => rfl
    | some image =>
      simp only [id, ← checkParamType_bare]
      exact bare_bind fun _ _ => rfl

theorem meantFor_bare (placeholder : String) (p : ParamDecl) :
    ParamDecl.meantFor placeholder p.bare = ParamDecl.meantFor placeholder p := by
  have hattributes : p.bare.attributes = p.attributes.map (·.bare) := rfl
  have hname : p.bare.name.name = p.name.name := rfl
  simp only [ParamDecl.meantFor, hattributes, hname, List.any_map]
  congr 3
  funext a
  obtain ⟨name, args, span⟩ := a
  match args with
  | [] => rfl
  | [.text _ _] => rfl
  | [.type _] => rfl
  | .text _ _ :: _ :: _ => rfl
  | .type _ :: _ :: _ => rfl

theorem checkPlaceholder_bare (op : OpDecl) (route : HttpRoute) (params : List ParamImage)
    (placeholder : String) :
    (checkPlaceholder op route params placeholder).bare id =
      checkPlaceholder op.bare route.bare params placeholder := by
  have hparams : op.bare.params = op.params.map (·.bare) := rfl
  have hmeant : op.bare.params.any (ParamDecl.meantFor placeholder) =
      op.params.any (ParamDecl.meantFor placeholder) := by
    rw [hparams, List.any_map]
    exact congrArg (op.params.any ·) (funext (meantFor_bare placeholder))
  rw [checkPlaceholder, checkPlaceholder, hmeant]
  exact bare_note_if

theorem checkParams_bare (op : OpDecl) (route : Option HttpRoute) :
    (checkParams s op route).bare id =
      checkParams s op.bare (route.map (·.bare)) := by
  have hplaceholders : (route.map (·.bare)).map (fun r => Route.placeholders r.route) =
      route.map fun r => Route.placeholders r.route := by
    cases route <;> rfl
  have hparams : op.bare.params = op.params.map (·.bare) := rfl
  have hfold := bare_foldlM (checkParam_bare (s := s) op
    (route.map fun r => Route.placeholders r.route)) op.params ⟨[], [], 0⟩
  rw [checkParams, checkParams, bare_unlessError]
  simp only [hplaceholders, hparams]
  rw [id] at hfold
  rw [← hfold]
  refine congrArg Checked.unlessError (bare_bind fun seen _ => ?_)
  cases route with
  | none => exact bare_bind (f := id) fun _ _ => rfl
  | some r =>
    have hforM := bare_forM (g := id) (checkPlaceholder_bare op r seen.params)
      (Route.placeholders r.route)
    rw [List.map_id] at hforM
    change ((Route.placeholders r.route).forM (checkPlaceholder op r seen.params) >>= fun _ =>
        Pure.pure seen.params).bare id =
      (Route.placeholders r.route).forM (checkPlaceholder op.bare r.bare seen.params) >>= fun _ =>
        Pure.pure seen.params
    rw [← hforM]
    exact bare_bind fun _ _ => rfl

theorem checkResult_bare (op : OpDecl) :
    (checkResult s op).bare id = checkResult s op.bare := by
  have hresult : op.bare.result = op.result.bare := rfl
  rw [checkResult, checkResult, hresult, ← TypeScope.resolve_bare, TypeExpr.bare_span]
  exact bare_bind fun _ _ => bare_unless (bare_unless rfl)

/-- Where an operation stands makes no difference to its image. -/
theorem checkOp_bare (op : OpDecl) : (checkOp s op).bare id = checkOp s op.bare := by
  have hbody : op.bare.body = op.body.map (·.bare) := rfl
  rw [checkOp, checkOp, ← checkAttributes_bare]
  refine bare_bind fun attrs _ => ?_
  have hroute : attrs.bare.route = attrs.route.map (·.bare) := rfl
  rw [hroute, ← checkParams_bare, bare_id_attempt]
  refine bare_bind fun params _ => ?_
  rw [← checkResult_bare, bare_id_attempt]
  refine bare_bind fun result _ => ?_
  simp only [id, paramVars_bare, hbody, ← checkStmts_bare, bare_id_attempt]
  refine bare_bind fun body _ => ?_
  cases attrs.route <;> cases params <;> cases body <;> rfl

theorem checkField_bare (shape : String) (done : List Field) (d : FieldDecl) :
    (checkField s shape done d).bare id = checkField s shape done d.bare := by
  have hname : d.bare.name.name = d.name.name := rfl
  have htype : d.bare.type = d.type.bare := rfl
  unfold checkField
  rw [hname, htype]
  split
  · exact bare_bind (f := id) fun _ _ => rfl
  · rw [← TypeScope.resolve_bare, bare_id_attempt]
    refine bare_bind fun o _ => ?_
    cases o <;> rfl

theorem checkShape_bare (d : ShapeDecl) :
    (checkShape s d).bare id = checkShape s d.bare := by
  have hfields : d.bare.fields = d.fields.map (·.bare) := rfl
  have hattributes : d.bare.attributes = d.attributes.map (·.bare) := rfl
  have hname : d.bare.name.name = d.name.name := rfl
  have hnotes : (d.attributes.forM fun a =>
      Checked.note (.unknownAttribute a.name.name) a.span).bare id =
      (d.attributes.map (·.bare)).forM fun a =>
        Checked.note (.unknownAttribute a.name.name) a.span :=
    bare_forM (g := Attribute.bare) (fun _ => rfl) _
  rw [checkShape, checkShape, hfields, hattributes, hname, ← hnotes]
  exact bare_bind fun _ _ => bare_foldlM (checkField_bare d.name.name) _ _

end

end EndpointCompiler
