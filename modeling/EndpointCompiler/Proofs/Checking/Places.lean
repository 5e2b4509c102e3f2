import EndpointCompiler.Proofs.Checking.Finds
import EndpointCompiler.Proofs.Checking.Program
import EndpointCompiler.Proofs.Source.Spans

/-! Where findings are. A check reports what it finds at spans of the declaration that it looks at,
so whatever holds of all spans in a declaration holds of all that is reported of it. -/

namespace EndpointCompiler

open Source Checked

section

variable {Q : Span → Prop} {s : TypeScope}

namespace TypeScope

theorem resolveShape_each (name : String) (argCount : Nat) {span : Span} (h : Q span) :
    (s.resolveShape name argCount span).Each (Q ·.span) := by
  unfold resolveShape
  split
  · exact each_fail.mpr h
  · split
    · exact each_fail.mpr h
    · exact each_pure' _

theorem resolveReferenced_each (m : ModuleId) (name : String) (argCount : Nat) {span : Span}
    (h : Q span) : (s.resolveReferenced m name argCount span).Each (Q ·.span) := by
  unfold resolveReferenced
  split
  · exact each_fail.mpr h
  · split
    · exact each_fail.mpr h
    · split
      · exact each_pure' _
      · exact each_fail.mpr h

mutual

theorem resolve_each {allowAsync : Bool} (t : TypeExpr) (h : ∀ x ∈ t.spans, Q x) :
    (s.resolve allowAsync t).Each (Q ·.span) := by
  match t with
  | .array element _ =>
    rw [TypeExpr.spans, List.forall_mem_cons] at h
    rw [resolve]
    exact (resolve_each element h.2).bind fun _ _ => each_pure _
  | .path none name args span =>
    rw [TypeExpr.spans, List.forall_mem_cons] at h
    unfold resolve
    split
    · split
      · exact each_fail.mpr h.1
      · split
        · rename_i arg
          rw [TypeExpr.allSpans, List.forall_mem_append] at h
          exact (resolve_each arg h.2.1).bind fun _ _ => each_pure _
        · exact each_fail.mpr h.1
    · exact resolveShape_each _ _ h.1
  | .path (some m) name args span =>
    rw [TypeExpr.spans, List.forall_mem_cons] at h
    rw [resolve]
    split
    · exact resolveShape_each _ _ h.1
    · exact (resolveReferenced_each _ _ _ h.1).bind fun _ _ =>
        (resolveAll_each args h.2).bind fun _ _ => each_pure _

theorem resolveAll_each (ts : List TypeExpr) (h : ∀ x ∈ TypeExpr.allSpans ts, Q x) :
    (s.resolveAll ts).Each (Q ·.span) := by
  match ts with
  | [] => exact each_pure' _
  | t :: ts =>
    rw [TypeExpr.allSpans, List.forall_mem_append] at h
    rw [resolveAll]
    exact ((resolve_each t h.1).both (resolveAll_each ts h.2)).bind fun _ _ => each_pure _

end

end TypeScope

mutual

theorem checkValue_each (vars : Vars) (e : Expr) (h : ∀ x ∈ e.spans, Q x) :
    (checkValue s vars e).Each (Q ·.span) := by
  match e with
  | .var name =>
    rw [checkValue]
    split
    · exact each_pure' _
    · exact each_abandon
    · exact each_fail.mpr (h _ (Expr.span_mem_spans _))
  | .field base name span =>
    rw [Expr.spans, List.forall_mem_cons, List.forall_mem_cons] at h
    obtain ⟨hspan, hname, hbase⟩ := h
    rw [checkValue]
    refine (checkValue_each vars base hbase).bind fun b _ => ?_
    split
    · exact each_fail.mpr hspan
    · split
      · exact each_fail.mpr hname
      · exact each_pure _
  | .new type inits span =>
    rw [Expr.spans, List.cons_append, List.forall_mem_cons, List.forall_mem_append] at h
    obtain ⟨hspan, htype, hinits⟩ := h
    rw [checkValue]
    refine (TypeScope.resolve_each type htype).bind fun t _ => ?_
    split
    · exact each_fail.mpr hspan
    · exact (checkInits_each vars t _ [] inits hinits).bind fun _ _ => each_pure _
  | .call function types args span =>
    rw [checkValue]
    exact each_fail.mpr (h _ (Expr.span_mem_spans _))
  | .await inner span =>
    rw [checkValue]
    exact each_fail.mpr (h _ (Expr.span_mem_spans _))

theorem checkInits_each (vars : Vars) (type : TypeRef) (fields : List Field)
    (done : List (String × ValueExpr)) (inits : List (Ident × Expr))
    (h : ∀ x ∈ Expr.fieldSpans inits, Q x) :
    (checkInits s vars type fields done inits).Each (Q ·.span) := by
  match inits with
  | [] =>
    rw [checkInits]
    exact each_pure' done
  | (name, e) :: inits =>
    rw [Expr.fieldSpans, List.cons_append, List.forall_mem_cons, List.forall_mem_append] at h
    obtain ⟨hname, hvalue, hinits⟩ := h
    rw [checkInits]
    refine Each.proceed ?_ ?_
    · split
      · exact each_fail.mpr hname
      · split
        · exact each_fail.mpr hname
        · refine (checkValue_each vars e hvalue).bind fun v _ => ?_
          split
          · exact each_pure _
          · exact each_fail.mpr (hvalue _ (Expr.span_mem_spans _))
    · split
      · exact checkInits_each vars type fields _ inits hinits
      · exact checkInits_each vars type fields done inits hinits

end

/-- What is awaited is part of the expression. -/
theorem unwrapAwait_each (op : OpDecl) (e : Expr) (h : ∀ x ∈ e.spans, Q x) :
    (unwrapAwait op e).Each (Q ·.span) ∧
      ∀ r, (unwrapAwait op e).value = some r → ∀ x ∈ r.1.spans, Q x := by
  have hplain : (Checked.pure (e, false)).Each (Q ·.span) ∧
      ∀ r, (Checked.pure (e, false)).value = some r → ∀ x ∈ r.1.spans, Q x :=
    ⟨each_pure' _, fun r hr => Option.some.inj hr ▸ h⟩
  cases e with
  | await inner span =>
    rw [Expr.spans, List.forall_mem_cons] at h
    unfold unwrapAwait
    dsimp only
    split
    · exact ⟨each_pure' _, fun r hr => Option.some.inj hr ▸ h.2⟩
    · exact ⟨each_fail.mpr h.1, nofun⟩
  | var _ => exact hplain
  | field _ _ _ => exact hplain
  | new _ _ _ => exact hplain
  | call _ _ _ _ => exact hplain

theorem checkReturn_each (op : OpDecl) (result : Option TypeRef) (vars : Vars) (value : Expr)
    (h : ∀ x ∈ value.spans, Q x) : (checkReturn s op result vars value).Each (Q ·.span) := by
  obtain ⟨hunwrap, hinner⟩ := unwrapAwait_each op value h
  unfold checkReturn
  refine hunwrap.bind fun ⟨called, awaited⟩ hcalled => ?_
  have hspans : ∀ x ∈ called.spans, Q x := hinner _ hcalled
  have hcalledSpan : Q called.span := hspans _ called.span_mem_spans
  dsimp only
  split
  · rename_i function types args span
    rw [Expr.spans, Expr.allSpans_eq, List.cons_append, List.cons_append, List.forall_mem_cons,
      List.forall_mem_cons, List.forall_mem_append] at hspans
    obtain ⟨hspan, hfunction, htypes, hargs⟩ := hspans
    rw [List.forall_mem_flatMap] at htypes hargs
    split
    · exact each_fail.mpr hfunction
    · split
      · rename_i request response arg
        have hrequest : ∀ x ∈ request.spans, Q x := htypes _ (by simp)
        have hresponse : ∀ x ∈ response.spans, Q x := htypes _ (by simp)
        have harg : ∀ x ∈ arg.spans, Q x := hargs _ (by simp)
        have hparts : (checkCallParts s vars request response arg).Each (Q ·.span) :=
          (TypeScope.resolve_each request hrequest).both
            ((TypeScope.resolve_each response hresponse).both (checkValue_each vars arg harg))
        refine hparts.bind fun ⟨requestType, responseType, v⟩ _ => ?_
        dsimp only
        split
        -- Each of the five faults of a call points at the part of it that is wrong.
        · exact each_fail.mpr (harg _ arg.span_mem_spans)
        split
        · exact each_fail.mpr hfunction
        split
        · exact each_fail.mpr hfunction
        split
        · exact each_fail.mpr hcalledSpan
        split
        · exact each_fail.mpr (hresponse _ response.span_mem_spans)
        · exact each_pure _
      · exact each_fail.mpr hspan
      · exact each_fail.mpr hspan
  · exact each_fail.mpr (h _ value.span_mem_spans)

theorem checkStmts_each (op : OpDecl) (result : Option TypeRef) (vars : Vars)
    (locals : List ValueExpr) (body : List Stmt) (hname : Q op.name.span)
    (h : ∀ stmt ∈ body, ∀ x ∈ stmt.spans, Q x) :
    (checkStmts s op result vars locals body).Each (Q ·.span) := by
  induction body generalizing vars locals with
  | nil => exact each_fail.mpr hname
  | cons stmt rest ih =>
    rw [List.forall_mem_cons] at h
    cases stmt with
    | bind name value span =>
      rw [Stmt.spans, List.forall_mem_cons, List.forall_mem_cons] at h
      obtain ⟨⟨-, hbound, hvalue⟩, hrest⟩ := h
      rw [checkStmts]
      split
      · exact (each_fail.mpr hbound).proceed (ih vars locals hrest)
      · refine (checkValue_each vars value hvalue).proceed ?_
        split
        · exact ih _ _ hrest
        · exact ih _ _ hrest
    | result value span =>
      rw [Stmt.spans, List.forall_mem_cons] at h
      have hreturn := checkReturn_each (s := s) op result vars value h.1.2
      cases rest with
      | nil =>
        rw [checkStmts]
        exact hreturn.bind fun _ _ => each_pure _
      | cons next more =>
        rw [checkStmts]
        exact hreturn.proceed (each_fail.mpr (h.2 next List.mem_cons_self _ next.span_mem_spans))

/-- A route has the place of its attribute. -/
theorem checkHttp_each (a : Attribute) (h : ∀ x ∈ a.spans, Q x) :
    (checkHttp a).Each (Q ·.span) ∧ ∀ r, (checkHttp a).value = some r → Q r.span := by
  rw [Attribute.spans, List.forall_mem_cons, List.forall_mem_cons, List.forall_mem_flatMap] at h
  obtain ⟨hspan, -, hargs⟩ := h
  unfold checkHttp
  split
  · rename_i verb route routeSpan heq
    rw [heq, List.forall_mem_cons, List.forall_mem_singleton] at hargs
    split
    · split
      · exact ⟨each_fail.mpr (hargs.1 _ (TypeExpr.span_mem_spans _)), nofun⟩
      · split
        · exact ⟨each_fail.mpr (hargs.2 _ List.mem_cons_self), nofun⟩
        · exact ⟨each_pure' _, fun r hr => Option.some.inj hr ▸ hspan⟩
    · exact ⟨each_fail.mpr (hargs.1 _ verb.span_mem_spans), nofun⟩
  · exact ⟨each_fail.mpr hspan, nofun⟩

/-- What is left to check of the attributes, after a route with its place. -/
structure AttributesLeft (Q : Span → Prop) (rest : List Attribute) (seen : OpAttributes) :
    Prop where
  spans : ∀ a ∈ rest, ∀ x ∈ a.spans, Q x
  route : ∀ r, seen.route = some r → Q r.span

/-- What is found in an attribute is found at one of its spans, and so is the route that it
gives. -/
theorem checkAttribute_each {a : Attribute} {rest : List Attribute} {seen : OpAttributes}
    (h : AttributesLeft Q (a :: rest) seen) :
    (checkAttribute s seen a).Each (Q ·.span) ∧
      ∀ seen', (checkAttribute s seen a).value = some seen' → AttributesLeft Q rest seen' := by
  obtain ⟨hspans, hseen⟩ := h
  rw [List.forall_mem_cons] at hspans
  obtain ⟨ha, hrest⟩ := hspans
  have hspan : Q a.span := ha _ (by simp [Attribute.spans])
  have hnote : ∀ p, (Checked.note p a.span >>= fun _ => Pure.pure seen).Each (Q ·.span) :=
    fun p => (each_note.mpr hspan).bind fun _ _ => each_pure _
  have hkept : ∀ seen', some seen = some seen' → AttributesLeft Q rest seen' :=
    fun seen' h => Option.some.inj h ▸ ⟨hrest, hseen⟩
  unfold checkAttribute
  split
  · split
    · exact ⟨hnote _, hkept⟩
    · obtain ⟨hhttp, hroute⟩ := checkHttp_each a ha
      refine ⟨hhttp.attempt.bind fun _ _ => each_pure _, fun seen' hseen' => ?_⟩
      rw [attempt_bind_value] at hseen'
      exact Option.some.inj hseen' ▸ ⟨hrest, hroute⟩
  · split
    · split
      · rename_i t heq
        have ht : ∀ x ∈ t.spans, Q x := by
          intro x hx
          refine ha x ?_
          rw [Attribute.spans, heq]
          simp [AttributeArg.spans, hx]
        refine ⟨(TypeScope.resolve_each t ht).attempt.bind fun _ _ => each_pure _,
          fun seen' hseen' => ?_⟩
        rw [attempt_bind_value] at hseen'
        exact Option.some.inj hseen' ▸ ⟨hrest, hseen⟩
      · exact ⟨hnote _, hkept⟩
    · exact ⟨hnote _, hkept⟩

theorem checkAttributes_each (op : OpDecl) (hname : Q op.name.span)
    (h : ∀ a ∈ op.attributes, ∀ x ∈ a.spans, Q x) :
    (checkAttributes s op).Each (Q ·.span) ∧
      ∀ attrs, (checkAttributes s op).value = some attrs →
        ∀ r, attrs.route = some r → Q r.span := by
  have hstart : AttributesLeft Q op.attributes ⟨false, none, none⟩ := ⟨h, nofun⟩
  obtain ⟨hfold, hleft⟩ := Each.foldlM (AttributesLeft Q)
    (fun _ _ _ h => checkAttribute_each (s := s) h) hstart
  unfold checkAttributes
  refine ⟨hfold.bind fun found _ => ?_, fun attrs hattrs => ?_⟩
  · exact Each.unless (fun _ => hname) (each_pure _)
  · rw [bind_value] at hattrs
    obtain ⟨found, hfound, hattrs⟩ := Option.bind_eq_some_iff.mp hattrs
    have hsame : found = attrs := by
      split at hattrs
      · exact Option.some.inj hattrs
      · exact Option.some.inj hattrs
    exact hsame ▸ (hleft found hfound).route

/-- What is said of the source of a parameter is among its attributes. -/
theorem bindingAttributes_each (as : List Attribute) (h : ∀ a ∈ as, ∀ x ∈ a.spans, Q x) :
    (bindingAttributes as).Each (Q ·.span) ∧
      ∀ found, (bindingAttributes as).value = some found → ∀ b ∈ found, Q b.2.span := by
  induction as with
  | nil => exact ⟨each_pure' _, fun found hfound => Option.some.inj hfound ▸ nofun⟩
  | cons a as ih =>
    rw [List.forall_mem_cons] at h
    obtain ⟨heach, hfound⟩ := ih h.2
    have hspan : Q a.span := h.1 _ (by simp [Attribute.spans])
    rw [bindingAttributes]
    split
    · refine ⟨heach.bind fun _ _ => each_pure _, fun found hvalue => ?_⟩
      rw [bind_value] at hvalue
      obtain ⟨rest, hrest, hvalue⟩ := Option.bind_eq_some_iff.mp hvalue
      obtain rfl := Option.some.inj hvalue
      exact List.forall_mem_cons.mpr ⟨hspan, hfound rest hrest⟩
    · refine ⟨(each_note.mpr hspan).bind fun _ _ => heach, fun found hvalue => ?_⟩
      rw [bind_value] at hvalue
      exact hfound found hvalue

theorem checkBinding_each (p : ParamDecl) (h : ∀ x ∈ p.spans, Q x) :
    (checkBinding p).Each (Q ·.span) := by
  rw [ParamDecl.spans, List.cons_append, List.forall_mem_cons, List.forall_mem_append,
    List.forall_mem_flatMap] at h
  obtain ⟨heach, hfound⟩ := bindingAttributes_each p.attributes h.2.1
  unfold checkBinding
  refine heach.bind fun found hvalue => ?_
  split
  · rename_i source a
    split
    · exact each_pure _
    · exact each_pure _
    · exact each_fail.mpr (hfound _ hvalue _ List.mem_cons_self)
  · exact each_fail.mpr h.1

theorem ParamDecl.type_spans {p : ParamDecl} (h : ∀ x ∈ p.spans, Q x) : ∀ x ∈ p.type.spans, Q x :=
  fun x hx => h x (by simp [ParamDecl.spans, hx])

theorem checkImage_each (p : ParamDecl) (h : ∀ x ∈ p.spans, Q x) :
    (checkImage s p).Each (Q ·.span) :=
  (checkBinding_each p h).bind fun _ _ =>
    (TypeScope.resolve_each p.type (ParamDecl.type_spans h)).bind fun _ _ => each_pure _

theorem checkParamType_each (op : OpDecl) (placeholders : Option (List String)) (bodies : Nat)
    (p : ParamDecl) (image : ParamImage) (h : ∀ x ∈ p.spans, Q x) :
    (checkParamType s op placeholders bodies p image).Each (Q ·.span) := by
  have hname : Q p.name.span := h _ (by simp [ParamDecl.spans])
  have htype : Q p.type.span := ParamDecl.type_spans h _ p.type.span_mem_spans
  have hroute : ∀ problem, (if image.source = .path ∧
      placeholders.any (!·.contains image.wireName) = true then
        Checked.note problem p.name.span else Pure.pure ()).Each (Q ·.span) :=
    fun _ => Each.note_if fun _ => hname
  unfold checkParamType
  cases hsource : image.source with
  | path | query => exact Each.unless (fun _ => htype) (hsource ▸ hroute _)
  | body | form =>
    exact Each.unless (fun _ => hname) (Each.unless (fun _ => htype) (hsource ▸ hroute _))

theorem checkParam_each (op : OpDecl) (placeholders : Option (List String)) (seen : ParamsSeen)
    (p : ParamDecl) (h : ∀ x ∈ p.spans, Q x) :
    (checkParam s op placeholders seen p).Each (Q ·.span) := by
  unfold checkParam
  split
  · exact (each_note.mpr (h _ (by simp [ParamDecl.spans]))).bind fun _ _ => each_pure _
  · refine Each.attempt_bind (x := checkImage s p) (checkImage_each p h) ?_
    split
    · exact each_pure _
    · exact (checkParamType_each op _ _ p _ h).bind fun _ _ => each_pure _

theorem checkParams_each (op : OpDecl) (route : Option HttpRoute)
    (hroute : ∀ r, route = some r → Q r.span) (h : ∀ p ∈ op.params, ∀ x ∈ p.spans, Q x) :
    (checkParams s op route).Each (Q ·.span) := by
  unfold checkParams
  refine Each.unlessError (Each.bind ?_ fun seen _ => ?_)
  · refine (Each.foldlM (fun rest _ => ∀ p ∈ rest, ∀ x ∈ p.spans, Q x) (fun p rest seen hrest => ?_)
      h).1
    rw [List.forall_mem_cons] at hrest
    exact ⟨checkParam_each op _ seen p hrest.1, fun _ _ => hrest.2⟩
  · cases route with
    | none => exact (each_pure' ()).bind fun _ _ => each_pure _
    | some r =>
      exact (Each.forM fun _ _ => Each.note_if fun _ => hroute r rfl).bind fun _ _ => each_pure _

theorem checkResult_each (op : OpDecl) (h : ∀ x ∈ op.result.spans, Q x) :
    (checkResult s op).Each (Q ·.span) := by
  have hspan : Q op.result.span := h _ op.result.span_mem_spans
  unfold checkResult
  refine (TypeScope.resolve_each op.result h).bind fun result _ => ?_
  exact Each.unless (fun _ => hspan) (Each.unless (fun _ => hspan) (each_pure _))

theorem checkOp_each (op : OpDecl) (h : ∀ x ∈ op.spans, Q x) :
    (checkOp s op).Each (Q ·.span) := by
  simp only [OpDecl.spans, List.cons_append, List.forall_mem_cons, List.forall_mem_append,
    List.forall_mem_flatMap] at h
  obtain ⟨-, hname, ⟨⟨hattributes, hparams⟩, hresult⟩, hbody⟩ := h
  obtain ⟨heach, hroute⟩ := checkAttributes_each (s := s) op hname hattributes
  unfold checkOp
  refine heach.bind fun attrs hattrs => ?_
  refine (checkParams_each op attrs.route (hroute attrs hattrs) hparams).attempt_bind ?_
  refine (checkResult_each op hresult).attempt_bind ?_
  refine (checkStmts_each op _ _ _ op.body hname hbody).attempt_bind ?_
  split
  · exact each_pure _
  · exact each_abandon

theorem checkField_each (shape : String) (done : List Field) (f : FieldDecl)
    (h : ∀ x ∈ f.spans, Q x) : (checkField s shape done f).Each (Q ·.span) := by
  rw [FieldDecl.spans, List.forall_mem_cons] at h
  unfold checkField
  split
  · exact (each_note.mpr h.1).bind fun _ _ => each_pure _
  · refine (TypeScope.resolve_each f.type h.2).attempt_bind ?_
    split
    · exact each_pure _
    · exact each_pure _

theorem checkShape_each (d : ShapeDecl) (h : ∀ x ∈ d.spans, Q x) :
    (checkShape s d).Each (Q ·.span) := by
  simp only [ShapeDecl.spans, List.cons_append, List.forall_mem_cons, List.forall_mem_append,
    List.forall_mem_flatMap] at h
  obtain ⟨-, -, hattributes, hfields⟩ := h
  unfold checkShape
  refine Each.bind (Each.forM fun a ha => each_note.mpr ?_) fun _ _ => ?_
  · exact hattributes a ha _ (by simp [Attribute.spans])
  · refine (Each.foldlM (fun rest _ => ∀ f ∈ rest, ∀ x ∈ f.spans, Q x)
      (fun f rest done hrest => ?_) hfields).1
    rw [List.forall_mem_cons] at hrest
    exact ⟨checkField_each _ done f hrest.1, fun _ _ => hrest.2⟩

end

/-- A diagnostic is at a span of a declaration, and names the unit that the declaration is in. -/
def Diagnostic.AtItem (d : Diagnostic) (units : List ParsedUnit) : Prop :=
  ∃ p ∈ units, ∃ i ∈ p.items, ∃ f : Finding, d = f.diagnostic p.unit ∧ f.span ∈ i.spans

section

variable {units : List ParsedUnit}

theorem checkOps_diagnostics {s : TypeScope} {seen : List String} {ops : List (SourceUnit × OpDecl)} :
    ∀ d ∈ (checkOps s seen ops).2,
      ∃ o ∈ ops, ∃ f : Finding, d = f.diagnostic o.1 ∧ f.span ∈ o.2.spans := by
  induction ops generalizing seen with
  | nil => exact nofun
  | cons o ops ih =>
    obtain ⟨u, op⟩ := o
    have hrest : ∀ {seen} d, d ∈ (checkOps s seen ops).2 →
        ∃ o ∈ (u, op) :: ops, ∃ f : Finding, d = f.diagnostic o.1 ∧ f.span ∈ o.2.spans := by
      intro seen d hd
      obtain ⟨o, ho, hf⟩ := ih d hd
      exact ⟨o, List.mem_cons_of_mem _ ho, hf⟩
    rw [checkOps]
    split
    · intro d hd
      rcases List.mem_cons.mp hd with rfl | hd
      · exact ⟨_, List.mem_cons_self, _, rfl, by simp [OpDecl.spans]⟩
      · exact hrest d hd
    · intro d hd
      rcases List.mem_append.mp hd with hd | hd
      · obtain ⟨f, hf, rfl⟩ := List.mem_map.mp hd
        exact ⟨_, List.mem_cons_self, f, rfl, checkOp_each op (fun _ hx => hx) f hf⟩
      · exact hrest d hd

/-- All that the checks of a program report is at spans of its declarations. -/
theorem checkProgram_atItem (references : ReferenceSet) (module : ModuleId) :
    ∀ d ∈ (checkProgram references module units).diagnostics, d.AtItem units := by
  have hsplit := splitRepeated_perm shapeName [] (declaredShapes units)
  have hshapes : ∀ u decl, (u, decl) ∈ (splitRepeated shapeName [] (declaredShapes units)).1 ++
      (splitRepeated shapeName [] (declaredShapes units)).2 →
      ∃ p ∈ units, p.unit = u ∧ .shape decl ∈ p.items :=
    fun _ _ h => mem_declaredShapes.mp (hsplit.subset h)
  rw [checkProgram_diagnostics]
  intro d hd
  rw [List.mem_append, List.mem_append] at hd
  rcases hd with (hd | hd) | hd
  · obtain ⟨⟨u, decl⟩, hdecl, rfl⟩ := List.mem_map.mp hd
    obtain ⟨p, hp, rfl, hitem⟩ := hshapes u decl (List.mem_append_right _ hdecl)
    exact ⟨p, hp, _, hitem, _, rfl, by simp [Item.spans, ShapeDecl.spans]⟩
  · obtain ⟨⟨u, decl⟩, hdecl, hd⟩ := List.mem_flatMap.mp hd
    obtain ⟨f, hf, rfl⟩ := List.mem_map.mp hd
    obtain ⟨p, hp, rfl, hitem⟩ := hshapes u decl (List.mem_append_left _ hdecl)
    exact ⟨p, hp, _, hitem, f, rfl, checkShape_each decl (fun _ hx => hx) f hf⟩
  · obtain ⟨⟨u, op⟩, hop, f, rfl, hf⟩ := checkOps_diagnostics d hd
    obtain ⟨p, hp, rfl, hitem⟩ := mem_declaredOps.mp hop
    exact ⟨p, hp, _, hitem, f, rfl, hf⟩

end

end EndpointCompiler
