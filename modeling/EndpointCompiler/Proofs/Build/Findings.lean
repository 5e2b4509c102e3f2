import EndpointCompiler.Build
import EndpointCompiler.Proofs.Build.Declared
import EndpointCompiler.Proofs.Checking.Finds
import EndpointCompiler.Proofs.References

/-! What is found in generated source. The definition accounts for all of it: what can be wrong is
in the types that it names, in its placeholders and in the texts of its names. -/

namespace EndpointCompiler

open Source Checked

/-- The problems that a definition can bring about, of which all are errors. -/
def Problem.FromDefinition : Problem → Prop
  | .malformedSource _ | .unknownType .. | .wrongArity .. | .wrongAsyncArity _
  | .shapeTakesNoArguments _ | .misplacedAsync | .unknownShape _ | .unboundPlaceholder _
  | .notPrimitive .. | .noFields _ | .notConstructible _ | .unknownField .. | .mismatchedField ..
  | .mismatchedRequest .. | .mismatchedResponse .. | .missingAwait _ => True
  | _ => False

section

variable {r : ReferenceSet} {s : TypeScope} {d : HandlerDefinition} {carrier : Option String}
  {o : OpDecl} {key : Bool × String}

namespace TypeScope

theorem resolveShape_finds (name : String) (argCount : Nat) (span : Span) :
    (s.resolveShape name argCount span).Finds Problem.FromDefinition := by
  unfold resolveShape
  split
  · exact finds_fail.mpr trivial
  · split
    · exact finds_fail.mpr trivial
    · exact finds_pure' _

theorem resolveReferenced_finds {m : ModuleId} (hm : s.references.contains m = true)
    (name : String) (argCount : Nat) (span : Span) :
    (s.resolveReferenced m name argCount span).Finds Problem.FromDefinition := by
  obtain ⟨found, hfound⟩ := Option.isSome_iff_exists.mp hm
  unfold resolveReferenced
  rw [hfound]
  dsimp only
  split
  · exact finds_fail.mpr trivial
  · split
    · exact finds_pure' _
    · exact finds_fail.mpr trivial

mutual

/-- Where all modules that a type names are referred to, only its names and their arguments can be
at fault in it. -/
theorem resolve_finds {allowAsync : Bool} (t : TypeExpr) (h : s.references.Covers t.toTypeRef) :
    (s.resolve allowAsync t).Finds Problem.FromDefinition := by
  match t with
  | .array element _ =>
    rw [resolve]
    have helement : s.references.Covers element.toTypeRef :=
      h.of_mem (List.mem_cons_of_mem _ (TypeRef.mem_subterms_self _))
    exact (resolve_finds element helement).bind fun _ _ => finds_pure _
  | .path none name args span =>
    unfold resolve
    split
    · rename_i hname
      split
      · exact finds_fail.mpr trivial
      · split
        · rename_i arg
          have harg : s.references.Covers arg.toTypeRef := by
            refine h.of_mem ?_
            rw [hname]
            exact List.mem_cons_of_mem _ (TypeRef.mem_subterms_self _)
          exact (resolve_finds arg harg).bind fun _ _ => finds_pure _
        · exact finds_fail.mpr trivial
    · exact resolveShape_finds _ _ _
  | .path (some m) name args span =>
    rw [toTypeRef_path (by simp)] at h
    rw [resolve]
    split
    · exact resolveShape_finds _ _ _
    · have hm : s.references.contains m = true := h _ (TypeRef.mem_subterms_self _) m rfl
      refine (resolveReferenced_finds hm _ _ _).bind fun _ _ => ?_
      refine (resolveAll_finds args fun u hu => ?_).bind fun _ _ => finds_pure _
      exact h.of_mem (TypeRef.mem_subterms_iff.mpr (.inr ⟨u, hu, TypeRef.mem_subterms_self _⟩))

theorem resolveAll_finds (ts : List TypeExpr)
    (h : ∀ u ∈ TypeExpr.toTypeRefs ts, s.references.Covers u) :
    (s.resolveAll ts).Finds Problem.FromDefinition := by
  match ts with
  | [] => exact finds_pure' _
  | t :: ts =>
    rw [TypeExpr.toTypeRefs, List.forall_mem_cons] at h
    rw [resolveAll]
    exact ((resolve_finds t h.1).both (resolveAll_finds ts h.2)).bind fun _ _ => finds_pure _

end

end TypeScope

namespace HandlerDefinition

theorem covers_of_saysType (hrefs : ∀ t ∈ d.types, r.Covers t) {t : TypeRef}
    (ht : d.SaysType carrier key t) : r.Covers t := by
  unfold SaysType at ht
  split at ht
  · obtain ⟨name, -, rfl⟩ := ht
    exact ReferenceSet.covers_shape name
  · obtain ⟨b, hb, rfl⟩ := ht
    exact hrefs _ (mem_types (mem_bindingsOf.mp (List.mem_of_mem_head? hb)).1)

/-- The attributes of the operation are in order; only the type of its answers may not be. -/
theorem SaysOp.checkAttributes_finds (ho : d.SaysOp carrier o) (hd : d.Valid)
    (hrefs : ∀ t ∈ d.types, s.references.Covers t) :
    (checkAttributes s o).Finds Problem.FromDefinition ∧
      ∀ found, (checkAttributes s o).value = some found →
        ∃ span, found.route = some ⟨d.method, d.route, span⟩ := by
  obtain ⟨http, produces, verb, span, answer, hattributes, hhttp, hargs, hproduces, hargs', hanswer⟩ :=
    ho.exists_attributes
  have hroute : checkAttribute s ⟨false, none, none⟩ http =
      Checked.pure ⟨true, some ⟨d.method, d.route, http.span⟩, none⟩ := by
    rw [checkAttribute, if_pos hhttp, checkHttp_routed hd hargs]
    rfl
  have hanswers : ∀ seen, checkAttribute s seen produces =
      ((s.resolve false answer).attempt >>= fun t => Pure.pure { seen with produces := t }) := by
    intro seen
    rw [checkAttribute, hproduces, if_neg (by decide), if_pos rfl, hargs']
  have hcovers : s.references.Covers answer.toTypeRef :=
    hanswer ▸ ReferenceSet.covers_unwrapAsync.mpr (hrefs _ (by simp [types]))
  -- The two attributes are the route and the type of answers, in this order.
  have hfound : ∀ t, (o.attributes.foldlM (checkAttribute s) ⟨false, none, none⟩).Finds
        Problem.FromDefinition ∧
      ((o.attributes.foldlM (checkAttribute s) ⟨false, none, none⟩).value = some t →
        t.routeSeen = true ∧ t.route = some ⟨d.method, d.route, http.span⟩) := by
    intro t
    rw [hattributes, List.foldlM_cons, hroute]
    simp only [List.foldlM_cons, List.foldlM_nil, hanswers]
    refine ⟨(finds_pure _).bind fun seen _ => ?_, ?_⟩
    · exact ((TypeScope.resolve_finds answer hcovers).attempt.bind fun _ _ => finds_pure _).bind
        fun _ _ => finds_pure _
    · simp only [bind_value, Checked.attempt, Option.bind_some, Checked.pure]
      rintro ⟨⟩
      exact ⟨rfl, rfl⟩
  unfold checkAttributes
  refine ⟨(hfound ⟨false, none, none⟩).1.bind fun found hvalue => ?_, fun found hvalue => ?_⟩
  · rw [((hfound found).2 hvalue).1]
    exact finds_pure found
  · rw [bind_value] at hvalue
    obtain ⟨found', hfold, hvalue⟩ := Option.bind_eq_some_iff.mp hvalue
    rw [((hfound found').2 hfold).1] at hvalue
    obtain rfl : found' = found := Option.some.inj hvalue
    exact ⟨_, ((hfound found').2 hfold).2⟩

/-- What is left to check of the parameters: those of some groups, after parameters of other names,
and none for the body if there was one. -/
structure ParamsLeft (d : HandlerDefinition) (carrier : Option String) (rest : List ParamDecl)
    (seen : ParamsSeen) : Prop where
  groups : ∃ keys, (∀ key ∈ keys, key ∈ wireKeys d.parameters) ∧ keys.Nodup ∧
    List.Forall₂ (d.SaysParam carrier) keys rest ∧ (0 < seen.bodies → ∀ key ∈ keys, key.1 = false)
  nodup : (rest.map (·.name.name)).Nodup
  fresh : ∀ p ∈ rest, p.name.name ∉ seen.names

theorem Valid.wireKey_eq (hd : d.Valid) {key' : Bool × String} (hkey : key ∈ wireKeys d.parameters)
    (hkey' : key' ∈ wireKeys d.parameters) (hbody : key.1 = true) (hbody' : key'.1 = true) :
    key = key' := by
  obtain ⟨target, htarget⟩ := hd.target_eq
  have hall : ∀ k ∈ wireKeys d.parameters, k.1 = true → k = (true, target) := by
    intro k hk hkbody
    obtain ⟨b, hb, rfl⟩ := mem_wireKeys.mp hk
    exact htarget b (List.mem_filter.mpr ⟨hb, hkbody⟩)
  rw [hall key hkey hbody, hall key' hkey' hbody']

/-- A carrier that is in scope has fields. -/
theorem SaysParam.fieldsOf?_isSome {p : ParamDecl} (hp : d.SaysParam carrier key p)
    (hbody : key.1 = true) {t : TypeRef} (ht : (s.resolve false p.type).value = some t) :
    (s.fieldsOf? t).isSome = true := by
  have htype := hp.type
  rw [SaysType, if_pos hbody] at htype
  obtain ⟨name, -, htype⟩ := htype
  obtain ⟨hadmits, rfl⟩ := TypeScope.resolve_value ht
  rw [htype] at hadmits ⊢
  rw [TypeScope.Admits] at hadmits
  simpa [TypeRef.qualify, TypeRef.qualifyAll, TypeScope.fieldsOf?] using hadmits.2.1

theorem SaysParam.checkParamType_finds {p : ParamDecl} (hp : d.SaysParam carrier key p)
    (hkey : key ∈ wireKeys d.parameters) {bodies : Nat} (hbodies : 0 < bodies → key.1 = false)
    {t : TypeRef} (ht : (s.resolve false p.type).value = some t) :
    (checkParamType s o (some (Route.placeholders d.route)) bodies p
      ⟨p.name.name, key.2, d.sourceOf key, t⟩).Finds Problem.FromDefinition := by
  have hroute : ¬(d.sourceOf key = .path ∧
      (some (Route.placeholders d.route)).any (!·.contains key.2) = true) := by
    rintro ⟨hpath, hmem⟩
    simp [mem_placeholders_of_path hpath] at hmem
  have hbody : d.sourceOf key = .body ∨ d.sourceOf key = .form → key.1 = true :=
    (bodySource_iff hkey).mp
  unfold checkParamType
  dsimp only
  rw [if_neg hroute]
  cases hsource : d.sourceOf key with
  | path => exact Finds.unless (fun _ => trivial) (finds_pure ())
  | query => exact Finds.unless (fun _ => trivial) (finds_pure ())
  | body =>
    have hbodyLike : key.1 = true := hbody (.inl hsource)
    refine Finds.unless (fun hpos => ?_) (Finds.unless (fun hform => ?_) (finds_pure ()))
    · simp [hbodies hpos] at hbodyLike
    · cases hform.1
  | form =>
    have hbodyLike : key.1 = true := hbody (.inr hsource)
    refine Finds.unless (fun hpos => ?_) (Finds.unless (fun hform => ?_) (finds_pure ()))
    · simp [hbodies hpos] at hbodyLike
    · simp [← Option.not_isSome, hp.fieldsOf?_isSome hbodyLike ht] at hform

/-- A parameter of a definition is at fault only where the definition is. It leaves the others as
they were to be checked: with names of their own and at most one of them for the body. -/
theorem checkParam_finds (hd : d.Valid) (hrefs : ∀ t ∈ d.types, s.references.Covers t)
    {p : ParamDecl} {rest : List ParamDecl} {seen : ParamsSeen}
    (h : d.ParamsLeft carrier (p :: rest) seen) :
    (checkParam s o (some (Route.placeholders d.route)) seen p).Finds Problem.FromDefinition ∧
      ∀ seen', (checkParam s o (some (Route.placeholders d.route)) seen p).value = some seen' →
        d.ParamsLeft carrier rest seen' := by
  obtain ⟨⟨keys, hkeys, hkeysNodup, hall, hbodies⟩, hnames, hfresh⟩ := h
  obtain ⟨key, keys, hp, hrest, rfl⟩ := List.forall₂_cons_right_iff.mp hall
  rw [List.forall_mem_cons] at hkeys hfresh
  rw [List.nodup_cons] at hkeysNodup
  rw [List.map_cons, List.nodup_cons] at hnames
  have hnew : ¬ seen.names.contains p.name.name = true := by simpa using hfresh.1
  have hcovers : s.references.Covers p.type.toTypeRef := covers_of_saysType hrefs hp.type
  have hleft : ∀ params bodies, (0 < bodies → ∀ key' ∈ keys, key'.1 = false) →
      d.ParamsLeft carrier rest ⟨p.name.name :: seen.names, params, bodies⟩ := by
    intro params bodies hbodies
    refine ⟨⟨keys, hkeys.2, hkeysNodup.2, hrest, hbodies⟩, hnames.2, fun q hq hmem => ?_⟩
    rcases List.mem_cons.mp hmem with he | hmem
    · exact hnames.1 (he ▸ List.mem_map_of_mem hq)
    · exact hfresh.2 q hq hmem
  unfold checkParam
  rw [if_neg hnew, hp.checkBinding]
  set image : Checked ParamImage := s.resolve false p.type >>= fun type =>
    Pure.pure ⟨p.name.name, key.2, d.sourceOf key, type⟩ with himage
  change Finds _ (image.attempt >>= _) ∧ ∀ seen', (image.attempt >>= _).value = some seen' → _
  have hfinds : image.Finds Problem.FromDefinition :=
    (TypeScope.resolve_finds p.type hcovers).bind fun _ _ => finds_pure _
  rw [attempt_bind_value]
  -- A parameter whose type is not resolved is passed over, and takes no body.
  cases hvalue : image.value with
  | none =>
    refine ⟨hfinds.attempt_bind (hvalue ▸ finds_pure _), ?_⟩
    rintro seen' ⟨⟩
    exact hleft _ _ fun hpos key' hkey' => hbodies hpos key' (List.mem_cons_of_mem _ hkey')
  | some i =>
    rw [himage, bind_value] at hvalue
    obtain ⟨t, ht, hi⟩ := Option.bind_eq_some_iff.mp hvalue
    obtain rfl := Option.some.inj hi
    have htype := hp.checkParamType_finds (o := o) hkeys.1
      (fun hpos => hbodies hpos key List.mem_cons_self) ht
    refine ⟨hfinds.attempt_bind ?_, fun seen' hseen' => ?_⟩
    · rw [himage, bind_value, ht]
      exact htype.bind fun _ _ => finds_pure _
    · rw [bind_value] at hseen'
      obtain ⟨_, -, hseen'⟩ := Option.bind_eq_some_iff.mp hseen'
      obtain rfl := Option.some.inj hseen'
      refine hleft _ _ fun hpos key' hkey' => ?_
      by_cases htakes : d.sourceOf key = .body ∨ d.sourceOf key = .form
      · have hbody : key.1 = true := (bodySource_iff hkeys.1).mp htakes
        by_contra hbody'
        have hsame := hd.wireKey_eq hkeys.1 (hkeys.2 key' hkey') hbody (Bool.of_not_eq_false hbody')
        exact hkeysNodup.1 (hsame ▸ hkey')
      · rw [if_neg htakes] at hpos
        exact hbodies hpos key' (List.mem_cons_of_mem _ hkey')

theorem SaysOp.checkParams_finds (ho : d.SaysOp carrier o) (hd : d.Valid)
    (hrefs : ∀ t ∈ d.types, s.references.Covers t) {route : HttpRoute}
    (hroute : route.route = d.route) :
    (checkParams s o (some route)).Finds Problem.FromDefinition := by
  have hstart : d.ParamsLeft carrier o.params ⟨[], [], 0⟩ := by
    refine ⟨⟨wireKeys d.parameters, fun _ hkey => hkey, wireKeys_nodup _, ho.params, ?_⟩,
      ho.paramNames, ?_⟩
    · exact fun hpos => absurd hpos (Nat.lt_irrefl 0)
    · exact fun _ _ hmem => List.not_mem_nil hmem
  have hplaceholders : (some route).map (fun r => Route.placeholders r.route) =
      some (Route.placeholders d.route) := by rw [Option.map_some, hroute]
  unfold checkParams
  refine Finds.unlessError ?_
  rw [hplaceholders]
  refine Finds.bind ?_ fun seen _ => ?_
  · exact Finds.foldlM (d.ParamsLeft carrier) (fun _ _ _ h => checkParam_finds hd hrefs h) hstart
  · refine Finds.bind (Finds.forM fun placeholder _ => ?_) fun _ _ => finds_pure _
    exact Finds.note_if fun _ => trivial

/-- Whether an answer comes later is said in two places, which agree. -/
theorem SaysOp.checkResult_finds (ho : d.SaysOp carrier o)
    (hrefs : ∀ t ∈ d.types, s.references.Covers t) :
    (checkResult s o).Finds Problem.FromDefinition := by
  have hcovers : s.references.Covers o.result.toTypeRef := ho.result ▸ hrefs _ (by simp [types])
  unfold checkResult
  refine (TypeScope.resolve_finds o.result hcovers).bind fun result hresult => ?_
  have hasync : result.isAsync = o.isAsync := by
    rw [(TypeScope.resolve_value hresult).2, TypeRef.qualify_isAsync, ho.result, ho.isAsync]
  rw [hasync]
  refine Finds.unless (fun h => ?_) (Finds.unless (fun h => ?_) (finds_pure _))
  · simp at h
  · simp at h

theorem checkValue_var_finds {vars : Vars} {x : Ident} (hx : x.name ∈ vars.map (·.1)) :
    (checkValue s vars (.var x)).Finds Problem.FromDefinition := by
  obtain ⟨v, hv⟩ := Option.isSome_iff_exists.mp (vars_find?_isSome_iff.mpr hx)
  rw [checkValue, hv]
  cases v with
  | none => exact finds_abandon
  | some v => exact finds_pure' v

theorem checkValue_field_finds {vars : Vars} {base : Expr} {name : Ident} {span : Span}
    (hbase : (checkValue s vars base).Finds Problem.FromDefinition) :
    (checkValue s vars (.field base name span)).Finds Problem.FromDefinition := by
  rw [checkValue]
  refine hbase.bind fun b _ => ?_
  split
  · exact finds_fail.mpr trivial
  · split
    · exact finds_fail.mpr trivial
    · exact finds_pure _

theorem checkInits_finds {vars : Vars} {type : TypeRef} {fields : List Field}
    {inits : List (Ident × Expr)} {done : List (String × ValueExpr)}
    (hvalues : ∀ init ∈ inits, (checkValue s vars init.2).Finds Problem.FromDefinition)
    (hnames : (inits.map (·.1.name)).Nodup)
    (hfresh : ∀ init ∈ inits, init.1.name ∉ done.map (·.1)) :
    (checkInits s vars type fields done inits).Finds Problem.FromDefinition := by
  induction inits generalizing done with
  | nil => exact finds_pure' done
  | cons init inits ih =>
    obtain ⟨name, e⟩ := init
    rw [List.map_cons, List.nodup_cons] at hnames
    rw [List.forall_mem_cons] at hvalues hfresh
    have hnew : ¬ done.any (·.1 == name.name) = true := by simpa using hfresh.1
    rw [checkInits, if_neg hnew]
    refine Finds.proceed ?_ ?_
    · split
      · exact finds_fail.mpr trivial
      · refine hvalues.1.bind fun v _ => ?_
        split
        · exact finds_pure _
        · exact finds_fail.mpr trivial
    · split
      · refine ih hvalues.2 hnames.2 fun init hinit hmem => ?_
        rw [List.map_append, List.mem_append] at hmem
        rcases hmem with hmem | hmem
        · exact hfresh.2 init hinit hmem
        · have he : init.1.name = name.name := by simpa using hmem
          exact hnames.1 (he ▸ List.mem_map_of_mem hinit)
      · exact ih hvalues.2 hnames.2 hfresh.2

/-- A property is set from a parameter, or from a field of one. -/
theorem SaysInit.checkValue_finds {params : List ((Bool × String) × ParamDecl)}
    {b : ParameterBinding} {init : Ident × Expr} (hinit : SaysInit params b init) {vars : Vars}
    (hvars : ∀ x ∈ params, x.2.name.name ∈ vars.map (·.1)) :
    (checkValue s vars init.2).Finds Problem.FromDefinition := by
  obtain ⟨p, x, hp, hx, hvalue⟩ := hinit.value
  have hvar : (checkValue s vars (.var x)).Finds Problem.FromDefinition :=
    checkValue_var_finds (hx ▸ hvars _ hp)
  split at hvalue
  · obtain ⟨y, span, hvalue, -⟩ := hvalue
    rw [hvalue]
    exact checkValue_field_finds hvar
  · rw [hvalue]
    exact hvar

theorem checkCallParts_finds {request response : TypeExpr} {vars : Vars} {y : Ident}
    (hrequest : s.references.Covers request.toTypeRef)
    (hresponse : s.references.Covers response.toTypeRef) (hy : y.name ∈ vars.map (·.1)) :
    (checkCallParts s vars request response (.var y)).Finds Problem.FromDefinition :=
  (TypeScope.resolve_finds request hrequest).both
    ((TypeScope.resolve_finds response hresponse).both (checkValue_var_finds hy))

/-- The bridge call of a definition is what an operation has to end with, so that only the types in
it can be at fault. -/
theorem checkReturn_finds {request response : TypeExpr} {vars : Vars} {y : Ident} {value : Expr}
    {result : Option TypeRef} (hcall : CallsBridge o.isAsync request response (.var y) value)
    (hrequest : s.references.Covers request.toTypeRef)
    (hresponse : s.references.Covers response.toTypeRef) (hy : y.name ∈ vars.map (·.1)) :
    (checkReturn s o result vars value).Finds Problem.FromDefinition := by
  have hparts := checkCallParts_finds (s := s) hrequest hresponse hy
  unfold checkReturn
  cases hcall with
  | sync hasync hname =>
    refine Finds.bind (finds_of_nil rfl) fun called hcalled => ?_
    obtain rfl := Option.some.inj hcalled
    simp only [bridgeFunction?_sync_iff.mpr hname]
    refine hparts.bind fun ⟨requestType, responseType, v⟩ _ => ?_
    simp only [hasync, Bool.false_eq_true, false_and, if_false, reduceCtorEq]
    split
    · exact finds_fail.mpr trivial
    · split
      · exact finds_fail.mpr trivial
      · exact finds_pure _
  | async hasync hname =>
    have hawait : ∀ e span, unwrapAwait o (.await e span) = Checked.pure (e, true) :=
      fun e span => by rw [unwrapAwait, if_pos hasync]
    rw [hawait]
    refine (finds_pure' _).bind fun called hcalled => ?_
    obtain rfl := Option.some.inj hcalled
    simp only [bridgeFunction?_async_iff.mpr hname]
    refine hparts.bind fun ⟨requestType, responseType, v⟩ _ => ?_
    simp only [Bool.not_true, Bool.false_eq_true, and_false, if_false, reduceCtorEq]
    split
    · exact finds_fail.mpr trivial
    · split
      · exact finds_fail.mpr trivial
      · exact finds_pure _

/-- The request is built under a name of its own, and handed on. -/
theorem SaysOp.checkStmts_finds (ho : d.SaysOp carrier o) (hd : d.Valid)
    (hrefs : ∀ t ∈ d.types, s.references.Covers t) (result : Option TypeRef)
    (params : Option (List ParamImage)) :
    (checkStmts s o result (paramVars o params) [] o.body).Finds Problem.FromDefinition := by
  obtain ⟨x, type, inits, span, span', value, span'', hbody, hx, htype, hinits, request, response, y,
    hcall, hrequest, hresponse, hy⟩ := ho.body
  have hnew : ¬ ((paramVars o params).find? x.name).isSome = true := by
    rw [vars_find?_isSome_iff, paramVars_names]
    exact hx
  have hrequestType : s.references.Covers d.request := hrefs _ (by simp [types])
  have hresponseType : s.references.Covers d.response.unwrapAsync :=
    ReferenceSet.covers_unwrapAsync.mpr (hrefs _ (by simp [types]))
  have hnames : (inits.map (·.1.name)).Nodup := by
    rw [map_eq_map_of_forall₂ (fun _ _ hinit => hinit.property) hinits]
    exact hd.sources_nodup
  have hvalues : ∀ init ∈ inits,
      (checkValue s (paramVars o params) init.2).Finds Problem.FromDefinition := by
    intro init hinit
    obtain ⟨b, -, hsays⟩ := exists_left_of_forall₂ hinits hinit
    refine hsays.checkValue_finds fun q hq => ?_
    rw [paramVars_names]
    exact List.mem_map_of_mem (List.of_mem_zip hq).2
  have hvalue : (checkValue s (paramVars o params) (.new type inits span)).Finds
      Problem.FromDefinition := by
    rw [checkValue]
    refine (TypeScope.resolve_finds type (htype ▸ hrequestType)).bind fun t _ => ?_
    split
    · exact finds_fail.mpr trivial
    · exact (checkInits_finds hvalues hnames fun _ _ => List.not_mem_nil).bind fun _ _ => finds_pure _
  -- Whether the request could be typed or not, its name is known to the call.
  have hreturn : ∀ v locals, (checkStmts s o result ((x.name, v) :: paramVars o params) locals
      [.result value span'']).Finds Problem.FromDefinition := by
    intro v locals
    refine (checkReturn_finds (ho.isAsync ▸ hcall) (hrequest ▸ hrequestType)
      (hresponse ▸ hresponseType) ?_).bind fun _ _ => finds_pure _
    rw [hy]
    exact List.mem_cons_self
  rw [hbody, checkStmts, if_neg hnew]
  refine hvalue.proceed ?_
  split
  · exact hreturn _ _
  · exact hreturn _ _

/-- The operation of a definition is at fault only where the definition is. -/
theorem SaysOp.checkOp_finds (ho : d.SaysOp carrier o) (hd : d.Valid)
    (hrefs : ∀ t ∈ d.types, s.references.Covers t) :
    (checkOp s o).Finds Problem.FromDefinition := by
  obtain ⟨hattributes, hroute⟩ := ho.checkAttributes_finds hd hrefs
  unfold checkOp
  refine hattributes.bind fun attrs hattrs => ?_
  obtain ⟨span, hroute⟩ := hroute attrs hattrs
  rw [hroute]
  refine (ho.checkParams_finds hd hrefs rfl).attempt_bind ?_
  refine (ho.checkResult_finds hrefs).attempt_bind ?_
  refine (ho.checkStmts_finds hd hrefs _ _).attempt_bind ?_
  split
  · exact finds_pure _
  · exact finds_abandon

end HandlerDefinition

end

end EndpointCompiler
