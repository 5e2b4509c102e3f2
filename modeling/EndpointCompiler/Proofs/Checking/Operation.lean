import EndpointCompiler.Checking.Program
import EndpointCompiler.Proofs.Checking.Body
import EndpointCompiler.Proofs.Checking.Signature

/-! What the checker makes of a whole operation: all its parts are accepted, or an error is found in
one of them. -/

namespace EndpointCompiler

open Source Checked

section

variable {s : TypeScope} {op : OpDecl}

/-- Takes in one attribute: a first route, an answer type, or one without effect. -/
theorem checkAttribute_yields_iff {seen seen' : OpAttributes} {a : Attribute} :
    (checkAttribute s seen a).Yields seen' ↔
      if a.name.name = "http" then seen.routeSeen = false ∧
        ∃ r, (checkHttp a).Yields r ∧ seen' = ⟨true, some r, seen.produces⟩
      else if a.name.name = "produces" then
        ∃ t u, a.args = [.type t] ∧ (s.resolve false t).Yields u ∧
          seen' = ⟨seen.routeSeen, seen.route, some u⟩
      else seen' = seen := by
  unfold checkAttribute
  split
  · split
    · rename_i h
      simp [h, yields_bind, Problem.isError, Problem.severity]
    · rename_i h
      simp only [yields_bind, (checkHttp_loud a).yields_attempt, yields_pure]
      rw [Bool.not_eq_true] at h
      simp only [h, true_and]
      constructor
      · rintro ⟨_, ⟨r, hr, rfl⟩, rfl⟩
        exact ⟨r, hr, rfl⟩
      · rintro ⟨r, hr, rfl⟩
        exact ⟨_, ⟨r, hr, rfl⟩, rfl⟩
  · split
    · split
      · rename_i t ht
        simp only [yields_bind, (s.resolve_loud false t).yields_attempt, yields_pure]
        constructor
        · rintro ⟨_, ⟨u, hu, rfl⟩, rfl⟩
          exact ⟨t, u, ht, hu, rfl⟩
        · rintro ⟨t', u, ht', hu, rfl⟩
          cases ht.symm.trans ht'
          exact ⟨_, ⟨u, hu, rfl⟩, rfl⟩
      · rename_i h
        simp only [yields_bind, yields_note, Problem.isError, Problem.severity]
        constructor
        -- A note of an error yields nothing, so the attribute cannot have been taken in.
        · rintro ⟨_, h', -⟩
          simp at h'
        · rintro ⟨t, _, ht, -⟩
          exact absurd ht (h t)
    · simp only [yields_bind, yields_note, yields_pure]
      constructor
      · rintro ⟨_, -, rfl⟩
        rfl
      · rintro rfl
        exact ⟨(), rfl, rfl⟩

theorem checkAttribute_loud (seen : OpAttributes) (a : Attribute) :
    (checkAttribute s seen a).Loud := by
  unfold checkAttribute
  split
  · split
    · exact (loud_note _ _).bind fun _ _ => loud_pure _
    · exact Loud.attempt.bind fun _ _ => loud_pure _
  · split
    · split
      · exact Loud.attempt.bind fun _ _ => loud_pure _
      · exact (loud_note _ _).bind fun _ _ => loud_pure _
    · exact (loud_note _ _).bind fun _ _ => loud_pure _

/-- A route attribute that was seen and accepted left its route. -/
theorem foldlM_checkAttribute_route {attrs : List Attribute} {seen found : OpAttributes}
    (h : (attrs.foldlM (checkAttribute s) seen).Yields found)
    (hs : seen.routeSeen = seen.route.isSome) : found.routeSeen = found.route.isSome := by
  induction attrs generalizing seen with
  | nil =>
    cases yields_pure.mp h
    exact hs
  | cons a attrs ih =>
    obtain ⟨seen', ha, hr⟩ := yields_foldlM_cons.mp h
    refine ih hr ?_
    rw [checkAttribute_yields_iff] at ha
    split at ha
    · obtain ⟨-, r, -, rfl⟩ := ha
      rfl
    · split at ha
      · obtain ⟨t, u, -, -, rfl⟩ := ha
        exact hs
      · exact ha ▸ hs

theorem checkAttributes_yields_iff {found : OpAttributes} :
    (checkAttributes s op).Yields found ↔
      (op.attributes.foldlM (checkAttribute s) ⟨false, none, none⟩).Yields found ∧
        ∃ r, found.route = some r := by
  rw [checkAttributes, yields_bind]
  constructor
  · rintro ⟨found', hf, h⟩
    obtain ⟨hseen, h⟩ := (yields_unless (p := .missingRoute _) rfl).mp h
    cases yields_pure.mp h
    refine ⟨hf, Option.isSome_iff_exists.mp ?_⟩
    rw [← foldlM_checkAttribute_route hf rfl]
    simpa using hseen
  · rintro ⟨hf, hr⟩
    refine ⟨found, hf, (yields_unless (p := .missingRoute _) rfl).mpr ⟨?_, yields_pure.mpr rfl⟩⟩
    simp [foldlM_checkAttribute_route hf rfl, Option.isSome_iff_exists.mpr hr]

theorem checkAttributes_loud : (checkAttributes s op).Loud :=
  (Loud.foldlM checkAttribute_loud _ _).bind fun _ _ => .unless (loud_pure _)

/-- An operation is asynchronous if and only if its result is. -/
theorem checkResult_yields_iff {r : TypeRef} :
    (checkResult s op).Yields r ↔
      (s.resolve true op.result).Yields r ∧ op.isAsync = r.isAsync := by
  rw [checkResult, yields_bind]
  simp only [yields_unless (p := .asyncReturnsPlain _) rfl,
    yields_unless (p := .plainReturnsAsync ..) rfl, yields_pure]
  constructor
  · rintro ⟨r', hr, h, h', rfl⟩
    refine ⟨hr, ?_⟩
    cases ho : op.isAsync <;> cases hi : r'.isAsync <;> simp_all
  · rintro ⟨hr, h⟩
    exact ⟨r, hr, by simp [h], by simp [h], rfl⟩

theorem checkResult_loud : (checkResult s op).Loud :=
  (s.resolve_loud true op.result).bind fun _ _ => .unless (.unless (loud_pure _))

/-- An operation is accepted if its attributes, its parameters, its result and its body are. -/
theorem checkOp_yields_iff {image : OperationImage} :
    (checkOp s op).Yields image ↔ ∃ attrs route params result locals call,
      (checkAttributes s op).Yields attrs ∧ attrs.route = some route ∧
      (checkParams s op (some route)).Yields params ∧ (checkResult s op).Yields result ∧
      (checkStmts s op (some result.unwrapAsync) (paramVars op (some params)) [] op.body).Yields
        (locals, call) ∧
      image = ⟨op.name.name, route.method.token, route.route, attrs.produces, params, locals,
        call⟩ := by
  rw [checkOp]
  simp only [yields_bind, (checkParams_loud _).yields_attempt, checkResult_loud.yields_attempt]
  constructor
  · rintro ⟨attrs, ha, _, ⟨params, hp, rfl⟩, _, ⟨result, hr, rfl⟩, body, hb, h⟩
    split at h
    · rename_i route params' locals call hroute hparams
      cases hparams
      rw [hroute] at hp
      exact ⟨attrs, route, params, result, locals, call, ha, hroute, hp, hr,
        yields_attempt_some.mp hb, (yields_pure.mp h).symm⟩
    · simp at h
  · rintro ⟨attrs, route, params, result, locals, call, ha, hroute, hp, hr, hb, rfl⟩
    refine ⟨attrs, ha, _, ⟨params, hroute ▸ hp, rfl⟩, _, ⟨result, hr, rfl⟩, _,
      yields_attempt_some.mpr hb, ?_⟩
    rw [hroute]
    exact yields_pure.mpr rfl

end

section

variable {s : TypeScope} {op : OpDecl} {result : Option TypeRef} {vars : Vars}

/-- A result that is not accepted is reported, whichever of its conditions fails. -/
theorem checkReturn_loud (hv : VarsComplete vars) (value : Expr) :
    (checkReturn s op result vars value).Loud := by
  rw [checkReturn]
  refine Loud.bind ?_ ?_
  · unfold unwrapAwait
    split
    · split
      · exact loud_pure' _
      · exact loud_fail rfl
    · exact loud_pure' _
  · rintro ⟨called, awaited⟩ -
    cases called with
    | call function types args span =>
      dsimp only
      split
      · exact loud_fail rfl
      · split
        · refine Loud.bind (.both (s.resolve_loud _ _) (.both (s.resolve_loud _ _)
            (checkValue_loud hv _))) ?_
          rintro ⟨r, r', v⟩ -
          dsimp only
          split
          · exact loud_fail rfl
          split
          · exact loud_fail rfl
          split
          · exact loud_fail rfl
          split
          · exact loud_fail rfl
          split
          · exact loud_fail rfl
          · exact loud_pure _
        · exact loud_fail rfl
        · exact loud_fail rfl
    | var _ => exact loud_fail rfl
    | field _ _ _ => exact loud_fail rfl
    | new _ _ _ => exact loud_fail rfl
    | await _ _ => exact loud_fail rfl

theorem VarsComplete.cons (hv : VarsComplete vars) (name : String) (v : TypedValue) :
    VarsComplete ((name, some v) :: vars) := by
  intro n
  rw [Vars.find?_cons]
  split
  · simp
  · exact hv n

theorem checkStmts_loud (hv : VarsComplete vars) (body : List Stmt) (locals : List ValueExpr) :
    (checkStmts s op result vars locals body).Loud := by
  induction body generalizing vars locals with
  | nil => exact loud_fail rfl
  | cons stmt rest ih =>
    cases stmt with
    | bind name value span =>
      rw [checkStmts]
      split
      · exact (loud_fail rfl).proceed fun _ h => absurd h (not_yields_fail _ _ _)
      · exact (checkValue_loud hv value).proceed fun v _ => ih (hv.cons _ _) _
    | result value span =>
      cases rest with
      | nil => exact (checkReturn_loud hv value).bind fun _ _ => loud_pure _
      | cons next more => exact (checkReturn_loud hv value).proceed fun _ _ => loud_fail rfl

end

section

variable {s : TypeScope} {op : OpDecl} {images : List ParamImage}

theorem vars_find?_isSome_iff {vars : Vars} {name : String} :
    (vars.find? name).isSome = true ↔ name ∈ vars.map (·.1) := by
  rw [Vars.find?, Option.isSome_map, List.find?_isSome, List.mem_map]
  simp

theorem paramVars_names (op : OpDecl) (images : Option (List ParamImage)) :
    (paramVars op images).map (·.1) = op.params.map (·.name.name) := by
  have hnames : (paramVars op images).map (·.1) =
      (op.params.zipIdx.map Prod.fst).map (·.name.name) := by
    rw [paramVars, List.map_map, List.map_map]
    rfl
  rw [hnames, List.zipIdx_map_fst]

theorem paramVars_find? {name : String} {o : Option TypedValue}
    (h : (paramVars op (some images)).find? name = some o) :
    ∃ i p, op.params[i]? = some p ∧ p.name.name = name ∧
      o = images[i]?.map fun image => ⟨.param i, image.type⟩ := by
  rw [Vars.find?, Option.map_eq_some_iff] at h
  obtain ⟨⟨n, o'⟩, hf, rfl⟩ := h
  have hn := List.find?_some hf
  have hm := List.mem_of_find?_eq_some hf
  simp only [paramVars, List.mem_map, Prod.mk.injEq] at hm
  obtain ⟨⟨p, i⟩, hp, hname, ho⟩ := hm
  refine ⟨i, p, List.mem_zipIdx_iff_getElem?.mp hp, ?_, ho.symm⟩
  simpa [← hname] using hn

/-- With different names each parameter is found under its own. -/
theorem paramVars_find?_of_nodup (hn : (op.params.map (·.name.name)).Nodup) {i : Nat}
    {p : ParamDecl} (hp : op.params[i]? = some p) :
    (paramVars op (some images)).find? p.name.name =
      some (images[i]?.map fun image => ⟨.param i, image.type⟩) := by
  have hm : p ∈ op.params := List.mem_of_getElem? hp
  cases hf : (paramVars op (some images)).find? p.name.name with
  | none =>
    simp only [Vars.find?, Option.map_eq_none_iff, List.find?_eq_none, paramVars, List.mem_map,
      forall_exists_index, and_imp] at hf
    have := hf _ (p, i) (List.mem_zipIdx_iff_getElem?.mpr hp) rfl
    simp at this
  | some o =>
    obtain ⟨j, q, hq, hname, rfl⟩ := paramVars_find? hf
    have hij : j = i := by
      have hj : j < (op.params.map (·.name.name)).length := by
        simpa using (List.getElem?_eq_some_iff.mp hq).1
      exact (List.getElem?_inj hj hn).mp (by simp [List.getElem?_map, hq, hp, hname])
    rw [hij]

theorem paramVars_varsTyped : VarsTyped s (images.map (·.type)) [] (paramVars op (some images)) := by
  intro name v hv
  obtain ⟨i, p, -, -, ho⟩ := paramVars_find? hv
  obtain ⟨image, hi, rfl⟩ := Option.map_eq_some_iff.mp ho.symm
  exact .param (by simp [List.getElem?_map, hi])

theorem paramVars_complete (hl : op.params.length = images.length) :
    VarsComplete (paramVars op (some images)) := by
  intro name h
  obtain ⟨i, p, hp, -, ho⟩ := paramVars_find? h
  have hi : i < images.length := hl ▸ (List.getElem?_eq_some_iff.mp hp).1
  simp [List.getElem?_eq_getElem hi] at ho

/-- An operation is dropped only with an error. -/
theorem checkOp_loud : (checkOp s op).Loud := by
  rw [checkOp]
  refine checkAttributes_loud.bind fun attrs ha => ?_
  obtain ⟨route, hroute⟩ := (checkAttributes_yields_iff.mp ha).2
  refine Loud.attempt.bind fun o ho => ?_
  obtain ⟨params, hp, rfl⟩ := (checkParams_loud _).yields_attempt.mp ho
  have hlength := (checkParams_yields_iff.mp hp).1.each.length_eq
  refine Loud.attempt.bind fun o _ => Loud.attempt.bind fun o' ho' => ?_
  obtain ⟨⟨locals, call⟩, -, rfl⟩ :=
    (checkStmts_loud (paramVars_complete hlength) _ _).yields_attempt.mp ho'
  rw [hroute]
  exact loud_pure _

end

end EndpointCompiler
