import EndpointCompiler.Proofs.Checking.Program

/-! More references make no difference to declarations in which no error is found. Whatever a check
looks up is still there, so it finds what it found before and comes to the same result. -/

namespace EndpointCompiler

open Source Checked

namespace Checked

section

variable {α β γ : Type} {x y : Checked α}

/-- Without an error in the one check the other is the same. -/
def KeptBy (x y : Checked α) : Prop :=
  x.Clean → y = x

theorem KeptBy.refl (x : Checked α) : x.KeptBy x :=
  fun _ => rfl

theorem keptBy_fail {p : Problem} {span : Span} (h : p.isError = true) :
    (Checked.fail p span).KeptBy y := by
  intro hc
  simp [h] at hc

theorem KeptBy.bind {f g : α → Checked β} (hx : x.KeptBy y)
    (hf : ∀ a, x.value = some a → (f a).KeptBy (g a)) : (x >>= f).KeptBy (y >>= g) := by
  intro hc
  rw [hx hc.of_bind]
  cases hv : x.value with
  | none => simp only [Bind.bind, Checked.bind, hv]
  | some a =>
    have hclean := (Clean.of_append (bind_findings_of_some hv f)).mp hc
    simp only [Bind.bind, Checked.bind, hv, hf a hv hclean.2]

theorem KeptBy.attempt (hx : x.KeptBy y) : x.attempt.KeptBy y.attempt :=
  fun hc => congrArg Checked.attempt (hx hc)

theorem KeptBy.unlessError (hx : x.KeptBy y) : x.unlessError.KeptBy y.unlessError :=
  fun hc => congrArg Checked.unlessError (hx hc)

theorem KeptBy.proceed {f g : Option α → Checked β} (hx : x.KeptBy y)
    (hf : (f x.value).KeptBy (g x.value)) : (x.proceed f).KeptBy (y.proceed g) := by
  intro hc
  have hclean : x.Clean ∧ (f x.value).Clean := (Clean.of_append rfl).mp hc
  rw [hx hclean.1]
  simp only [Checked.proceed, hf hclean.2]

theorem KeptBy.both {z w : Checked β} (hx : x.KeptBy y) (hz : z.KeptBy w) :
    (x.both z).KeptBy (y.both w) := by
  intro hc
  have hclean : x.Clean ∧ z.Clean := by
    simpa only [Clean, Checked.both, List.mem_append, or_imp, forall_and] using hc
  rw [hx hclean.1, hz hclean.2]

theorem KeptBy.foldlM {f g : β → γ → Checked β} (hf : ∀ b c, (f b c).KeptBy (g b c))
    (cs : List γ) (b : β) : (cs.foldlM f b).KeptBy (cs.foldlM g b) := by
  induction cs generalizing b with
  | nil => exact .refl _
  | cons c cs ih => exact (hf b c).bind fun b' _ => ih b'

/-- An error is noted under a condition that the other check does not meet either. -/
theorem KeptBy.unless {c c' : Prop} [Decidable c] [Decidable c'] {p : Problem} {span : Span}
    (hp : p.isError = true) (hc : ¬ c → ¬ c') (hx : x.KeptBy y) :
    (if c then (Checked.note p span >>= fun _ => x) else x).KeptBy
      (if c' then (Checked.note p span >>= fun _ => y) else y) := by
  by_cases h : c
  · rw [if_pos h]
    intro hclean
    have hnote := hclean.of_bind
    simp [hp] at hnote
  · rw [if_neg h, if_neg (hc h)]
    exact hx

end

end Checked

/-- All modules that one set of references has, the other has too, as they are. -/
def ReferenceSet.IncludedIn (r r' : ReferenceSet) : Prop :=
  ∀ id m, r.module? id = some m → r'.module? id = some m

theorem ReferenceSet.IncludedIn.lookup? {r r' : ReferenceSet} (h : r.IncludedIn r') {id : ModuleId}
    {name : String} {info : TypeInfo} (hi : r.lookup? id name = some info) :
    r'.lookup? id name = some info := by
  obtain ⟨m, hm, hinfo⟩ := Option.bind_eq_some_iff.mp hi
  rw [ReferenceSet.lookup?, h id m hm]
  exact hinfo

namespace TypeScope

/-- A scope with the same shapes and perhaps more references. -/
structure ExtendedBy (s s' : TypeScope) : Prop where
  module : s'.module = s.module
  shape? : ∀ name, s'.shape? name = s.shape? name
  references : s.references.IncludedIn s'.references

section

variable {s s' : TypeScope}

theorem ExtendedBy.resolveShape (h : s.ExtendedBy s') (name : String) (argCount : Nat)
    (span : Span) :
    s'.resolveShape name argCount span = s.resolveShape name argCount span := by
  simp only [TypeScope.resolveShape, h.shape?, h.module]

theorem ExtendedBy.resolveReferenced (h : s.ExtendedBy s') (m : ModuleId) (name : String)
    (argCount : Nat) (span : Span) :
    (s.resolveReferenced m name argCount span).KeptBy
      (s'.resolveReferenced m name argCount span) := by
  unfold TypeScope.resolveReferenced
  cases hm : s.references.module? m with
  | none => exact keptBy_fail rfl
  | some found =>
    rw [h.references m found hm]
    exact .refl _

mutual

theorem ExtendedBy.resolve (h : s.ExtendedBy s') (allowAsync : Bool) (t : TypeExpr) :
    (s.resolve allowAsync t).KeptBy (s'.resolve allowAsync t) := by
  match t with
  | .array element _ =>
    rw [TypeScope.resolve, TypeScope.resolve]
    exact (h.resolve false element).bind fun _ _ => .refl _
  | .path none name args span =>
    unfold TypeScope.resolve
    split
    · split
      · exact .refl _
      · split
        · rename_i arg
          exact (h.resolve false arg).bind fun _ _ => .refl _
        · exact .refl _
    · rw [h.resolveShape]
      exact .refl _
  | .path (some m) name args span =>
    rw [TypeScope.resolve, TypeScope.resolve, h.module]
    split
    · rw [h.resolveShape]
      exact .refl _
    · exact (h.resolveReferenced m name _ span).bind fun _ _ =>
        (h.resolveAll args).bind fun _ _ => .refl _

theorem ExtendedBy.resolveAll (h : s.ExtendedBy s') (ts : List TypeExpr) :
    (s.resolveAll ts).KeptBy (s'.resolveAll ts) := by
  match ts with
  | [] => exact .refl _
  | t :: ts =>
    rw [TypeScope.resolveAll, TypeScope.resolveAll]
    exact ((h.resolve false t).both (h.resolveAll ts)).bind fun _ _ => .refl _

end

theorem ExtendedBy.fieldsOf? (h : s.ExtendedBy s') {t : TypeRef} {fields : List Field}
    (hf : s.fieldsOf? t = some fields) :
    s'.fieldsOf? t = some fields := by
  unfold TypeScope.fieldsOf? at hf ⊢
  split at hf
  · rw [h.module]
    split at hf
    · rename_i hm
      rw [if_pos hm, h.shape?]
      exact hf
    · rename_i hm
      rw [if_neg hm]
      obtain ⟨info, hinfo, rfl⟩ := Option.map_eq_some_iff.mp hf
      rw [h.references.lookup? hinfo]
      rfl
  · cases hf

end

end TypeScope

section

variable {s s' : TypeScope}

mutual

/-- What an expression is checked to in a scope, it is in a scope that knows more. -/
theorem checkValue_keptBy (h : s.ExtendedBy s') (vars : Vars) (e : Expr) :
    (checkValue s vars e).KeptBy (checkValue s' vars e) := by
  match e with
  | .var name =>
    rw [checkValue, checkValue]
    exact .refl _
  | .field base name span =>
    rw [checkValue, checkValue]
    refine (checkValue_keptBy h vars base).bind fun b _ => ?_
    cases hf : s.fieldsOf? b.type with
    | none => exact keptBy_fail rfl
    | some fields =>
      rw [h.fieldsOf? hf]
      exact .refl _
  | .new type inits span =>
    rw [checkValue, checkValue]
    refine (h.resolve false type).bind fun t _ => ?_
    cases hf : s.fieldsOf? t with
    | none => exact keptBy_fail rfl
    | some fields =>
      rw [h.fieldsOf? hf]
      exact (checkInits_keptBy h vars t fields [] inits).bind fun _ _ => .refl _
  | .call function types args span =>
    rw [checkValue, checkValue]
    exact .refl _
  | .await inner span =>
    rw [checkValue, checkValue]
    exact .refl _

theorem checkInits_keptBy (h : s.ExtendedBy s') (vars : Vars) (type : TypeRef) (fields : List Field)
    (done : List (String × ValueExpr)) (inits : List (Ident × Expr)) :
    (checkInits s vars type fields done inits).KeptBy
      (checkInits s' vars type fields done inits) := by
  match inits with
  | [] =>
    rw [checkInits, checkInits]
    exact .refl _
  | (name, e) :: inits =>
    rw [checkInits, checkInits]
    refine KeptBy.proceed ?_ ?_
    · split
      · exact .refl _
      · split
        · exact .refl _
        · exact (checkValue_keptBy h vars e).bind fun _ _ => .refl _
    · split
      · exact checkInits_keptBy h vars type fields _ inits
      · exact checkInits_keptBy h vars type fields done inits

end

theorem checkReturn_keptBy (h : s.ExtendedBy s') (op : OpDecl) (result : Option TypeRef)
    (vars : Vars) (value : Expr) :
    (checkReturn s op result vars value).KeptBy (checkReturn s' op result vars value) := by
  rw [checkReturn, checkReturn]
  refine (KeptBy.refl _).bind ?_
  rintro ⟨called, awaited⟩ -
  cases called with
  | call function types args span =>
    dsimp only
    split
    · exact .refl _
    · split
      · rename_i request response arg
        have hparts : (checkCallParts s vars request response arg).KeptBy
            (checkCallParts s' vars request response arg) :=
          (h.resolve false request).both ((h.resolve false response).both
            (checkValue_keptBy h vars arg))
        exact hparts.bind fun _ _ => .refl _
      · exact .refl _
      · exact .refl _
  | var _ => exact .refl _
  | field _ _ _ => exact .refl _
  | new _ _ _ => exact .refl _
  | await _ _ => exact .refl _

theorem checkStmts_keptBy (h : s.ExtendedBy s') (op : OpDecl) (result : Option TypeRef)
    (vars : Vars) (locals : List ValueExpr) (body : List Stmt) :
    (checkStmts s op result vars locals body).KeptBy
      (checkStmts s' op result vars locals body) := by
  induction body generalizing vars locals with
  | nil => exact .refl _
  | cons stmt rest ih =>
    cases stmt with
    | bind name value span =>
      rw [checkStmts, checkStmts]
      split
      · exact (KeptBy.refl _).proceed (ih vars locals)
      · refine (checkValue_keptBy h vars value).proceed ?_
        split
        · exact ih _ _
        · exact ih _ _
    | result value span =>
      have hreturn := checkReturn_keptBy h op result vars value
      cases rest with
      | nil =>
        rw [checkStmts, checkStmts]
        exact hreturn.bind fun _ _ => .refl _
      | cons next more =>
        rw [checkStmts, checkStmts]
        exact hreturn.proceed (.refl _)

theorem checkAttribute_keptBy (h : s.ExtendedBy s') (seen : OpAttributes) (a : Attribute) :
    (checkAttribute s seen a).KeptBy (checkAttribute s' seen a) := by
  unfold checkAttribute
  split
  · exact .refl _
  · split
    · split
      · exact (h.resolve false _).attempt.bind fun _ _ => .refl _
      · exact .refl _
    · exact .refl _

theorem checkAttributes_keptBy (h : s.ExtendedBy s') (op : OpDecl) :
    (checkAttributes s op).KeptBy (checkAttributes s' op) :=
  (KeptBy.foldlM (checkAttribute_keptBy h) _ _).bind fun _ _ => .refl _

theorem checkParamType_keptBy (h : s.ExtendedBy s') (op : OpDecl)
    (placeholders : Option (List String)) (bodies : Nat) (p : ParamDecl) (image : ParamImage) :
    (checkParamType s op placeholders bodies p image).KeptBy
      (checkParamType s' op placeholders bodies p image) := by
  have hform : ¬ (image.source = .form ∧ (s.fieldsOf? image.type).isNone) →
      ¬ (image.source = .form ∧ (s'.fieldsOf? image.type).isNone) := by
    rintro hnot ⟨hsource, hnone⟩
    refine hnot ⟨hsource, ?_⟩
    cases hf : s.fieldsOf? image.type with
    | none => rfl
    | some fields => simp [h.fieldsOf? hf] at hnone
  unfold checkParamType
  cases hs : image.source with
  | path | query => exact .refl _
  | body | form => exact .unless rfl id (.unless rfl (hs ▸ hform) (.refl _))

theorem checkImage_keptBy (h : s.ExtendedBy s') (p : ParamDecl) :
    (checkImage s p).KeptBy (checkImage s' p) :=
  (KeptBy.refl _).bind fun _ _ => (h.resolve false p.type).bind fun _ _ => .refl _

theorem checkParam_keptBy (h : s.ExtendedBy s') (op : OpDecl)
    (placeholders : Option (List String)) (seen : ParamsSeen) (p : ParamDecl) :
    (checkParam s op placeholders seen p).KeptBy (checkParam s' op placeholders seen p) := by
  unfold checkParam
  split
  · exact .refl _
  · refine (checkImage_keptBy h p).attempt.bind fun o _ => ?_
    cases o with
    | none => exact .refl _
    | some image => exact (checkParamType_keptBy h op _ _ p image).bind fun _ _ => .refl _

theorem checkParams_keptBy (h : s.ExtendedBy s') (op : OpDecl) (route : Option HttpRoute) :
    (checkParams s op route).KeptBy (checkParams s' op route) :=
  ((KeptBy.foldlM (checkParam_keptBy h op _) _ _).bind fun _ _ => .refl _).unlessError

theorem checkResult_keptBy (h : s.ExtendedBy s') (op : OpDecl) :
    (checkResult s op).KeptBy (checkResult s' op) :=
  (h.resolve true op.result).bind fun _ _ => .refl _

theorem checkOp_keptBy (h : s.ExtendedBy s') (op : OpDecl) :
    (checkOp s op).KeptBy (checkOp s' op) :=
  (checkAttributes_keptBy h op).bind fun attrs _ =>
    (checkParams_keptBy h op attrs.route).attempt.bind fun _ _ =>
      (checkResult_keptBy h op).attempt.bind fun _ _ =>
        (checkStmts_keptBy h op _ _ _ _).attempt.bind fun _ _ => .refl _

theorem checkField_keptBy (h : s.ExtendedBy s') (shape : String) (done : List Field)
    (d : FieldDecl) :
    (checkField s shape done d).KeptBy (checkField s' shape done d) := by
  unfold checkField
  split
  · exact .refl _
  · exact (h.resolve false d.type).attempt.bind fun _ _ => .refl _

theorem checkShape_keptBy (h : s.ExtendedBy s') (d : ShapeDecl) :
    (checkShape s d).KeptBy (checkShape s' d) :=
  (KeptBy.refl _).bind fun _ _ => .foldlM (checkField_keptBy h _) _ _

theorem checkOps_keptBy (h : s.ExtendedBy s') {seen : List String}
    {ops : List (SourceUnit × OpDecl)}
    (hc : ∀ d ∈ (checkOps s seen ops).2, d.isError = false) :
    checkOps s' seen ops = checkOps s seen ops := by
  have hclean := (checkOps_clean_iff.mp hc).2.2
  clear hc
  induction ops generalizing seen with
  | nil => rfl
  | cons d ops ih =>
    obtain ⟨u, op⟩ := d
    rw [List.forall_mem_cons] at hclean
    simp only [checkOps, ih hclean.2, checkOp_keptBy h op hclean.1]

end

end EndpointCompiler
