import EndpointCompiler.Checking.Signature
import EndpointCompiler.Proofs.Checking.Types
import EndpointCompiler.Proofs.Matching

/-! What the checker makes of the attributes and the parameters of an operation. An accepted list of
parameters has one image for each declaration, in order, each suited to its source. -/

namespace EndpointCompiler

open Source Checked

section

variable {s : TypeScope} {op : OpDecl}

theorem Checked.yields_forM {α : Type} {f : α → Checked Unit} {as : List α} :
    (as.forM f).Yields () ↔ ∀ a ∈ as, (f a).Yields () := by
  induction as with
  | nil => exact ⟨fun _ _ h => absurd h List.not_mem_nil, fun _ => yields_pure.mpr rfl⟩
  | cons a as ih =>
    have hc : (a :: as).forM f = f a >>= fun _ => as.forM f := rfl
    rw [hc, yields_bind, List.forall_mem_cons, ih]
    exact ⟨fun ⟨_, h⟩ => h, fun h => ⟨(), h⟩⟩

theorem Checked.Loud.forM {α : Type} {f : α → Checked Unit} (hf : ∀ a, (f a).Loud)
    (as : List α) : (as.forM f).Loud := by
  induction as with
  | nil => exact loud_pure ()
  | cons a as ih => exact (hf a).bind fun _ _ => ih

theorem Checked.yields_unless {α : Type} {c : Prop} [Decidable c] {p : Problem} {span : Span}
    {k : Checked α} {a : α} (hp : p.isError = true) :
    (if c then (Checked.note p span >>= fun _ => k) else k).Yields a ↔ ¬ c ∧ k.Yields a := by
  by_cases h : c <;> simp [h, hp, yields_bind]

theorem Checked.Loud.unless {α : Type} {c : Prop} [Decidable c] {p : Problem} {span : Span}
    {k : Checked α} (hk : k.Loud) :
    (if c then (Checked.note p span >>= fun _ => k) else k).Loud := by
  split
  · exact (loud_note _ _).bind fun _ _ => hk
  · exact hk

theorem Checked.yields_note_if {c : Prop} [Decidable c] {p : Problem} {span : Span}
    (hp : p.isError = true) :
    (if c then Checked.note p span else Pure.pure ()).Yields () ↔ ¬ c := by
  by_cases h : c <;> simp [h, hp]

theorem Checked.Loud.note_if {c : Prop} [Decidable c] {p : Problem} {span : Span} :
    (if c then Checked.note p span else Pure.pure ()).Loud := by
  split
  · exact loud_note _ _
  · exact loud_pure _

/-- A route attribute that is accepted names a supported method and a route with a slash. -/
theorem checkHttp_yields_iff {a : Attribute} {r : HttpRoute} :
    (checkHttp a).Yields r ↔
      ∃ span routeSpan,
        a.args = [.type (.path none r.method.token [] span), .text r.route routeSpan] ∧
        r.method ∈ Method.supported ∧ r.route.toList.head? = some '/' ∧ r.span = a.span := by
  constructor
  · intro h
    unfold checkHttp at h
    split at h
    · rename_i verb route routeSpan hargs
      split at h
      · rename_i name args span
        split at h
        · exact absurd h (not_yields_fail _ _ _)
        · rename_i hverb
          split at h
          · exact absurd h (not_yields_fail _ _ _)
          · rename_i hslash
            obtain ⟨rfl, hsupported⟩ : args = [] ∧ (⟨name⟩ : Method) ∈ Method.supported := by
              simpa using hverb
            obtain rfl := yields_pure'.mp h
            exact ⟨span, routeSpan, hargs, hsupported, Decidable.not_not.mp hslash, rfl⟩
      · exact absurd h (not_yields_fail _ _ _)
    · exact absurd h (not_yields_fail _ _ _)
  · rintro ⟨span, routeSpan, hargs, hsupported, hslash, hspan⟩
    unfold checkHttp
    rw [hargs]
    dsimp only
    rw [if_neg (by simpa using hsupported), if_neg (by simpa using hslash), yields_pure', ← hspan]

theorem checkHttp_loud (a : Attribute) : (checkHttp a).Loud := by
  unfold checkHttp
  split
  · split
    · split
      · exact loud_fail rfl
      · split
        · exact loud_fail rfl
        · exact loud_pure' _
    · exact loud_fail rfl
  · exact loud_fail rfl

theorem ParamSource.ofKeyword?_eq_some_iff {word : String} {source : ParamSource} :
    ParamSource.ofKeyword? word = some source ↔ source.keyword = word := by
  constructor
  · intro h
    simpa using List.find?_some h
  · rintro rfl
    cases source <;> decide

theorem bindingAttributes_loud (attrs : List Attribute) : (bindingAttributes attrs).Loud := by
  induction attrs with
  | nil => exact loud_pure' _
  | cons a attrs ih =>
    rw [bindingAttributes]
    split
    · exact ih.bind fun _ _ => loud_pure _
    · exact (loud_note _ _).bind fun _ _ => ih

theorem checkBinding_loud (p : ParamDecl) : (checkBinding p).Loud := by
  rw [checkBinding]
  refine (bindingAttributes_loud _).bind fun found _ => ?_
  split
  · split
    · exact loud_pure _
    · exact loud_pure _
    · exact loud_fail rfl
  · exact loud_fail rfl

/-- The image of one parameter: its name, where it comes from, and its type. -/
structure ParamOf (s : TypeScope) (p : ParamDecl) (image : ParamImage) : Prop where
  name : image.name = p.name.name
  binding : (checkBinding p).Yields (image.source, image.wireName)
  type : (s.resolve false p.type).Yields image.type

/-- Parameters of the path and the query are primitive, those of the path are placeholders of the
route, and at most one parameter takes the body, by fields if it is a form. -/
structure ParamSuits (s : TypeScope) (placeholders : Option (List String)) (bodies : Nat)
    (image : ParamImage) : Prop where
  primitive : image.source = .path ∨ image.source = .query → isWireScalar image.type = true
  body : image.source = .body ∨ image.source = .form → bodies = 0
  form : image.source = .form → (s.fieldsOf? image.type).isSome
  path : image.source = .path → ∀ names, placeholders = some names → image.wireName ∈ names

theorem paramSuits_iff {placeholders : Option (List String)} {bodies : Nat} {image : ParamImage} :
    ParamSuits s placeholders bodies image ↔
      (image.source = .path ∨ image.source = .query → isWireScalar image.type = true) ∧
      (image.source = .body ∨ image.source = .form → bodies = 0) ∧
      (image.source = .form → (s.fieldsOf? image.type).isSome) ∧
      (image.source = .path → ∀ names, placeholders = some names → image.wireName ∈ names) :=
  ⟨fun h => ⟨h.primitive, h.body, h.form, h.path⟩, fun ⟨h, h', h'', h'''⟩ => ⟨h, h', h'', h'''⟩⟩

theorem checkParamType_yields_iff {placeholders : Option (List String)} {bodies : Nat}
    {p : ParamDecl} {image : ParamImage} :
    (checkParamType s op placeholders bodies p image).Yields () ↔
      ParamSuits s placeholders bodies image := by
  have hpath : placeholders.any (!·.contains image.wireName) = true ↔
      ¬ ∀ names, placeholders = some names → image.wireName ∈ names := by
    cases placeholders <;> simp
  unfold checkParamType
  have hshape : (s.fieldsOf? image.type).isNone = true ↔ ¬ (s.fieldsOf? image.type).isSome := by
    cases s.fieldsOf? image.type <;> simp
  rw [paramSuits_iff]
  cases hs : image.source with
  | path | query =>
    simp only [yields_unless (p := .notPrimitive ..) rfl,
      yields_note_if (p := .paramNotInRoute _) rfl, hpath]
    simp
  | body | form =>
    simp only [yields_unless (p := .secondBody _) rfl, yields_unless (p := .formNotShape ..) rfl,
      yields_note_if (p := .paramNotInRoute _) rfl, hshape]
    simp [Option.isSome_iff_ne_none]

theorem checkParamType_loud {placeholders : Option (List String)} {bodies : Nat}
    {p : ParamDecl} {image : ParamImage} :
    (checkParamType s op placeholders bodies p image).Loud := by
  unfold checkParamType
  cases image.source
  · exact .unless .note_if
  · exact .unless .note_if
  · exact .unless (.unless .note_if)
  · exact .unless (.unless .note_if)

/-- The check of a parameter by itself. -/
def checkImage (s : TypeScope) (p : ParamDecl) : Checked ParamImage := do
  let (source, wireName) ← checkBinding p
  let type ← s.resolve false p.type
  return ⟨p.name.name, wireName, source, type⟩

theorem checkImage_yields_iff {p : ParamDecl} {image : ParamImage} :
    (checkImage s p).Yields image ↔ ParamOf s p image := by
  simp only [checkImage, yields_bind, yields_pure]
  constructor
  · rintro ⟨⟨source, wireName⟩, hb, t, ht, rfl⟩
    exact ⟨rfl, hb, ht⟩
  · rintro ⟨hname, hb, ht⟩
    exact ⟨_, hb, _, ht, by rw [← hname]⟩

theorem checkImage_loud (p : ParamDecl) : (checkImage s p).Loud :=
  (checkBinding_loud p).bind fun _ _ => (s.resolve_loud false p.type).bind fun _ _ => loud_pure _

theorem checkParam_eq (placeholders : Option (List String)) (seen : ParamsSeen) (p : ParamDecl) :
    checkParam s op placeholders seen p =
      if seen.names.contains p.name.name then do
        Checked.note (.duplicateParam p.name.name) p.name.span
        return seen
      else do
        let seen := { seen with names := p.name.name :: seen.names }
        match ← (checkImage s p).attempt with
        | none => return seen
        | some image =>
          checkParamType s op placeholders seen.bodies p image
          let takesBody := image.source = .body ∨ image.source = .form
          return { seen with
            params := seen.params ++ [image]
            bodies := if takesBody then seen.bodies + 1 else seen.bodies } := rfl

/-- A parameter is taken in under a new name, with an image that suits its source. -/
theorem checkParam_yields_iff {placeholders : Option (List String)} {seen seen' : ParamsSeen}
    {p : ParamDecl} :
    (checkParam s op placeholders seen p).Yields seen' ↔
      p.name.name ∉ seen.names ∧ ∃ image, ParamOf s p image ∧
        ParamSuits s placeholders seen.bodies image ∧
        seen' = ⟨p.name.name :: seen.names, seen.params ++ [image],
          if image.source = .body ∨ image.source = .form then seen.bodies + 1
          else seen.bodies⟩ := by
  rw [checkParam_eq]
  by_cases hn : p.name.name ∈ seen.names
  · simp [hn, yields_bind, Problem.isError, Problem.severity]
  · have hn' : ¬ seen.names.contains p.name.name = true := by simpa using hn
    rw [if_neg hn']
    simp only [hn, not_false_iff, true_and]
    simp only [yields_bind, (checkImage_loud p).yields_attempt, checkImage_yields_iff]
    constructor
    · rintro ⟨_, ⟨image, himage, rfl⟩, h⟩
      obtain ⟨_, hsuits, hseen⟩ := yields_bind.mp h
      exact ⟨image, himage, checkParamType_yields_iff.mp hsuits, (yields_pure.mp hseen).symm⟩
    · rintro ⟨image, himage, hsuits, rfl⟩
      exact ⟨_, ⟨image, himage, rfl⟩, yields_bind.mpr
        ⟨(), checkParamType_yields_iff.mpr hsuits, yields_pure.mpr rfl⟩⟩

theorem checkParam_loud (placeholders : Option (List String)) (seen : ParamsSeen)
    (p : ParamDecl) : (checkParam s op placeholders seen p).Loud := by
  unfold checkParam
  split
  · exact (loud_note _ _).bind fun _ _ => loud_pure _
  · refine Loud.attempt.bind fun o _ => ?_
    split
    · exact loud_pure _
    · exact checkParamType_loud.bind fun _ _ => loud_pure _

/-- How many parameters take the body. -/
def bodyCount (images : List ParamImage) : Nat :=
  images.countP fun image => image.source == .body || image.source == .form

/-- Parameters that are accepted have new and different names, an image each, and the sources that
suit them. -/
structure ParamsOf (s : TypeScope) (placeholders : Option (List String)) (ps : List ParamDecl)
    (images : List ParamImage) : Prop where
  each : List.Forall₂ (ParamOf s) ps images
  names : (ps.map (·.name.name)).Nodup
  suits : ∀ image ∈ images, ParamSuits s placeholders 0 image
  body : bodyCount images ≤ 1

theorem bodyCount_cons (image : ParamImage) (images : List ParamImage) :
    bodyCount (image :: images) =
      bodyCount images + if image.source = .body ∨ image.source = .form then 1 else 0 := by
  simp [bodyCount, List.countP_cons]

theorem ParamSuits.of_zero {placeholders : Option (List String)} {image : ParamImage}
    (h : ParamSuits s placeholders 0 image) {bodies : Nat}
    (hb : image.source = .body ∨ image.source = .form → bodies = 0) :
    ParamSuits s placeholders bodies image :=
  { h with body := hb }

theorem ParamSuits.zero {placeholders : Option (List String)} {image : ParamImage} {bodies : Nat}
    (h : ParamSuits s placeholders bodies image) : ParamSuits s placeholders 0 image :=
  { h with body := fun _ => rfl }

theorem foldlM_checkParam_yields_iff {placeholders : Option (List String)} {ps : List ParamDecl}
    {seen seen' : ParamsSeen} :
    (ps.foldlM (checkParam s op placeholders) seen).Yields seen' ↔ ∃ images,
      List.Forall₂ (ParamOf s) ps images ∧ (ps.map (·.name.name)).Nodup ∧
      (∀ p ∈ ps, p.name.name ∉ seen.names) ∧ (∀ image ∈ images, ParamSuits s placeholders 0 image) ∧
      (bodyCount images = 0 ∨ seen.bodies + bodyCount images ≤ 1) ∧
      seen' = ⟨(ps.map (·.name.name)).reverse ++ seen.names, seen.params ++ images,
        seen.bodies + bodyCount images⟩ := by
  -- A parameter depends on the earlier ones by their names and the number of bodies only.
  induction ps generalizing seen with
  | nil =>
    rw [List.foldlM_nil, yields_pure]
    constructor
    · rintro rfl
      exact ⟨[], .nil, by simp [bodyCount]⟩
    · rintro ⟨_, ⟨⟩, -, -, -, -, rfl⟩
      simp [bodyCount]
  | cons p ps ih =>
    simp only [yields_foldlM_cons, checkParam_yields_iff, ih]
    constructor
    · rintro ⟨_, ⟨hnew, image, himage, hsuits, rfl⟩, images, himages, hnodup, hfresh, hall, hb, rfl⟩
      have hfresh' : ∀ q ∈ ps, q.name.name ≠ p.name.name ∧ q.name.name ∉ seen.names :=
        fun q hq => by simpa using hfresh q hq
      refine ⟨image :: images, .cons himage himages, ?_, ?_, ?_, ?_, ?_⟩
      · simp only [List.map_cons, List.nodup_cons, List.mem_map, not_exists, not_and]
        exact ⟨fun q hq => (hfresh' q hq).1, hnodup⟩
      · simp only [List.mem_cons, forall_eq_or_imp]
        exact ⟨hnew, fun q hq => (hfresh' q hq).2⟩
      · simp only [List.mem_cons, forall_eq_or_imp]
        exact ⟨hsuits.zero, hall⟩
      · rw [bodyCount_cons]
        by_cases hs : image.source = .body ∨ image.source = .form
        · have := hsuits.body hs
          simp only [hs, if_true] at hb ⊢
          omega
        · simpa [hs] using hb
      · rw [bodyCount_cons]
        by_cases hs : image.source = .body ∨ image.source = .form
        · simp [hs]
          omega
        · simp [hs]
    · rintro ⟨_, himages, hnodup, hfresh, hall, hb, rfl⟩
      obtain _ | @⟨_, image, _, images, himage, himages⟩ := himages
      simp only [List.map_cons, List.nodup_cons, List.mem_map, not_exists, not_and] at hnodup
      simp only [List.mem_cons, forall_eq_or_imp] at hfresh hall
      rw [bodyCount_cons] at hb
      refine ⟨_, ⟨hfresh.1, image, himage, hall.1.of_zero fun hs => ?_, rfl⟩, images, himages,
        hnodup.2, ?_, hall.2, ?_, ?_⟩
      · simp only [hs, if_true] at hb
        omega
      · intro q hq
        simp only [List.mem_cons, not_or]
        exact ⟨hnodup.1 q hq, hfresh.2 q hq⟩
      · by_cases hs : image.source = .body ∨ image.source = .form
        · simp only [hs, if_true] at hb ⊢
          omega
        · simpa [hs] using hb
      · rw [bodyCount_cons]
        by_cases hs : image.source = .body ∨ image.source = .form
        · simp [hs]
          omega
        · simp [hs]

theorem checkPlaceholder_yields_iff {r : HttpRoute} {params : List ParamImage}
    {placeholder : String} :
    (checkPlaceholder op r params placeholder).Yields () ↔
      (∃ p ∈ params, p.source = .path ∧ p.wireName = placeholder) ∨
        ∃ p ∈ op.params, ParamDecl.meantFor placeholder p = true := by
  rw [checkPlaceholder, yields_note_if rfl]
  simp only [Bool.not_eq_true', not_and_or, Bool.not_eq_false, List.any_eq_true,
    Bool.and_eq_true, beq_iff_eq]

/-- Parameters are accepted if they are in order and each placeholder of the route is bound, or
meant to be. -/
theorem checkParams_yields_iff {route : Option HttpRoute} {images : List ParamImage} :
    (checkParams s op route).Yields images ↔
      ParamsOf s (route.map fun r => Route.placeholders r.route) op.params images ∧
        ∀ r, route = some r → ∀ placeholder ∈ Route.placeholders r.route,
          (∃ p ∈ images, p.source = .path ∧ p.wireName = placeholder) ∨
            ∃ p ∈ op.params, ParamDecl.meantFor placeholder p = true := by
  -- The fold leaves the names in reverse; only the images matter for what follows.
  have hseen : ∀ seen, (op.params.foldlM
      (checkParam s op (route.map fun r => Route.placeholders r.route)) ⟨[], [], 0⟩).Yields seen ↔
      ∃ images, ParamsOf s (route.map fun r => Route.placeholders r.route) op.params images ∧
        seen = ⟨(op.params.map (·.name.name)).reverse, images, bodyCount images⟩ := by
    intro seen
    rw [foldlM_checkParam_yields_iff]
    refine exists_congr fun images => ?_
    simp only [List.append_nil, List.nil_append, Nat.zero_add, List.not_mem_nil, not_false_iff,
      implies_true, true_and]
    constructor
    · rintro ⟨hi, hn, hs, hb, rfl⟩
      exact ⟨⟨hi, hn, hs, by omega⟩, rfl⟩
    · rintro ⟨⟨hi, hn, hs, hb⟩, rfl⟩
      exact ⟨hi, hn, hs, .inr hb, rfl⟩
  rw [checkParams, yields_unlessError, yields_bind]
  simp only [hseen]
  cases route with
  | none =>
    constructor
    · rintro ⟨_, ⟨images, hi, rfl⟩, h⟩
      obtain ⟨_, -, h⟩ := yields_bind.mp h
      cases yields_pure.mp h
      exact ⟨hi, by simp⟩
    · rintro ⟨hi, -⟩
      exact ⟨_, ⟨images, hi, rfl⟩, yields_bind.mpr ⟨(), yields_pure'.mpr rfl, yields_pure.mpr rfl⟩⟩
  | some r =>
    simp only [Option.some.injEq, forall_eq']
    constructor
    · rintro ⟨_, ⟨images, hi, rfl⟩, h⟩
      obtain ⟨_, hp, h⟩ := yields_bind.mp h
      cases yields_pure.mp h
      exact ⟨hi, fun p hp' => checkPlaceholder_yields_iff.mp (yields_forM.mp hp p hp')⟩
    · rintro ⟨hi, hp⟩
      exact ⟨_, ⟨images, hi, rfl⟩, yields_bind.mpr ⟨(), yields_forM.mpr fun p hp' =>
        checkPlaceholder_yields_iff.mpr (hp p hp'), yields_pure.mpr rfl⟩⟩

theorem checkParams_loud (route : Option HttpRoute) : (checkParams s op route).Loud := by
  refine Loud.unlessError (.bind (.foldlM (fun _ _ => checkParam_loud _ _ _) _ _) fun seen _ => ?_)
  cases route with
  | none => exact (loud_pure' _).bind fun _ _ => loud_pure _
  | some r => exact (Loud.forM (fun _ => .note_if) _).bind fun _ _ => loud_pure _

end

end EndpointCompiler
