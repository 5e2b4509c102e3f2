import EndpointCompiler.Proofs.Checking.Operation
import EndpointCompiler.Proofs.Synthesis.Faithful

/-! How the checker reads the declarations that are made for a definition: its route, the sources of
its parameters and the names in scope. -/

namespace EndpointCompiler

open Source Checked

theorem toTypeRef_eq_named_nil {e : TypeExpr} {m : Option ModuleId} {n : String}
    (h : e.toTypeRef = .named m n []) : ∃ span, e = .path m n [] span := by
  cases e with
  | array element span => simp [TypeExpr.toTypeRef] at h
  | path module name args span =>
    by_cases hasync : module = none ∧ name = "Async" ∧ args.length = 1
    · obtain ⟨rfl, rfl, hlength⟩ := hasync
      obtain ⟨arg, rfl⟩ := List.length_eq_one_iff.mp hlength
      simp [TypeExpr.toTypeRef, TypeExpr.toTypeRefs] at h
    · rw [toTypeRef_path hasync] at h
      obtain ⟨rfl, rfl, hargs⟩ := TypeRef.named.inj h
      obtain rfl := toTypeRefs_eq_nil.mp hargs
      exact ⟨span, rfl⟩

namespace HandlerDefinition

section

variable {s : TypeScope} {d : HandlerDefinition} {carrier : Option String} {o : OpDecl}
  {key : Bool × String} {p : ParamDecl}

theorem SaysOp.exists_attributes (ho : d.SaysOp carrier o) : ∃ http produces verb span answer,
    o.attributes = [http, produces] ∧ http.name.name = "http" ∧
      http.args = [.type (.path none d.method.token [] verb), .text d.route span] ∧
      produces.name.name = "produces" ∧ produces.args = [.type answer] ∧
      answer.toTypeRef = d.response.unwrapAsync := by
  obtain ⟨http, _, ⟨hname, hargs⟩, hrest, hattributes⟩ :=
    List.forall₂_cons_left_iff.mp ho.attributes
  obtain ⟨produces, _, ⟨hname', hargs'⟩, hnil, rfl⟩ := List.forall₂_cons_left_iff.mp hrest
  obtain rfl := List.forall₂_nil_left_iff.mp hnil
  obtain ⟨_, _, ⟨verb, rfl, hverb⟩, hargs, hall⟩ := List.forall₂_cons_left_iff.mp hargs
  obtain ⟨_, _, ⟨span, rfl⟩, hnil, rfl⟩ := List.forall₂_cons_left_iff.mp hargs
  obtain rfl := List.forall₂_nil_left_iff.mp hnil
  obtain ⟨_, _, ⟨answer, rfl, hanswer⟩, hnil, hall'⟩ := List.forall₂_cons_left_iff.mp hargs'
  obtain rfl := List.forall₂_nil_left_iff.mp hnil
  obtain ⟨verbSpan, rfl⟩ := toTypeRef_eq_named_nil hverb
  exact ⟨http, produces, verbSpan, span, answer, hattributes, hname, hall, hname', hall', hanswer⟩

/-- The route attribute says the definition's method and route. -/
theorem checkHttp_routed (hd : d.Valid) {a : Attribute} {span span' : Span}
    (ha : a.args = [.type (.path none d.method.token [] span), .text d.route span']) :
    checkHttp a = Checked.pure ⟨d.method, d.route, a.span⟩ := by
  have hmethod : (⟨d.method.token⟩ : Method) ∈ Method.supported := hd.method
  have hslash := (Route.no_fault hd.route).1
  unfold checkHttp
  rw [ha]
  simp [hmethod, hslash]

/-- A parameter is bound from the source of its group, under the group's name on the wire. -/
theorem SaysParam.checkBinding (hp : d.SaysParam carrier key p) :
    checkBinding p = Checked.pure (d.sourceOf key, key.2) := by
  obtain ⟨a, hattributes, hname, hargs⟩ := hp.source
  have hbinding : bindingAttributes p.attributes = Checked.pure [(d.sourceOf key, a)] := by
    rw [hattributes, bindingAttributes, hname,
      ParamSource.ofKeyword?_eq_some_iff.mpr rfl]
    rfl
  rw [EndpointCompiler.checkBinding, hbinding]
  rcases hargs with ⟨hargs, hsame⟩ | ⟨span, hargs⟩
  · simp only [Bind.bind, Checked.bind, Checked.pure, hargs, hsame]
    rfl
  · simp only [Bind.bind, Checked.bind, Checked.pure, hargs]
    rfl

theorem bodySource_iff (hkey : key ∈ wireKeys d.parameters) :
    d.sourceOf key = .body ∨ d.sourceOf key = .form ↔ key.1 = true := by
  obtain ⟨b, bs, hbs⟩ := List.exists_cons_of_ne_nil (bindingsOf_ne_nil hkey)
  have hb : b.wireKey = key := (mem_bindingsOf.mp (hbs ▸ List.mem_cons_self)).2
  have hbody : key.1 = b.kind.isBodyLike := by rw [← hb, ParameterBinding.wireKey]
  rw [hbody, sourceOf, hbs]
  cases hk : b.kind with
  | body => simp [hk, BindingKind.isBodyLike]
  | form => simp [hk, BindingKind.isBodyLike]
  | queryOrPath =>
    by_cases hmem : key.2 ∈ Route.placeholders d.route <;> simp [hk, BindingKind.isBodyLike, hmem]

theorem mem_placeholders_of_path (h : d.sourceOf key = .path) :
    key.2 ∈ Route.placeholders d.route := by
  unfold sourceOf at h
  split at h
  · cases h
  · cases h
  · by_contra hmem
    rw [if_neg hmem] at h
    cases h

/-- Different groups have no property in common. -/
theorem Valid.sources_nodup (hd : d.Valid) :
    (((wireKeys d.parameters).flatMap (bindingsOf d.parameters)).map (·.source)).Nodup := by
  have hinj : ∀ b ∈ d.parameters, ∀ b' ∈ d.parameters, b.source = b'.source → b = b' :=
    fun b hb b' hb' he => List.inj_on_of_nodup_map hd.bindings.nodup hb hb' he
  rw [List.map_flatMap, List.nodup_flatMap]
  refine ⟨fun key _ => hd.bindings.nodup.sublist ((List.filter_sublist).map _), ?_⟩
  refine (wireKeys_nodup d.parameters).imp fun {key key'} hne => ?_
  intro source hsource hsource'
  obtain ⟨b, hb, rfl⟩ := List.mem_map.mp hsource
  obtain ⟨b', hb', he⟩ := List.mem_map.mp hsource'
  obtain ⟨hmem, hkey⟩ := mem_bindingsOf.mp hb
  obtain ⟨hmem', hkey'⟩ := mem_bindingsOf.mp hb'
  have hsame : b' = b := hinj b' hmem' b hmem he
  exact hne (hkey.symm.trans (hsame ▸ hkey'))

end

end HandlerDefinition

end EndpointCompiler
