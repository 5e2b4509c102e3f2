import EndpointCompiler.Handler.Definition
import EndpointCompiler.Proofs.Handler.Pieces

/-! What definitions that are accepted have in common. -/

namespace EndpointCompiler

/-- The binding rules, given the properties that are bound already and the body's name on the wire
if there is one. -/
structure BindingsValid (seen : List String) (bodyTarget : Option String)
    (bs : List ParameterBinding) : Prop where
  sources : ∀ b ∈ bs, isPropertyName b.source = true
  fresh : ∀ b ∈ bs, b.source ∉ seen
  nodup : (bs.map (·.source)).Nodup
  body : ∃ target, (∀ first ∈ bodyTarget, target = first) ∧
    ∀ b ∈ bs, b.kind.isBodyLike = true → b.target = target

theorem BindingsValid.cons {seen : List String} {first first' : Option String}
    {b : ParameterBinding} {bs : List ParameterBinding}
    (hsource : isPropertyName b.source = true) (hseen : b.source ∉ seen)
    (hfirst : ∀ target, (∀ t ∈ first', target = t) →
      (∀ t ∈ first, target = t) ∧ (b.kind.isBodyLike = true → b.target = target))
    (h : BindingsValid (b.source :: seen) first' bs) : BindingsValid seen first (b :: bs) := by
  obtain ⟨target, htarget, hbs⟩ := h.body
  refine ⟨?_, ?_, ?_, target, (hfirst target htarget).1, ?_⟩
  · exact List.forall_mem_cons.mpr ⟨hsource, h.sources⟩
  · refine List.forall_mem_cons.mpr ⟨hseen, fun c hc hmem => ?_⟩
    exact h.fresh c hc (List.mem_cons_of_mem _ hmem)
  · rw [List.map_cons, List.nodup_cons]
    refine ⟨fun hmem => ?_, h.nodup⟩
    obtain ⟨c, hc, hsame⟩ := List.mem_map.mp hmem
    exact h.fresh c hc (hsame ▸ List.mem_cons_self)
  · exact List.forall_mem_cons.mpr ⟨(hfirst target htarget).2, hbs⟩

/-- Every binding that passes keeps the rules for those after it. -/
theorem bindingsValid_of_checkBindings {request : TypeRef} {seen : List String}
    {bodyTarget : Option String} {bs : List ParameterBinding}
    (h : HandlerDefinition.checkBindings request seen bodyTarget bs = .ok ()) :
    BindingsValid seen bodyTarget bs := by
  induction bs generalizing seen bodyTarget with
  | nil =>
    refine ⟨nofun, nofun, List.nodup_nil, ?_⟩
    cases bodyTarget with
    | none => exact ⟨"", nofun, nofun⟩
    | some first => exact ⟨first, fun t ht => Option.some.inj ht, nofun⟩
  | cons b bs ih =>
    unfold HandlerDefinition.checkBindings at h
    by_cases hsource : isPropertyName b.source = true
    · by_cases hseen : b.source ∈ seen
      · simp [hsource, hseen] at h
      · by_cases hbody : b.kind.isBodyLike = true
        · cases bodyTarget with
          | none =>
            simp only [hsource, hseen, hbody, List.contains_eq_mem, Bool.not_true,
              Bool.false_eq_true, if_true, if_false, decide_false] at h
            exact .cons hsource hseen (fun t ht => ⟨nofun, fun _ => (ht b.target rfl).symm⟩) (ih h)
          | some first =>
            by_cases hfirst : first = b.target
            · simp only [hsource, hseen, hbody, hfirst, List.contains_eq_mem, Bool.not_true,
                Bool.false_eq_true, if_true, if_false, decide_false] at h
              refine .cons hsource hseen (fun t ht => ?_) (ih h)
              exact ⟨fun f hf => by rw [ht b.target rfl, ← hfirst, Option.some.inj hf],
                fun _ => (ht b.target rfl).symm⟩
            · simp [hsource, hseen, hbody, hfirst] at h
        · simp only [hsource, hseen, hbody, List.contains_eq_mem, Bool.not_true,
            Bool.false_eq_true, if_false, decide_false] at h
          exact .cons hsource hseen (fun t ht => ⟨ht, fun hb => absurd hb hbody⟩) (ih h)
    · simp [hsource] at h

namespace HandlerDefinition

/-- What is checked of a definition. -/
structure Valid (d : HandlerDefinition) : Prop where
  method : d.method ∈ Method.supported
  route : Route.fault? d.route = none
  request : d.request.isAsync = false
  bindings : BindingsValid [] none d.parameters

theorem valid_of_validate {d : HandlerDefinition} (h : d.validate = .ok ()) : d.Valid := by
  unfold validate at h
  by_cases hmethod : d.method ∈ Method.supported
  · by_cases hempty : d.route = ""
    · simp [hmethod, hempty] at h
    · cases hroute : Route.fault? d.route with
      | some fault => simp [hmethod, hempty, hroute] at h
      | none =>
        by_cases hasync : d.request.isAsync = true
        · simp [hmethod, hempty, hroute, hasync] at h
        · rw [if_neg (fun hn => hn hmethod), if_neg hempty, hroute] at h
          dsimp only at h
          rw [if_neg hasync] at h
          exact ⟨hmethod, hroute, Bool.eq_false_iff.mpr hasync, bindingsValid_of_checkBindings h⟩
  · simp [hmethod] at h

end HandlerDefinition

theorem Route.no_fault {route : String} (h : Route.fault? route = none) :
    route.toList.head? = some '/' ∧ ∀ c ∈ route.toList, isWhiteSpace c = false := by
  obtain ⟨hslash, hplain, -⟩ := fault?_eq_none_iff.mp h
  exact ⟨hslash, fun c hc => (hplain c hc).2.2⟩

end EndpointCompiler
