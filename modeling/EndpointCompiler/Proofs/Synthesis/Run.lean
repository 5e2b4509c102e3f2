import EndpointCompiler.Proofs.Handler.Definition
import EndpointCompiler.Proofs.Synthesis.Groups
import EndpointCompiler.Proofs.Synthesis.Names

/-! What operations are made of: a name each, a carrier for their bodies, and one parameter for every
group of bindings. -/

namespace EndpointCompiler

/-- A parameter that is made for a group. -/
structure ParamGroup.Gives (placeholders : List String) (carrier : String) (g : ParamGroup)
    (p : WrittenParam) : Prop where
  source : p.source = g.source placeholders
  wireName : p.wireName = g.target
  type : p.type = g.type carrier
  name : isPropertyName p.name = true

/-- The parameters of groups have different names, none of which is taken, and each assignment
reads the parameter of its group. -/
theorem nameParams_ok {placeholders : List String} {carrier : String} {names : NameTable}
    {gs : List ParamGroup} {params : List WrittenParam} {assignments : List Assignment}
    (h : nameParams placeholders carrier names gs = .ok (params, assignments)) :
    List.Forall₂ (ParamGroup.Gives placeholders carrier) gs params ∧
      (params.map (·.name)).Nodup ∧ (∀ p ∈ params, p.name ∉ names.assigned) ∧
      assignments = (gs.zip params).flatMap fun x => x.1.assignments x.2.name := by
  induction gs generalizing names params assignments with
  | nil =>
    rw [nameParams] at h
    cases h
    exact ⟨.nil, List.nodup_nil, nofun, rfl⟩
  | cons g gs ih =>
    rw [nameParams] at h
    cases hname : names.allocate (sanitizeIdent g.target) with
    | error e =>
      rw [hname] at h
      cases h
    | ok allocated =>
      obtain ⟨name, names'⟩ := allocated
      obtain ⟨hword, hfree, htaken⟩ := NameTable.allocate_ok hname (isPropertyName_sanitizeIdent _)
      cases hrest : nameParams placeholders carrier names' gs with
      | error e =>
        simp only [hname, hrest, bind, Except.bind] at h
        cases h
      | ok result =>
        obtain ⟨ps, as⟩ := result
        simp only [hname, hrest, bind, Except.bind, pure, Except.pure] at h
        cases h
        obtain ⟨hgives, hnodup, hfresh, has⟩ := ih hrest
        -- What is fresh after this name was taken is, in particular, not this name.
        rw [htaken] at hfresh
        refine ⟨.cons ⟨rfl, rfl, rfl, hword⟩ hgives, ?_, ?_, ?_⟩
        · rw [List.map_cons, List.nodup_cons]
          refine ⟨fun hmem => ?_, hnodup⟩
          obtain ⟨p, hp, hsame⟩ := List.mem_map.mp hmem
          exact hfresh p hp (hsame ▸ List.mem_cons_self)
        · refine List.forall_mem_cons.mpr ⟨hfree, fun p hp hmem => ?_⟩
          exact hfresh p hp (List.mem_cons_of_mem _ hmem)
        · rw [List.zip_cons_cons, List.flatMap_cons, ← has]

theorem OperationSpec.units_names (spec : OperationSpec) :
    spec.units.map (·.name) = (spec.carrier.map (·.name)).toList ++ [spec.operation.name] := by
  rw [units]
  cases spec.carrier <;> rfl

namespace Synthesizer

def outcome {α : Type} (x : Action α) (s : Synthesizer) : Except NameCollision α × Synthesizer :=
  x.run.run s

/-- A computation gives a value and leaves a state. -/
def Runs {α : Type} (x : Action α) (s : Synthesizer) (a : α) (s' : Synthesizer) : Prop :=
  outcome x s = (.ok a, s')

section

variable {α β : Type} {x : Action α} {f : α → Action β} {a a' : α} {b : β} {s s' : Synthesizer}

theorem runs_of_isOk (hok : (outcome x s).1.isOk = true) : ∃ a s', Runs x s a s' := by
  rcases ho : outcome x s with ⟨e | a, s'⟩
  · rw [ho] at hok
    cases hok
  · exact ⟨a, s', ho⟩

theorem runs_pure : Runs (pure a') s a s' ↔ a' = a ∧ s = s' := by
  have hrun : outcome (pure a') s = (.ok a', s) := rfl
  rw [Runs, hrun, Prod.mk.injEq, Except.ok.injEq]

theorem outcome_bind : outcome (x >>= f) s = match outcome x s with
    | (.ok a, s₁) => outcome (f a) s₁
    | (.error e, s₁) => (.error e, s₁) := by
  have hbind : outcome (x >>= f) s = (ExceptT.bindCont f (outcome x s).1).run (outcome x s).2 := rfl
  rw [hbind]
  rcases outcome x s with ⟨_ | a, s₁⟩ <;> rfl

theorem runs_bind : Runs (x >>= f) s b s' ↔ ∃ a s₁, Runs x s a s₁ ∧ Runs (f a) s₁ b s' := by
  unfold Runs
  rw [outcome_bind]
  rcases outcome x s with ⟨_ | a, s₁⟩ <;> simp

theorem runs_lift {e : Except NameCollision α} :
    Runs (liftM e) s a s' ↔ e = .ok a ∧ s = s' := by
  have hrun : outcome (liftM e) s = (e, s) := rfl
  rw [Runs, hrun, Prod.mk.injEq]

/-- Where there is no name to give, the synthesizer goes on as it was. -/
theorem outcome_allocate (base : String) (s : Synthesizer) :
    outcome (allocate base) s = match s.names.allocate base with
      | .ok (name, names) => (.ok name, { s with names })
      | .error e => (.error e, s) := by
  have hget : outcome get s = (.ok s, s) := rfl
  unfold allocate
  rw [outcome_bind, hget]
  dsimp only
  cases s.names.allocate base <;> rfl

theorem runs_allocate {base name : String} : Runs (allocate base) s name s' ↔
    ∃ names, s.names.allocate base = .ok (name, names) ∧ s' = { s with names } := by
  rw [Runs, outcome_allocate]
  cases s.names.allocate base with
  | error e => simp
  | ok allocated =>
    obtain ⟨n, names⟩ := allocated
    simp [eq_comm]

theorem runs_surrogate {id : String} : Runs surrogate s id s' ↔
    s.surrogates.next.1 = id ∧ { s with surrogates := s.surrogates.next.2 } = s' := by
  have hrun : outcome surrogate s =
      (.ok s.surrogates.next.1, { s with surrogates := s.surrogates.next.2 }) := rfl
  rw [Runs, hrun, Prod.mk.injEq, Except.ok.injEq]

end

/-- The bindings that a carrier has fields for. -/
def bodyBindings (d : HandlerDefinition) : List ParameterBinding :=
  ((groupBindings d.parameters).filter (·.bodyLike)).flatMap (·.bindings)

def carrierFields (d : HandlerDefinition) : List Field :=
  (bodyBindings d).map fun b => ⟨b.source, b.type⟩

def carrierName (carrier : Option WrittenShape) : String :=
  (carrier.map WrittenShape.name).getD ""

/-- What the operation of a definition is made of. The units are named by what they declare. -/
structure Makes (d : HandlerDefinition) (s : Synthesizer) (spec : OperationSpec)
    (s' : Synthesizer) : Prop where
  method : spec.operation.method = d.method
  route : spec.operation.route = d.route
  request : spec.operation.request = d.request
  response : spec.operation.response = d.response
  requestVar : spec.operation.requestVar = "request_" ++ s.surrogates.next.1
  carrier : (bodyBindings d).isEmpty = spec.carrier.isNone
  fields : ∀ c ∈ spec.carrier, c.fields = carrierFields d
  marked : ∀ c ∈ spec.carrier, '_' ∈ c.name.toList
  params : List.Forall₂ (ParamGroup.Gives (Route.placeholders d.route) (carrierName spec.carrier))
    (groupBindings d.parameters) spec.operation.params
  paramNames : (spec.operation.params.map (·.name)).Nodup
  paramVar : ∀ p ∈ spec.operation.params, p.name ≠ spec.operation.requestVar
  assignments : spec.operation.assignments =
    ((groupBindings d.parameters).zip spec.operation.params).flatMap
      fun x => x.1.assignments x.2.name
  words : ∀ u ∈ spec.units, isPropertyName u.name = true
  names : (spec.units.map (·.name)).Nodup
  fresh : ∀ u ∈ spec.units, u.name ∉ s.names.assigned
  assigned : s'.names.assigned = (spec.units.map (·.name)) ++ s.names.assigned

section

variable {d : HandlerDefinition} {s s₁ s' : Synthesizer} {spec : OperationSpec} {name : String}

theorem requestVar_reserved (v : String) :
    ((NameTable.empty defaultMaxSuffix).reserve v).2.assigned = [v] := rfl

/-- With the names of the operation and its carrier, the parameters are all that is left. -/
theorem makes_of_carrier (carrier : Option WrittenShape) (hword : isPropertyName name = true)
    (hfree : name ∉ s.names.assigned)
    (hbody : (bodyBindings d).isEmpty = carrier.isNone)
    (hcarrier : ∀ c ∈ carrier, isPropertyName c.name = true ∧ c.name ∉ name :: s.names.assigned ∧
      c.fields = carrierFields d ∧ '_' ∈ c.name.toList)
    (hassigned : s₁.names.assigned =
      (carrier.map (·.name)).toList ++ name :: s.names.assigned)
    (h : Runs (do
      let made ← liftM (nameParams (Route.placeholders d.route) (carrierName carrier)
        ((NameTable.empty defaultMaxSuffix).reserve ("request_" ++ s.surrogates.next.1)).2
        (groupBindings d.parameters))
      pure ⟨carrier, ⟨name, d.method, d.route, made.1, d.request, d.response,
        "request_" ++ s.surrogates.next.1, made.2⟩⟩) s₁ spec s') : Makes d s spec s' := by
  rw [runs_bind] at h
  obtain ⟨⟨params, assignments⟩, s₂, hlift, hspec⟩ := h
  obtain ⟨hparams, rfl⟩ := runs_lift.mp hlift
  obtain ⟨rfl, rfl⟩ := runs_pure.mp hspec
  obtain ⟨hgives, hnodup, hfresh, hassignments⟩ := nameParams_ok hparams
  rw [requestVar_reserved] at hfresh
  -- What is left is about the units: the operation, and its carrier where it has one.
  let spec : OperationSpec := ⟨carrier, ⟨name, d.method, d.route, params, d.request, d.response,
    "request_" ++ s.surrogates.next.1, assignments⟩⟩
  have hunits : spec.units.map (·.name) = (carrier.map (·.name)).toList ++ [name] :=
    spec.units_names
  have hnames : ∀ n ∈ spec.units.map (·.name), isPropertyName n = true ∧ n ∉ s.names.assigned := by
    intro n hn
    rw [hunits, List.mem_append, Option.mem_toList, Option.map_eq_some_iff,
      List.mem_singleton] at hn
    rcases hn with ⟨c, hc, rfl⟩ | rfl
    · obtain ⟨hcword, hcfree, -⟩ := hcarrier c hc
      exact ⟨hcword, fun hmem => hcfree (List.mem_cons_of_mem _ hmem)⟩
    · exact ⟨hword, hfree⟩
  exact
    { method := rfl, route := rfl, request := rfl, response := rfl, requestVar := rfl
      carrier := hbody, fields := fun c hc => (hcarrier c hc).2.2.1
      marked := fun c hc => (hcarrier c hc).2.2.2
      params := hgives, paramNames := hnodup
      paramVar := fun p hp he => hfresh p hp (List.mem_singleton.mpr he)
      assignments := hassignments
      words := fun u hu => (hnames _ (List.mem_map_of_mem hu)).1
      names := by
        rw [hunits, List.nodup_append]
        refine ⟨by cases carrier <;> simp, List.nodup_singleton name, ?_⟩
        simp only [Option.mem_toList, Option.map_eq_some_iff, List.mem_singleton]
        rintro _ ⟨c, hc, rfl⟩ _ rfl he
        exact (hcarrier c hc).2.1 (he ▸ List.mem_cons_self)
      fresh := fun u hu => (hnames _ (List.mem_map_of_mem hu)).2
      assigned := by rw [hunits, hassigned, List.append_assoc, List.singleton_append] }

/-- A name that begins with an operation's is a word if an underscore and an identifier follow. -/
theorem isPropertyName_carrier {n : String} (hn : isPropertyName n = true) (u : SurrogateSource) :
    isPropertyName (n ++ "Body_" ++ u.next.1) = true := by
  refine isPropertyName_surrogate ?_ (by simp) fun c hc => u.mem_next hc
  rw [String.toList_append]
  exact isWord_append (isWord_of_isPropertyName hn) (List.all_eq_true.mp (by decide))

theorem makes_of_runs (h : Runs (synthesize d) s spec s') : Makes d s spec s' := by
  unfold synthesize at h
  rw [runs_bind] at h
  obtain ⟨name, s₁, hallocate, h⟩ := h
  obtain ⟨names₁, hname, rfl⟩ := runs_allocate.mp hallocate
  rw [runs_bind] at h
  obtain ⟨id, s₂, hsurrogate, h⟩ := h
  obtain ⟨rfl, rfl⟩ := runs_surrogate.mp hsurrogate
  obtain ⟨hword, hfree, hassigned⟩ := NameTable.allocate_ok hname (isPropertyName_sanitizeIdent _)
  change Runs (ite ((bodyBindings d).isEmpty = true) _ _) _ _ _ at h
  by_cases hbody : (bodyBindings d).isEmpty = true
  · rw [if_pos hbody, runs_bind] at h
    obtain ⟨carrier, s₃, hpure, h⟩ := h
    obtain ⟨rfl, rfl⟩ := runs_pure.mp hpure
    exact makes_of_carrier none hword hfree hbody nofun hassigned h
  · rw [if_neg hbody, runs_bind] at h
    obtain ⟨shape, s₃, hallocate, h⟩ := h
    obtain ⟨names₂, hshape, rfl⟩ := runs_allocate.mp hallocate
    rw [runs_bind] at h
    obtain ⟨carrier, s₄, hpure, h⟩ := h
    obtain ⟨rfl, rfl⟩ := runs_pure.mp hpure
    obtain ⟨hshapeWord, hshapeFree, hshapeAssigned⟩ :=
      NameTable.allocate_ok hshape (isPropertyName_carrier hword _)
    refine makes_of_carrier (some ⟨shape, carrierFields d⟩) hword hfree
      (Bool.eq_false_iff.mpr hbody) (fun c hc => ?_) ?_ h
    · obtain rfl := Option.mem_some.mp hc
      obtain ⟨rest, rfl⟩ := NameTable.allocate_begins hshape
      exact ⟨hshapeWord, hassigned ▸ hshapeFree, rfl, by simp⟩
    · rw [hshapeAssigned, hassigned]
      rfl

/-- Units of different definitions have different names, as those of one have. -/
theorem makes_of_runs_all {ds : List HandlerDefinition} {specs : List OperationSpec}
    (h : Runs (synthesizeAll ds) s specs s') :
    List.Forall₂ (fun d spec => ∃ s s', Makes d s spec s') ds specs ∧
      ((specs.flatMap (·.units)).map (·.name)).Nodup ∧
      ∀ u ∈ specs.flatMap (·.units), u.name ∉ s.names.assigned := by
  unfold synthesizeAll at h
  induction ds generalizing s specs with
  | nil =>
    rw [List.mapM_nil] at h
    obtain ⟨rfl, rfl⟩ := runs_pure.mp h
    exact ⟨.nil, List.nodup_nil, nofun⟩
  | cons d ds ih =>
    rw [List.mapM_cons, runs_bind] at h
    obtain ⟨spec, s₁, hspec, h⟩ := h
    rw [runs_bind] at h
    obtain ⟨specs, s₂, hspecs, h⟩ := h
    obtain ⟨rfl, rfl⟩ := runs_pure.mp h
    have hmakes := makes_of_runs hspec
    obtain ⟨hall, hnodup, hfresh⟩ := ih hspecs
    rw [hmakes.assigned] at hfresh
    refine ⟨.cons ⟨s, s₁, hmakes⟩ hall, ?_, fun u hu => ?_⟩
    · rw [List.flatMap_cons, List.map_append]
      refine List.nodup_append.mpr ⟨hmakes.names, hnodup, fun n hn m hm he => ?_⟩
      obtain ⟨u, hu, rfl⟩ := List.mem_map.mp hm
      exact hfresh u hu (List.mem_append_left _ (he ▸ hn))
    · rcases List.mem_append.mp hu with hu | hu
      · exact hmakes.fresh u hu
      · exact fun hmem => hfresh u hu (List.mem_append_right _ hmem)

end

end Synthesizer

end EndpointCompiler
