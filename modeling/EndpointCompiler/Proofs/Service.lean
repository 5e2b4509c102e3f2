import EndpointCompiler.Proofs.Handler.Dispatcher
import EndpointCompiler.Proofs.Routing.Templates
import EndpointCompiler.Service

/-! How services answer: what a request comes to depends on its route, on whether it binds, and on
the last handler that was registered for it. -/

namespace EndpointCompiler

theorem HandlerOutcome.result_eq_ok {o : HandlerOutcome} {key : RequestKey} {value : Json} :
    o.result key = .ok value ↔ o = .answered value := by
  cases o <;> simp [result]

/-- Requests are routed to operations of the types that a router is made for. -/
theorem Router.operation_mem {types : List TypeInfo} {method : Method} {target : String}
    {m : RouteMatch} (hnames : ∀ t ∈ types, ∀ o ∈ t.operations,
      (placeholderNames (templateSegments o.route.template)).Nodup)
    (h : (ofTypes types).route? method target = some m) :
    ∃ t ∈ types, m.routed.operation ∈ t.operations := by
  obtain ⟨captures, hfound, -⟩ := route?_eq_some.mp h
  rw [ofTypes_eq, tree_ofOperations] at hfound
  have hinsertions : ∀ i ∈ (types.flatMap fun t => t.operations.map fun o =>
      (⟨t.typeRef, o⟩ : RoutedOperation)).map (·.insertion),
      (placeholderNames (templateSegments i.template)).Nodup := by
    simp only [List.forall_mem_map, List.forall_mem_flatMap]
    exact hnames
  obtain ⟨e, hbest, hvalue, -⟩ := (RouteTree.find?_eq_some_iff hinsertions).mp hfound
  obtain ⟨i, hi, rfl⟩ := List.mem_map.mp hbest.last.mem
  obtain ⟨o, ho, rfl⟩ := List.mem_map.mp hi
  obtain ⟨t, ht, ho⟩ := List.mem_flatMap.mp ho
  obtain ⟨operation, hoperation, rfl⟩ := List.mem_map.mp ho
  exact ⟨t, ht, hvalue ▸ hoperation⟩

namespace Service

variable {s : Service} {method : Method} {target : String} {body : Option String}

theorem answer_of_unrouted (h : s.router.route? method target = none) :
    s.answer method target body = .error 404 "Not Found" := by
  simp only [answer, h]

/-- A generated operation binds first, and only then hands its request on. -/
theorem answer_of_generated {m : RouteMatch} {op : GeneratedOperation}
    (h : s.router.route? method target = some m) (hop : m.routed.operation = .generated op) :
    s.answer method target body =
      match op.bind ⟨m.path, m.query, body⟩ with
      | .error e => .error 400 e.message
      | .ok params =>
        respond ((s.processor ⟨op.mode, op.key, op.evaluate params⟩).mapError .dispatch) := by
  simp only [answer, h, hop, Operation.invoke, GeneratedOperation.bridgeRequest]
  cases op.bind ⟨m.path, m.query, body⟩ <;> rfl

theorem respond_processor (d : Dispatcher) (b : BridgeRequest) :
    respond ((d.processor b).mapError .dispatch) =
      match d.process b.mode b.key b.request with
      | .ok value => .json 200 value
      | .error _ => .error 500 "Internal Server Error" := by
  rw [Dispatcher.processor]
  cases d.process b.mode b.key b.request <;> rfl

theorem respond_served {gs : List Registration} {b : BridgeRequest} {handler : Handler}
    {value : Json} (hserves : Serves gs b.mode b.key handler)
    (hvalue : handler b.request = .answered value) :
    respond (((Dispatcher.ofRegistrations gs).processor b).mapError .dispatch) =
      .json 200 value := by
  have hprocess := (Dispatcher.process_ofRegistrations gs b.mode b.key b.request).1 handler hserves
  rw [respond_processor, hprocess, hvalue]
  rfl

theorem respond_failed {gs : List Registration} {b : BridgeRequest}
    (hnone : ¬ ∃ handler value, Serves gs b.mode b.key handler ∧
      handler b.request = .answered value) :
    respond (((Dispatcher.ofRegistrations gs).processor b).mapError .dispatch) =
      .error 500 "Internal Server Error" := by
  obtain ⟨hserved, hunserved⟩ := Dispatcher.process_ofRegistrations gs b.mode b.key b.request
  rw [respond_processor]
  by_cases hserves : ∃ handler, Serves gs b.mode b.key handler
  · obtain ⟨handler, hserves⟩ := hserves
    rw [hserved handler hserves]
    cases hresult : (handler b.request).result b.key with
    | error e => rfl
    | ok value =>
      exact absurd ⟨handler, value, hserves, HandlerOutcome.result_eq_ok.mp hresult⟩ hnone
  · rw [hunserved fun handler h => hserves ⟨handler, h⟩]

theorem status_respond_processor_ne (d : Dispatcher) (b : BridgeRequest) {status : Nat}
    (h : status ∉ [200, 500]) : (respond ((d.processor b).mapError .dispatch)).status ≠ status := by
  rintro rfl
  rw [respond_processor] at h
  cases hprocess : d.process b.mode b.key b.request with
  | ok value =>
    rw [hprocess] at h
    exact h List.mem_cons_self
  | error e =>
    rw [hprocess] at h
    exact h (List.mem_cons_of_mem _ List.mem_cons_self)

/-- No processor answers with status 400, so a request is so answered just if it does not bind. -/
theorem answer_status_eq_400_iff {d : Dispatcher} (hs : s.processor = d.processor) {m : RouteMatch}
    {op : GeneratedOperation} (h : s.router.route? method target = some m)
    (hop : m.routed.operation = .generated op) :
    (s.answer method target body).status = 400 ↔ ∃ e, op.bind ⟨m.path, m.query, body⟩ = .error e := by
  rw [answer_of_generated h hop, hs]
  cases hbind : op.bind ⟨m.path, m.query, body⟩ with
  | error e => exact ⟨fun _ => ⟨e, rfl⟩, fun _ => rfl⟩
  | ok params =>
    exact ⟨fun hstatus => absurd hstatus (status_respond_processor_ne _ _ (by decide)), nofun⟩

theorem answer_status_eq_404_iff {d : Dispatcher} (hs : s.processor = d.processor)
    (hgenerated : ∀ m, s.router.route? method target = some m →
      ∃ op, m.routed.operation = .generated op) :
    (s.answer method target body).status = 404 ↔ s.router.route? method target = none := by
  cases hroute : s.router.route? method target with
  | none =>
    rw [answer_of_unrouted hroute]
    exact ⟨fun _ => rfl, fun _ => rfl⟩
  | some m =>
    obtain ⟨op, hop⟩ := hgenerated m hroute
    rw [answer_of_generated hroute hop, hs]
    cases op.bind ⟨m.path, m.query, body⟩ with
    | error e => exact ⟨nofun, nofun⟩
    | ok params =>
      exact ⟨fun hstatus => absurd hstatus (status_respond_processor_ne _ _ (by decide)), nofun⟩

/-- A request to a generated operation, or to none, is answered with status 404 if it has no route,
with status 400 if it does not bind, whatever there is to process it, and otherwise with what the
handler that serves it answers. All that can go wrong then comes to one response. -/
theorem answer_ofRegistry (r : Registry) (gs : List Registration) (method : Method)
    (target : String) (body : Option String)
    (hgenerated : ∀ m,
      (ofRegistry r (Dispatcher.ofRegistrations gs).processor).router.route? method target = some m →
        ∃ op, m.routed.operation = .generated op) :
    let s := ofRegistry r (Dispatcher.ofRegistrations gs).processor
    ((s.answer method target body).status = 404 ↔ s.router.route? method target = none) ∧
      ∀ m op, s.router.route? method target = some m → m.routed.operation = .generated op →
        ((s.answer method target body).status = 400 ↔
          ∃ e, op.bind ⟨m.path, m.query, body⟩ = .error e) ∧
        (∀ e, op.bind ⟨m.path, m.query, body⟩ = .error e →
          ∀ processor, (ofRegistry r processor).answer method target body =
            .error 400 e.message) ∧
        ∀ params, op.bind ⟨m.path, m.query, body⟩ = .ok params →
          (∀ handler value, Serves gs op.mode op.key handler →
            handler (op.evaluate params) = .answered value →
              s.answer method target body = .json 200 value) ∧
          ((¬ ∃ handler value, Serves gs op.mode op.key handler ∧
              handler (op.evaluate params) = .answered value) →
            s.answer method target body = .error 500 "Internal Server Error") := by
  intro s
  refine ⟨answer_status_eq_404_iff rfl hgenerated, fun m op hroute hop => ?_⟩
  -- The router does not depend on what processes requests.
  have hanswer : ∀ processor, (ofRegistry r processor).answer method target body =
      match op.bind ⟨m.path, m.query, body⟩ with
      | .error e => .error 400 e.message
      | .ok params =>
        respond ((processor ⟨op.mode, op.key, op.evaluate params⟩).mapError .dispatch) :=
    fun _ => answer_of_generated hroute hop
  refine ⟨answer_status_eq_400_iff rfl hroute hop, fun e hbind processor => ?_,
    fun params hbind => ⟨?_, ?_⟩⟩
  · rw [hanswer, hbind]
  · intro handler value hserves hvalue
    rw [hanswer, hbind]
    exact respond_served hserves hvalue
  · intro hnone
    rw [hanswer, hbind]
    exact respond_failed hnone

/-- Pets are fetched at once or waited for, by handlers of one key. -/
def fetchPet (name template : String) (isAsync : Bool) : GeneratedOperation :=
  ⟨name, ⟨.get, template, none⟩, [⟨"id", "id", .path, Primitive.string.type, []⟩], [],
    ⟨.declared "app" "PetId", .declared "app" "Pet", isAsync, .param 0⟩, none⟩

def petRegistry : Registry :=
  ⟨[], [⟨0, "made", .dynamic, [{ TypeInfo.empty "made" "MadeController" with
    base := some controllerType
    operations := [.generated (fetchPet "Fetch" "/pets/\x7bid\x7d" false),
      .generated (fetchPet "Await" "/later/\x7bid\x7d" true)] }]⟩]⟩

def petKey : RequestKey := ⟨.declared "app" "PetId", .declared "app" "Pet"⟩

/-- The asynchronous handler stays when another synchronous one is registered. -/
def petHandlers : List Registration :=
  [⟨.sync, petKey, fun _ => .aborted⟩, ⟨.async, petKey, fun id => .answered (.array [id])⟩,
    ⟨.sync, petKey, fun id => .answered id⟩]

def petService : Service :=
  ofRegistry petRegistry (Dispatcher.ofRegistrations petHandlers).processor

theorem answer_ofRegistry_pet :
    (∀ m, petService.router.route? .get "/later/7" = some m →
        ∃ op, m.routed.operation = .generated op) ∧
      petService.answer .get "/later/7" none = .json 200 (.array [.string "7"]) := by
  have hgenerated : ∀ m, petService.router.route? .get "/later/7" = some m →
      m.routed.operation = .generated (fetchPet "Fetch" "/pets/\x7bid\x7d" false) ∨
        m.routed.operation = .generated (fetchPet "Await" "/later/\x7bid\x7d" true) := by
    intro m hroute
    obtain ⟨t, ht, hop⟩ := Router.operation_mem (by decide +kernel) hroute
    obtain rfl := List.mem_singleton.mp ht
    simpa using hop
  have hsome : ∀ m, petService.router.route? .get "/later/7" = some m →
      ∃ op, m.routed.operation = .generated op := by
    intro m hroute
    rcases hgenerated m hroute with hop | hop
    · exact ⟨_, hop⟩
    · exact ⟨_, hop⟩
  have hmatch : (petService.router.route? .get "/later/7").map
      (fun m => (m.routed.operation.name, m.path, m.query)) = some ("Await", [("id", "7")], []) := by
    decide +kernel
  obtain ⟨m, hroute, heq⟩ := Option.map_eq_some_iff.mp hmatch
  simp only [Prod.mk.injEq] at heq
  obtain ⟨hname, hpath, hquery⟩ := heq
  have hop : m.routed.operation = .generated (fetchPet "Await" "/later/\x7bid\x7d" true) := by
    rcases hgenerated m hroute with hop | hop
    · rw [hop] at hname
      exact absurd hname (by decide)
    · exact hop
  have hbind : (fetchPet "Await" "/later/\x7bid\x7d" true).bind ⟨m.path, m.query, none⟩ =
      .ok [.string "7"] := by
    rw [hpath, hquery]
    rfl
  have hserves : Serves petHandlers .async petKey fun id => .answered (.array [id]) :=
    .inl ⟨_, ⟨[_], [_], rfl, by simp [Registration.slot]⟩, rfl, rfl⟩
  have hanswer := (answer_ofRegistry petRegistry petHandlers .get "/later/7" none hsome).2 m _
    hroute hop
  exact ⟨hsome, (hanswer.2.2 _ hbind).1 _ _ hserves rfl⟩

end Service

end EndpointCompiler
