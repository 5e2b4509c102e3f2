import EndpointCompiler.Proofs.Build.Units
import EndpointCompiler.Proofs.Synthesis.Supply

/-! Generated names never collide. Units, and what they declare, are named apart from each other and
from all names that were taken before; so are the parameters of an operation. -/

namespace EndpointCompiler

open Source

theorem SourceUnit.fileName_inj {filePrefix : String} {u u' : SourceUnit}
    (h : u.fileName filePrefix = u'.fileName filePrefix) : u.name = u'.name := by
  have hlist := congrArg String.toList h
  simp only [fileName, String.toList_append] at hlist
  exact String.toList_inj.mp (List.append_cancel_left (List.append_cancel_right hlist))

namespace OperationSpec

/-- Carriers and operations are named as their units. -/
theorem names_sublist (specs : List OperationSpec) :
    ((specs.filterMap (·.carrier)).map (·.name)).Sublist ((specs.flatMap (·.units)).map (·.name)) ∧
      (specs.map (·.operation.name)).Sublist ((specs.flatMap (·.units)).map (·.name)) := by
  induction specs with
  | nil => exact ⟨.slnil, .slnil⟩
  | cons spec specs ih =>
    rw [List.flatMap_cons, List.map_append, units_names, List.append_assoc, List.map_cons]
    constructor
    · cases hc : spec.carrier with
      | none => simpa [hc] using ih.1.cons spec.operation.name
      | some c => simpa [hc] using ih.1.cons spec.operation.name
    · exact (ih.2.cons_cons spec.operation.name).trans (List.sublist_append_right _ _)

end OperationSpec

namespace Synthesizer

section

variable {d : HandlerDefinition} {ds : List HandlerDefinition} {s s' : Synthesizer}
  {spec : OperationSpec} {specs : List OperationSpec}

/-- What is left to do once an operation and its carrier have names keeps the name. -/
theorem operation_named {names : NameTable} {s₁ : Synthesizer} {carrier : Option WrittenShape}
    {name requestVar carrierName : String}
    (h : Runs (do
      let made ← liftM (nameParams (Route.placeholders d.route) carrierName names
        (groupBindings d.parameters))
      pure ⟨carrier, ⟨name, d.method, d.route, made.1, d.request, d.response, requestVar,
        made.2⟩⟩) s₁ spec s') : spec.operation.name = name := by
  rw [runs_bind] at h
  obtain ⟨made, s₂, -, h⟩ := h
  obtain ⟨rfl, -⟩ := runs_pure.mp h
  rfl

/-- An operation has the first free form of the name of its request. -/
theorem named_of_runs (h : Runs (synthesize d) s spec s') :
    NameTable.FirstFree (· ∈ s.names.assigned) (sanitizeIdent d.request.simpleName)
      spec.operation.name := by
  unfold synthesize at h
  rw [runs_bind] at h
  obtain ⟨name, s₁, hallocate, h⟩ := h
  obtain ⟨names, hname, -⟩ := runs_allocate.mp hallocate
  rw [runs_bind] at h
  obtain ⟨id, s₂, -, h⟩ := h
  have hfree := NameTable.allocate_firstFree hname
  change Runs (ite ((bodyBindings d).isEmpty = true) _ _) _ _ _ at h
  by_cases hbody : (bodyBindings d).isEmpty = true
  · rw [if_pos hbody, runs_bind] at h
    obtain ⟨carrier, s₃, -, h⟩ := h
    rwa [operation_named h]
  · rw [if_neg hbody, runs_bind] at h
    obtain ⟨shape, s₃, -, h⟩ := h
    rw [runs_bind] at h
    obtain ⟨carrier, s₄, -, h⟩ := h
    rwa [operation_named h]

/-- A name is taken if the table has it or an operation or its carrier is named by it. -/
def TakenBy (names : NameTable) (specs : List OperationSpec) (n : String) : Prop :=
  n ∈ names.assigned ∨ n ∈ (specs.flatMap (·.units)).map (·.name)

theorem Makes.takenBy_iff (h : Makes d s spec s') (specs : List OperationSpec) (n : String) :
    TakenBy s'.names specs n ↔ TakenBy s.names (spec :: specs) n := by
  rw [TakenBy, TakenBy, h.assigned, List.flatMap_cons, List.map_append, List.mem_append,
    List.mem_append]
  exact (or_congr_left or_comm).trans or_assoc

/-- Each operation has the first form of the name of its request that is free when it is made. -/
theorem named_of_runs_all (h : Runs (synthesizeAll ds) s specs s') :
    specs.length = ds.length ∧ ∀ (i : Nat) (d : HandlerDefinition) (spec : OperationSpec),
      ds[i]? = some d → specs[i]? = some spec →
        NameTable.FirstFree (TakenBy s.names (specs.take i)) (sanitizeIdent d.request.simpleName)
          spec.operation.name := by
  unfold synthesizeAll at h
  induction ds generalizing s specs with
  | nil =>
    rw [List.mapM_nil] at h
    obtain ⟨rfl, rfl⟩ := runs_pure.mp h
    exact ⟨rfl, fun i d spec hd => by cases hd⟩
  | cons d ds ih =>
    rw [List.mapM_cons, runs_bind] at h
    obtain ⟨spec, s₁, hspec, h⟩ := h
    rw [runs_bind] at h
    obtain ⟨specs, s₂, hspecs, h⟩ := h
    obtain ⟨rfl, rfl⟩ := runs_pure.mp h
    obtain ⟨hlength, hnamed⟩ := ih hspecs
    refine ⟨congrArg Nat.succ hlength, fun i e spec' he hspec' => ?_⟩
    cases i with
    | zero =>
      cases he
      cases hspec'
      exact (named_of_runs hspec).congr fun n => by simp [TakenBy]
    | succ i =>
      have hfirst := hnamed i e spec' he hspec'
      exact hfirst.congr fun n => (makes_of_runs hspec).takenBy_iff (specs.take i) n

end

end Synthesizer

section

variable {ds : List HandlerDefinition} {specs : List OperationSpec}

/-- What the units declare is named apart as they are. -/
theorem declared_names_nodup
    (h : List.Forall₂ (fun d spec => ∃ s s', Synthesizer.Makes d s spec s') ds specs)
    (hvalid : ∀ d ∈ ds, d.Valid) (htypes : ∀ d ∈ ds, ∀ t ∈ d.types, t.Writable)
    (hnames : ((specs.flatMap (·.units)).map (·.name)).Nodup) :
    ((declaredShapes (parseUnits (specs.flatMap (·.units))).1).map shapeName).Nodup ∧
      ((declaredOps (parseUnits (specs.flatMap (·.units))).1).map opName).Nodup := by
  have hdeclares : ∀ p ∈ (parseUnits (specs.flatMap (·.units))).1, ∃ d ∈ ds, d.Declares p := by
    intro p hp
    obtain ⟨hunit, hparse⟩ := parseUnits_items hp
    exact declares_of_makes h hvalid htypes hunit rfl hparse
  have hunits : ((parseUnits (specs.flatMap (·.units))).1.map (·.unit.name)).Nodup := by
    have hsublist := (parseUnits_units (specs.flatMap (·.units))).map SourceUnit.name
    rw [List.map_map] at hsublist
    exact hnames.sublist hsublist
  obtain ⟨hshapes, hops⟩ := declared_names hdeclares
  exact ⟨hunits.sublist hshapes, hunits.sublist hops⟩

end

namespace Synthesizer

/-- However the names of requests, carriers and parameters imitate each other, no two units have
one name, nor one file, and nothing is declared twice. -/
theorem synthesizeAll_distinct {names : NameTable} {surrogates : SurrogateSource}
    {ds : List HandlerDefinition} {specs : List OperationSpec} {s' : Synthesizer}
    (h : Runs (synthesizeAll ds) ⟨names, surrogates⟩ specs s') :
    ((specs.flatMap (·.units)).map (·.name)).Nodup ∧
      (∀ u ∈ specs.flatMap (·.units), isPropertyName u.name = true ∧ u.name ∉ names.assigned) ∧
      (∀ filePrefix, ((specs.flatMap (·.units)).map (·.fileName filePrefix)).Nodup) ∧
      ((specs.filterMap (·.carrier)).map (·.name)).Nodup ∧
      (specs.map (·.operation.name)).Nodup ∧
      ((∀ d ∈ ds, d.validate = .ok () ∧ ∀ t ∈ d.types, ∃ text, TypeRef.ofText text = .ok t) →
        ((declaredShapes (parseUnits (specs.flatMap (·.units))).1).map shapeName).Nodup ∧
          ((declaredOps (parseUnits (specs.flatMap (·.units))).1).map opName).Nodup) ∧
      (∀ spec ∈ specs, (spec.operation.params.map (·.name)).Nodup ∧
        ∀ p ∈ spec.operation.params,
          isPropertyName p.name = true ∧ p.name ≠ spec.operation.requestVar) ∧
      specs.length = ds.length ∧
      ∀ (i : Nat) (d : HandlerDefinition) (spec : OperationSpec),
        ds[i]? = some d → specs[i]? = some spec →
          NameTable.FirstFree (TakenBy names (specs.take i)) (sanitizeIdent d.request.simpleName)
            spec.operation.name := by
  obtain ⟨hmakes, hnames, hfresh⟩ := makes_of_runs_all h
  obtain ⟨hcarriers, hoperations⟩ := OperationSpec.names_sublist specs
  obtain ⟨hlength, hfirst⟩ := named_of_runs_all h
  refine ⟨hnames, fun u hu => ⟨?_, hfresh u hu⟩, fun filePrefix => ?_, hnames.sublist hcarriers,
    hnames.sublist hoperations, fun hds => ?_, fun spec hspec => ?_, hlength, hfirst⟩
  · obtain ⟨spec, hspec, hu⟩ := List.mem_flatMap.mp hu
    obtain ⟨d, -, s, s', hmade⟩ := exists_left_of_forall₂ hmakes hspec
    exact hmade.words u hu
  -- A prefix and an extension around different names leave them different.
  · have hunits := List.pairwise_map.mp hnames
    exact List.pairwise_map.mpr (hunits.imp fun hne he => hne (SourceUnit.fileName_inj he))
  · exact declared_names_nodup hmakes (fun d hd => HandlerDefinition.valid_of_validate (hds d hd).1)
      (fun d hd t ht => TypeRef.exists_ofText_iff.mp ((hds d hd).2 t ht)) hnames
  · obtain ⟨d, -, s, s', hmade⟩ := exists_left_of_forall₂ hmakes hspec
    refine ⟨hmade.paramNames, fun p hp => ⟨?_, hmade.paramVar p hp⟩⟩
    obtain ⟨g, -, hgives⟩ := exists_left_of_forall₂ hmade.params hp
    exact hgives.name

/-- A request with a carrier and parameters that imitate its variable and each other. -/
def imitatingDefinition (request : String) : HandlerDefinition :=
  { request := .declared "shop" request
    response := .declared "shop" "Pong"
    method := .post
    route := "/ping"
    parameters := [⟨"note", "note", .body, Primitive.string.type⟩,
      ⟨"variable", "request_0001", .queryOrPath, Primitive.string.type⟩,
      ⟨"first", "page-size", .queryOrPath, Primitive.string.type⟩,
      ⟨"second", "page_size", .queryOrPath, Primitive.string.type⟩] }

theorem synthesizeAll_distinct_imitating : ∃ specs s',
    Runs (synthesizeAll (["Ping", "Ping2", "Ping"].map imitatingDefinition))
      ⟨⟨["PingBody_0001"], defaultMaxSuffix⟩, .sequential 1⟩ specs s' ∧
    (specs.flatMap (·.units)).map (·.name) =
      ["PingBody_00012", "Ping", "Ping2Body_0002", "Ping2", "Ping3Body_0003", "Ping3"] ∧
    ((specs.flatMap (·.units)).map (·.name)).Nodup ∧
    ∀ spec ∈ specs, (spec.operation.params.map (·.name)).Nodup := by
  obtain ⟨specs, s', h⟩ := runs_of_isOk
    (x := synthesizeAll (["Ping", "Ping2", "Ping"].map imitatingDefinition))
    (s := ⟨⟨["PingBody_0001"], defaultMaxSuffix⟩, .sequential 1⟩) (by decide +kernel)
  have hnames : (outcome (synthesizeAll (["Ping", "Ping2", "Ping"].map imitatingDefinition))
      ⟨⟨["PingBody_0001"], defaultMaxSuffix⟩, .sequential 1⟩).1.map
        (fun specs => (specs.flatMap (·.units)).map (·.name)) =
      .ok ["PingBody_00012", "Ping", "Ping2Body_0002", "Ping2", "Ping3Body_0003", "Ping3"] := by
    decide +kernel
  obtain ⟨hdistinct, -, -, -, -, -, hparams, -⟩ := synthesizeAll_distinct h
  rw [h] at hnames
  exact ⟨specs, s', h, Except.ok.inj hnames, hdistinct, fun spec hspec => (hparams spec hspec).1⟩

end Synthesizer

end EndpointCompiler
