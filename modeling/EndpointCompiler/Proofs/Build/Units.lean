import EndpointCompiler.Build
import EndpointCompiler.Proofs.Compilation.Emission
import EndpointCompiler.Proofs.References
import EndpointCompiler.Proofs.Synthesis.Faithful

/-! The units that a build makes for its definitions, and what is declared in them. -/

namespace EndpointCompiler

open Source

namespace HandlerDefinition

/-- What one unit of a definition declares under its own name. -/
inductive Declares (d : HandlerDefinition) (p : ParsedUnit) : Prop where
  | shape (decl : ShapeDecl) : p.items = [.shape decl] → decl.name.name = p.unit.name →
      '_' ∈ decl.name.name.toList → decl.attributes = [] →
      List.Forall₂ (fun b f => f.name.name = b.source ∧ f.type.toTypeRef = b.type) d.bodyLike
        decl.fields → Declares d p
  | op (decl : OpDecl) (carrier : Option String) : p.items = [.op decl] →
      decl.name.name = p.unit.name → d.SaysOp carrier decl → Declares d p

end HandlerDefinition

theorem Synthesizer.Makes.declares {d : HandlerDefinition} {s s' : Synthesizer}
    {spec : OperationSpec} (h : Synthesizer.Makes d s spec s') (hd : d.Valid)
    (htypes : ∀ t ∈ d.types, t.Writable) {u : SourceUnit} (hu : u ∈ spec.units) {p : ParsedUnit}
    (hname : p.unit.name = u.name) (hp : parseSource u.text = .ok p.items) : d.Declares p := by
  rcases List.mem_append.mp hu with hu | hu
  · obtain ⟨c, hc, rfl⟩ := Option.map_eq_some_iff.mp (Option.mem_toList.mp hu)
    obtain ⟨decl, hparse, hattributes, hdecl, hfields⟩ := h.parse_carrier hd htypes hc
    have hitems : p.items = [.shape decl] := Except.ok.inj (hp.symm.trans hparse)
    exact .shape decl hitems (hdecl.trans hname.symm) (hdecl ▸ h.marked c hc) hattributes hfields
  · obtain rfl := List.mem_singleton.mp hu
    by_cases hbreak : ∃ b ∈ d.parameters, '\n' ∈ b.target.toList
    · obtain ⟨e, he⟩ := h.parse_operation_error hd htypes hbreak
      cases he.symm.trans hp
    · obtain ⟨decl, hparse, hdecl, hsays⟩ := h.parse_operation hd htypes hbreak
      have hitems : p.items = [.op decl] := Except.ok.inj (hp.symm.trans hparse)
      exact .op decl _ hitems (hdecl.trans hname.symm) hsays

/-- Every unit that is made for definitions declares what one of them is written as. -/
theorem declares_of_makes {ds : List HandlerDefinition} {specs : List OperationSpec}
    (h : List.Forall₂ (fun d spec => ∃ s s', Synthesizer.Makes d s spec s') ds specs)
    (hvalid : ∀ d ∈ ds, d.Valid) (htypes : ∀ d ∈ ds, ∀ t ∈ d.types, t.Writable) {u : SourceUnit}
    (hu : u ∈ specs.flatMap (·.units)) {p : ParsedUnit} (hname : p.unit.name = u.name)
    (hp : parseSource u.text = .ok p.items) : ∃ d ∈ ds, d.Declares p := by
  obtain ⟨spec, hspec, hu⟩ := List.mem_flatMap.mp hu
  obtain ⟨d, hd, s, s', hmakes⟩ := exists_left_of_forall₂ h hspec
  exact ⟨d, hd, hmakes.declares (hvalid d hd) (htypes d hd) hu hname hp⟩

section

variable {units : List SourceUnit}

theorem parseUnits_units (units : List SourceUnit) :
    ((parseUnits units).1.map (·.unit)).Sublist units := by
  induction units with
  | nil => exact .slnil
  | cons u units ih =>
    rw [parseUnits]
    cases parseSource u.text with
    | ok items => exact ih.cons_cons u
    | error e => exact ih.cons u

end

section

variable {ds : List HandlerDefinition} {ps : List ParsedUnit}

/-- Declarations are named as their units are. -/
theorem declared_names (h : ∀ p ∈ ps, ∃ d ∈ ds, d.Declares p) :
    ((declaredShapes ps).map shapeName).Sublist (ps.map (·.unit.name)) ∧
      ((declaredOps ps).map opName).Sublist (ps.map (·.unit.name)) := by
  induction ps with
  | nil => exact ⟨.slnil, .slnil⟩
  | cons p ps ih =>
    rw [List.forall_mem_cons] at h
    obtain ⟨⟨d, -, hdeclares⟩, hrest⟩ := h
    obtain ⟨hshapes, hops⟩ := ih hrest
    cases hdeclares with
    | shape decl hitems hname =>
      have hfirst : declaredShapes (p :: ps) = (p.unit, decl) :: declaredShapes ps := by
        simp [declaredShapes, hitems]
      have hnone : declaredOps (p :: ps) = declaredOps ps := by simp [declaredOps, hitems]
      rw [hfirst, hnone, List.map_cons, List.map_cons, shapeName, hname]
      exact ⟨hshapes.cons_cons _, hops.cons _⟩
    | op decl carrier hitems hname =>
      have hnone : declaredShapes (p :: ps) = declaredShapes ps := by simp [declaredShapes, hitems]
      have hfirst : declaredOps (p :: ps) = (p.unit, decl) :: declaredOps ps := by
        simp [declaredOps, hitems]
      rw [hfirst, hnone, List.map_cons, List.map_cons, opName, hname]
      exact ⟨hshapes.cons _, hops.cons_cons _⟩

end

/-- The declaration of a definition's operation. If it has a carrier, that is declared too, with a
field for every binding to the body. -/
def HandlerDefinition.DeclaredIn (d : HandlerDefinition) (ps : List ParsedUnit)
    (o : SourceUnit × OpDecl) : Prop :=
  ∃ carrier, d.SaysOp carrier o.2 ∧ ∀ name ∈ carrier, ∃ x ∈ declaredShapes ps, shapeName x = name ∧
    List.Forall₂ (fun b f => f.name.name = b.source ∧ f.type.toTypeRef = b.type) d.bodyLike x.2.fields

section

variable {d : HandlerDefinition} {ds : List HandlerDefinition} {ps qs : List ParsedUnit}
  {o : SourceUnit × OpDecl}

theorem HandlerDefinition.DeclaredIn.mono (h : d.DeclaredIn ps o)
    (hsub : ∀ x ∈ declaredShapes ps, x ∈ declaredShapes qs) : d.DeclaredIn qs o := by
  obtain ⟨carrier, hsays, hcarrier⟩ := h
  refine ⟨carrier, hsays, fun name hname => ?_⟩
  obtain ⟨x, hx, hdecl⟩ := hcarrier name hname
  exact ⟨x, hsub x hx, hdecl⟩

theorem declaredShapes_append (ps qs : List ParsedUnit) :
    declaredShapes (ps ++ qs) = declaredShapes ps ++ declaredShapes qs :=
  List.flatMap_append

theorem declaredOps_append (ps qs : List ParsedUnit) :
    declaredOps (ps ++ qs) = declaredOps ps ++ declaredOps qs :=
  List.flatMap_append

/-- The units of a definition declare one operation. -/
theorem Synthesizer.Makes.declaredIn {s s' : Synthesizer} {spec : OperationSpec}
    (h : Synthesizer.Makes d s spec s') (hd : d.Valid) (htypes : ∀ t ∈ d.types, t.Writable)
    (hps : List.Forall₂ Parses spec.units ps) : ∃ o, declaredOps ps = [o] ∧ d.DeclaredIn ps o := by
  obtain ⟨us, vs, rfl, hcarrier, hop⟩ := forall₂_append_left hps
  obtain ⟨p, _, hp, hnil, rfl⟩ := List.forall₂_cons_left_iff.mp hop
  obtain rfl := List.forall₂_nil_left_iff.mp hnil
  by_cases hbreak : ∃ b ∈ d.parameters, '\n' ∈ b.target.toList
  · obtain ⟨e, he⟩ := h.parse_operation_error hd htypes hbreak
    cases he.symm.trans hp.items
  obtain ⟨decl, hparse, -, hsays⟩ := h.parse_operation hd htypes hbreak
  have hitems : p.items = [.op decl] := Except.ok.inj (hp.items.symm.trans hparse)
  have hops : declaredOps [p] = [(p.unit, decl)] := by simp [declaredOps, hitems]
  have hnoShape : declaredShapes [p] = [] := by simp [declaredShapes, hitems]
  rw [declaredOps_append, hops]
  cases hc : spec.carrier with
  | none =>
    rw [hc] at hcarrier hsays
    obtain rfl := List.forall₂_nil_left_iff.mp hcarrier
    exact ⟨_, rfl, none, hsays, fun name hn => by cases hn⟩
  | some c =>
    rw [hc] at hcarrier hsays
    obtain ⟨q, _, hq, hnil, rfl⟩ := List.forall₂_cons_left_iff.mp hcarrier
    obtain rfl := List.forall₂_nil_left_iff.mp hnil
    obtain ⟨shape, hparse, -, hname, hfields⟩ := h.parse_carrier hd htypes hc
    have hitems : q.items = [.shape shape] := Except.ok.inj (hq.items.symm.trans hparse)
    have hnoOp : declaredOps [q] = [] := by simp [declaredOps, hitems]
    have hshapes : declaredShapes [q] = [(q.unit, shape)] := by simp [declaredShapes, hitems]
    rw [hnoOp]
    refine ⟨_, rfl, some c.name, hsays, fun name hn => ⟨(q.unit, shape), ?_, ?_, hfields⟩⟩
    · rw [declaredShapes_append, hshapes]
      exact List.mem_cons_self
    · exact hname.trans (Option.some.inj hn)

/-- All definitions are declared, each by one operation, in order. -/
theorem declaredIn_of_makes {specs : List OperationSpec}
    (h : List.Forall₂ (fun d spec => ∃ s s', Synthesizer.Makes d s spec s') ds specs)
    (hvalid : ∀ d ∈ ds, d.Valid) (htypes : ∀ d ∈ ds, ∀ t ∈ d.types, t.Writable)
    (hps : List.Forall₂ Parses (specs.flatMap (·.units)) ps) :
    List.Forall₂ (fun d o => d.DeclaredIn ps o) ds (declaredOps ps) := by
  induction h generalizing ps with
  | nil =>
    obtain rfl := List.forall₂_nil_left_iff.mp hps
    exact .nil
  | cons hmakes _ ih =>
    rw [List.forall_mem_cons] at hvalid htypes
    rw [List.flatMap_cons] at hps
    obtain ⟨us, vs, rfl, hfirst, hrest⟩ := forall₂_append_left hps
    obtain ⟨s, s', hmakes⟩ := hmakes
    obtain ⟨o, hops, hdeclared⟩ := hmakes.declaredIn hvalid.1 htypes.1 hfirst
    rw [declaredOps_append, hops]
    refine .cons (hdeclared.mono fun x hx => ?_) ((ih hvalid.2 htypes.2 hrest).imp fun d o ho => ?_)
    · rw [declaredShapes_append]
      exact List.mem_append_left _ hx
    · refine ho.mono fun x hx => ?_
      rw [declaredShapes_append]
      exact List.mem_append_right _ hx

end

/-- What a build has before it compiles: units that are made for valid definitions, and references
to all modules that their types name. -/
structure Builder.Prepared (ds : List HandlerDefinition) (r : ReferenceSet)
    (units : List SourceUnit) : Prop where
  valid : ∀ d ∈ ds, d.Valid
  covers : ∀ d ∈ ds, ∀ t ∈ d.types, r.Covers t
  located : ∀ d ∈ ds, ∀ t ∈ d.types, t.Located
  made : ∃ specs, units = specs.flatMap (·.units) ∧
    List.Forall₂ (fun d spec => ∃ s s', Synthesizer.Makes d s spec s') ds specs
  names : (units.map (·.name)).Nodup

namespace Builder

variable {b : Builder} {ds : List HandlerDefinition} {d : HandlerDefinition} {r : ReferenceSet}
  {units : List SourceUnit}

theorem forM_validate_ok_iff :
    ds.forM (·.validate) = .ok () ↔ ∀ d ∈ ds, d.validate = .ok () := by
  induction ds with
  | nil => exact ⟨fun _ => nofun, fun _ => rfl⟩
  | cons d ds ih =>
    have hcons : (d :: ds).forM (·.validate) = (d.validate >>= fun _ => ds.forM (·.validate)) := rfl
    rw [hcons, List.forall_mem_cons, ← ih]
    cases d.validate <;> simp [bind, Except.bind]

theorem types_used (hd : d ∈ ds) {P : TypeRef → Prop} (hP : ∀ t, P t.unwrapAsync ↔ P t)
    (hused : ∀ t ∈ definitionTypes ds, P t) : ∀ t ∈ d.types, P t := by
  have hall : ∀ t ∈ d.request :: d.response.unwrapAsync :: d.parameters.map (·.type), P t :=
    fun t ht => hused t (List.mem_flatMap.mpr ⟨d, hd, ht⟩)
  rw [List.forall_mem_cons, List.forall_mem_cons, hP] at hall
  rw [HandlerDefinition.types, List.forall_mem_cons, List.forall_mem_cons]
  exact hall

theorem prepare_eq_ok_iff : b.prepare ds = .ok (r, units) ↔
    ds.forM (·.validate) = .ok () ∧ b.catalog.resolve (definitionTypes ds) = .ok r ∧
      ∃ specs, b.specs ds = .ok specs ∧ units = specs.flatMap (·.units) := by
  unfold prepare resolve validate
  cases ds.forM (·.validate) with
  | error e => simp [Except.mapError, bind, Except.bind]
  | ok _ =>
    cases b.catalog.resolve (definitionTypes ds) with
    | error e => simp [Except.mapError, bind, Except.bind]
    | ok r' =>
      cases b.specs ds <;> simp [Except.mapError, bind, Except.bind, pure, Except.pure, eq_comm]

theorem runs_of_specs {specs : List OperationSpec} (h : b.specs ds = .ok specs) : ∃ s',
    Synthesizer.Runs (Synthesizer.synthesizeAll ds) (b.settings.synthesizer b.randomBits) specs s' :=
  ⟨(Synthesizer.outcome (Synthesizer.synthesizeAll ds) (b.settings.synthesizer b.randomBits)).2,
    Prod.ext h rfl⟩

theorem prepared_of_prepare (h : b.prepare ds = .ok (r, units)) : Prepared ds r units := by
  obtain ⟨hvalid, hresolve, specs, hspecs, rfl⟩ := prepare_eq_ok_iff.mp h
  obtain ⟨s', hruns⟩ := runs_of_specs hspecs
  obtain ⟨hmade, hnames, -⟩ := Synthesizer.makes_of_runs_all hruns
  have hcovers : ∀ t ∈ definitionTypes ds, r.Covers t :=
    fun _ ht => ReferenceSet.covers_of_resolve hresolve ht
  have hlocated : ∀ t ∈ definitionTypes ds, t.Located :=
    fun _ ht => TypeRef.located_of_resolve hresolve ht
  have hvalid := forM_validate_ok_iff.mp hvalid
  exact ⟨fun d hd => HandlerDefinition.valid_of_validate (hvalid d hd),
    fun d hd => types_used hd (fun _ => ReferenceSet.covers_unwrapAsync) hcovers,
    fun d hd => types_used hd (fun _ => TypeRef.located_unwrapAsync) hlocated,
    ⟨specs, rfl, hmade⟩, hnames⟩

end Builder

end EndpointCompiler
