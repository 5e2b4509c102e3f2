import EndpointCompiler.Proofs.Build.Generated
import EndpointCompiler.Proofs.Build.Units

/-! Well-typed definitions. Their types are declared in a catalog, and the bindings of a request suit
the fields that its type has there. What this comes to for the checker is that a scope with
references to the catalog admits all of their types. -/

namespace EndpointCompiler

open Source Checked

namespace TypeRef

theorem unwrapAsync_mem_subterms (t : TypeRef) : t.unwrapAsync ∈ t.subterms := by
  cases t with
  | async t => exact List.mem_cons_of_mem _ t.mem_subterms_self
  | _ => exact mem_subterms_self _

theorem primitive?_type (p : Primitive) : p.type.primitive? = some p := by
  cases p <;> rfl

end TypeRef

theorem isWireScalar_type {p : Primitive} (hp : p ≠ .object) : isWireScalar p.type = true := by
  rw [isWireScalar, TypeRef.primitive?_type]
  simpa using hp

namespace HandlerDefinition

/-- A definition is well typed against a catalog. Its request type takes no arguments and declares
every property that is bound, with the type of the binding. What comes from the path or the query is
primitive, with one type for one name on the wire, and every placeholder of the route is bound. -/
structure WellTyped (c : Catalog) (d : HandlerDefinition) : Prop where
  valid : d.validate = .ok ()
  textual : ∀ t ∈ d.types, ∃ text, TypeRef.ofText text = .ok t
  declared : ∀ t ∈ definitionTypes [d], c.Declares t
  request : ∃ id name, d.request = .named id name []
  fields : ∀ b ∈ d.parameters, ∃ info, c.lookup? d.request = some info ∧
    info.field? b.source = some b.type
  scalars : ∀ b ∈ d.parameters, b.kind = .queryOrPath → ∃ p ≠ Primitive.object, b.type = p.type
  shared : ∀ b ∈ d.parameters, ∀ b' ∈ d.parameters, b.kind = .queryOrPath →
    b'.kind = .queryOrPath → b.target = b'.target → b.type = b'.type
  placeholders : ∀ name ∈ Route.placeholders d.route,
    ∃ b ∈ d.parameters, b.kind = .queryOrPath ∧ b.target = name
  breaks : ∀ b ∈ d.parameters, '\n' ∉ b.target.toList

/-- No type of a definition is of the given module. -/
def Foreign (module : ModuleId) (d : HandlerDefinition) : Prop :=
  ∀ t ∈ d.types, ∀ u ∈ t.subterms, u.module? ≠ some module

/-- What the checker goes by: the types of a definition can be written, and those of its bindings
are those of the fields that they set. -/
structure TypedIn (s : TypeScope) (d : HandlerDefinition) : Prop where
  admits : ∀ t ∈ definitionTypes [d], s.Admits false t
  located : ∀ t ∈ d.types, t.Located
  fields : ∃ fields, s.fieldsOf? d.request = some fields ∧
    ∀ b ∈ d.parameters, declaredType? fields b.source = some b.type
  scalars : ∀ b ∈ d.parameters, b.kind = .queryOrPath → isWireScalar b.type = true
  shared : ∀ b ∈ d.parameters, b.kind = .queryOrPath → d.wireType b.wireKey = b.type
  placeholders : ∀ name ∈ Route.placeholders d.route, (false, name) ∈ wireKeys d.parameters

theorem mem_definitionTypes {d : HandlerDefinition} {t : TypeRef} :
    t ∈ definitionTypes [d] ↔
      t = d.request ∨ t = d.response.unwrapAsync ∨ ∃ b ∈ d.parameters, b.type = t := by
  simp [definitionTypes]

theorem BindingKind.isBodyLike_eq_false_iff {k : BindingKind} :
    k.isBodyLike = false ↔ k = .queryOrPath := by
  cases k <;> simp [BindingKind.isBodyLike]

end HandlerDefinition

namespace TypeScope

variable {s : TypeScope} {c : Catalog}

/-- The module of a type is not the scope's own, and is referred to as it is in the catalog. -/
def Refers (s : TypeScope) (c : Catalog) (t : TypeRef) : Prop :=
  t.module? ≠ some s.module ∧
    ∀ id m, t.module? = some id → c.locate t = .ok m → s.references.module? id = some m

theorem Refers.lookup? {id : Option ModuleId} {name : String} {args : List TypeRef}
    (hs : s.Refers c (.named id name args)) (hc : c.DeclaresPart (.named id name args)) :
    ∃ m info, id = some m ∧ m ≠ s.module ∧ s.references.lookup? m name = some info ∧
      c.lookup? (.named id name args) = some info ∧ info.genericArity = args.length := by
  obtain ⟨m, info, hm, hinfo, harity⟩ := hc
  obtain ⟨id', hid, hfound, -⟩ := Catalog.locate_eq_ok_iff.mp hm
  obtain rfl : id = some id' := hid
  refine ⟨id', info, rfl, fun he => hs.1 (congrArg some he), ?_, ?_, harity⟩
  · rw [ReferenceSet.lookup?, hs.2 id' m rfl hm, Option.bind_some, hinfo]
  · rw [Catalog.lookup?, hfound, Option.bind_some, hinfo]

mutual

theorem admits_of_declares (t : TypeRef)
    (h : ∀ u ∈ t.subterms, c.DeclaresPart u ∧ s.Refers c u) : s.Admits false t := by
  match t with
  | .named id name args =>
    obtain ⟨hc, hs⟩ := h _ (TypeRef.mem_subterms_self _)
    obtain ⟨m, info, rfl, hown, hinfo, -, harity⟩ := hs.lookup? hc
    rw [Admits, if_neg hown]
    exact ⟨⟨info, hinfo, harity⟩, admitsAll_of_declares args fun u hu => h u (List.mem_cons_of_mem _ hu)⟩
  | .array t =>
    rw [Admits]
    exact admits_of_declares t fun u hu => h u (List.mem_cons_of_mem _ hu)
  | .async t => exact absurd (h _ (TypeRef.mem_subterms_self _)).1 id

theorem admitsAll_of_declares (ts : List TypeRef)
    (h : ∀ u ∈ TypeRef.subtermsOfAll ts, c.DeclaresPart u ∧ s.Refers c u) : s.AdmitsAll ts := by
  match ts with
  | [] => trivial
  | t :: ts =>
    rw [TypeRef.subtermsOfAll, List.forall_mem_append] at h
    exact ⟨admits_of_declares t h.1, admitsAll_of_declares ts h.2⟩

end

theorem resolve_of_admits {allowAsync : Bool} {t : TypeExpr} {u : TypeRef} (ht : t.toTypeRef = u)
    (hu : u.Located) (h : s.Admits allowAsync u) : (s.resolve allowAsync t).Yields u := by
  rw [resolve_yields_iff, ht]
  exact ⟨h, (hu.qualify_eq s.module).symm⟩

/-- What is admitted as it stands is so where it may come asynchronously. -/
theorem admits_async {t : TypeRef} (h : s.Admits false t.unwrapAsync) : s.Admits true t := by
  cases t with
  | async t => exact ⟨rfl, h⟩
  | array t => exact h
  | named id name args =>
    cases id with
    | none => exact h
    | some id => exact h

end TypeScope

namespace HandlerDefinition

variable {c : Catalog} {d : HandlerDefinition} {ds : List HandlerDefinition} {r : ReferenceSet}
  {s : TypeScope}

/-- All named types that well-typed definitions use can be located. -/
theorem exists_resolve (hbase : ∀ t ∈ Catalog.bootstrapTypes, ∃ m, c.locate t = .ok m)
    (h : ∀ d ∈ ds, d.WellTyped c) : ∃ r, c.resolve (definitionTypes ds) = .ok r := by
  refine Catalog.exists_resolve_iff.mpr fun t ht u hu hnamed => ?_
  rcases List.mem_append.mp ht with ht | ht
  · have hself : u = t := by
      have hplain : ∀ t ∈ Catalog.bootstrapTypes, t.subterms = [t] := by
        intro t ht
        simp only [Catalog.bootstrapTypes, List.mem_cons, List.not_mem_nil, or_false] at ht
        rcases ht with rfl | rfl | rfl <;> rfl
      exact List.mem_singleton.mp (hplain t ht ▸ hu)
    exact hself ▸ hbase t ht
  · obtain ⟨d, hd, ht⟩ := List.mem_flatMap.mp ht
    have hdeclared : c.DeclaresPart u :=
      (h d hd).declared t (List.mem_flatMap.mpr ⟨d, List.mem_singleton_self d, ht⟩) u hu
    cases u with
    | named id name args =>
      obtain ⟨m, -, hm, -⟩ := hdeclared
      exact ⟨m, hm⟩
    | array u => cases hnamed
    | async u => cases hnamed

theorem definitionTypes_subset (hd : d ∈ ds) {t : TypeRef} (ht : t ∈ definitionTypes [d]) :
    t ∈ definitionTypes ds := by
  obtain ⟨d', hd', hmem⟩ := List.mem_flatMap.mp ht
  obtain rfl := List.mem_singleton.mp hd'
  exact List.mem_flatMap.mpr ⟨d', hd, hmem⟩

theorem Foreign.of_mem {module : ModuleId} (h : d.Foreign module) {t u : TypeRef}
    (ht : t ∈ definitionTypes [d]) (hu : u ∈ t.subterms) : u.module? ≠ some module := by
  rcases mem_definitionTypes.mp ht with rfl | rfl | ⟨b, hb, rfl⟩
  · exact h _ (by simp [types]) u hu
  · exact h _ (by simp [types]) u (TypeRef.subterms_trans d.response.unwrapAsync_mem_subterms hu)
  · exact h _ (mem_types hb) u hu

theorem Foreign.refers (hown : d.Foreign s.module) (hd : d ∈ ds)
    (hr : c.resolve (definitionTypes ds) = .ok s.references) {t u : TypeRef}
    (ht : t ∈ definitionTypes [d]) (hu : u ∈ t.subterms) : s.Refers c u := by
  refine ⟨hown.of_mem ht hu, fun id m hid hm => ?_⟩
  have hused : t ∈ Catalog.bootstrapTypes ++ definitionTypes ds :=
    List.mem_append_right _ (definitionTypes_subset hd ht)
  exact Catalog.module?_of_resolve hr hused hu hid hm

/-- The one type of the bindings of a group is the type that the group is read as. -/
theorem WellTyped.wireType_eq (h : d.WellTyped c) {b : ParameterBinding} (hb : b ∈ d.parameters)
    (hkind : b.kind = .queryOrPath) : d.wireType b.wireKey = b.type := by
  have hkey : b.wireKey ∈ wireKeys d.parameters := mem_wireKeys.mpr ⟨b, hb, rfl⟩
  obtain ⟨b', bs, hbs⟩ := List.exists_cons_of_ne_nil (bindingsOf_ne_nil hkey)
  obtain ⟨hb', hsame⟩ := mem_bindingsOf.mp (hbs ▸ List.mem_cons_self : b' ∈ bindingsOf _ b.wireKey)
  obtain ⟨hbody, htarget⟩ := Prod.mk.inj hsame
  rw [BindingKind.isBodyLike_eq_false_iff.mpr hkind, BindingKind.isBodyLike_eq_false_iff] at hbody
  rw [wireType, hbs]
  exact h.shared b' hb' b hb hbody hkind htarget

/-- In a scope that refers to the modules of the catalog, a well-typed definition is typed. -/
theorem WellTyped.typedIn (h : d.WellTyped c)
    (hr : c.resolve (definitionTypes ds) = .ok s.references) (hd : d ∈ ds)
    (hown : d.Foreign s.module) : d.TypedIn s := by
  have hlocated : ∀ t ∈ definitionTypes ds, t.Located :=
    fun _ ht => TypeRef.located_of_resolve hr ht
  refine
    { admits := fun t ht => ?_
      located := Builder.types_used hd (fun _ => TypeRef.located_unwrapAsync) hlocated
      fields := ?_
      scalars := fun b hb hkind => ?_
      shared := fun b hb => h.wireType_eq hb
      placeholders := fun name hname => ?_ }
  · apply TypeScope.admits_of_declares t
    exact fun u hu => ⟨h.declared t ht u hu, hown.refers hd hr ht hu⟩
  · have hmem : d.request ∈ definitionTypes [d] := mem_definitionTypes.mpr (.inl rfl)
    have hdeclared := h.declared _ hmem _ (TypeRef.mem_subterms_self _)
    have hrefers := hown.refers hd hr hmem (TypeRef.mem_subterms_self _)
    obtain ⟨id, name, hrequest⟩ := h.request
    rw [hrequest] at hdeclared hrefers
    obtain ⟨m, info, rfl, hother, hlookup, hinfo, -⟩ := hrefers.lookup? hdeclared
    refine ⟨info.fields, ?_, fun b hb => ?_⟩
    · rw [hrequest, TypeScope.fieldsOf?, if_neg hother, hlookup]
      rfl
    · obtain ⟨info', hinfo', hfield⟩ := h.fields b hb
      rw [hrequest, hinfo] at hinfo'
      obtain rfl := Option.some.inj hinfo'
      exact hfield
  · obtain ⟨p, hp, htype⟩ := h.scalars b hb hkind
    rw [htype]
    exact isWireScalar_type hp
  · obtain ⟨b, hb, hkind, rfl⟩ := h.placeholders name hname
    refine mem_wireKeys.mpr ⟨b, hb, ?_⟩
    rw [ParameterBinding.wireKey, BindingKind.isBodyLike_eq_false_iff.mpr hkind]

end HandlerDefinition

end EndpointCompiler
