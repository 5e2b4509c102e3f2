import EndpointCompiler.Proofs.Synthesis.Faithful

/-! Which generated units are source at all. Quotes and backslashes of a name on the wire are
escaped, line breaks are not, and no text of the source language has a line break in it. -/

namespace EndpointCompiler

open Source

/-- A text is read by the parser. -/
def SourceUnit.Accepted (u : SourceUnit) : Prop :=
  ∃ items, parseSource u.text = .ok items

namespace Synthesizer

section

variable {d : HandlerDefinition} {s s' : Synthesizer} {spec : OperationSpec}

theorem Makes.carrier_accepted (h : Makes d s spec s') (hd : d.Valid)
    (htypes : ∀ t ∈ d.types, t.Writable) {c : WrittenShape} (hc : c ∈ spec.carrier) :
    SourceUnit.Accepted ⟨c.name, c.source, none⟩ := by
  obtain ⟨decl, hparse, -⟩ := h.parse_carrier hd htypes hc
  exact ⟨_, hparse⟩

theorem Makes.operation_accepted_iff (h : Makes d s spec s') (hd : d.Valid)
    (htypes : ∀ t ∈ d.types, t.Writable) :
    SourceUnit.Accepted ⟨spec.operation.name, spec.operation.source, none⟩ ↔
      ∀ b ∈ d.parameters, '\n' ∉ b.target.toList := by
  constructor
  · rintro ⟨items, hparse⟩ b hb hbreak
    obtain ⟨e, herror⟩ := h.parse_operation_error hd htypes ⟨b, hb, hbreak⟩
    cases hparse.symm.trans herror
  · intro htargets
    have hbreak : ¬ ∃ b ∈ d.parameters, '\n' ∈ b.target.toList :=
      fun ⟨b, hb, hmem⟩ => htargets b hb hmem
    obtain ⟨decl, hparse, -⟩ := h.parse_operation hd htypes hbreak
    exact ⟨_, hparse⟩

theorem Makes.units_accepted_iff (h : Makes d s spec s') (hd : d.Valid)
    (htypes : ∀ t ∈ d.types, t.Writable) :
    (∀ u ∈ spec.units, u.Accepted) ↔ ∀ b ∈ d.parameters, '\n' ∉ b.target.toList := by
  rw [← h.operation_accepted_iff hd htypes]
  constructor
  · exact fun hunits => hunits _ spec.operation_mem_units
  · intro hoperation u hu
    rcases List.mem_append.mp hu with hu | hu
    · obtain ⟨c, hc, rfl⟩ := Option.map_eq_some_iff.mp (Option.mem_toList.mp hu)
      exact h.carrier_accepted hd htypes hc
    · obtain rfl := List.mem_singleton.mp hu
      exact hoperation

end

/-- All units of a definition that validates are accepted if and only if no name on the wire has a
line break in it, whatever else is in the names. -/
theorem synthesize_accepted_iff {d : HandlerDefinition} (hd : d.validate = .ok ())
    (htypes : ∀ t ∈ d.types, ∃ text, TypeRef.ofText text = .ok t) {names : NameTable}
    {surrogates : SurrogateSource} {spec : OperationSpec} {s' : Synthesizer}
    (h : Runs (synthesize d) ⟨names, surrogates⟩ spec s') :
    (∀ u ∈ spec.units, ∃ items, parseSource u.text = .ok items) ↔
      ∀ b ∈ d.parameters, '\n' ∉ b.target.toList := by
  have hwritable : ∀ t ∈ d.types, t.Writable :=
    fun t ht => TypeRef.exists_ofText_iff.mp (htypes t ht)
  exact (makes_of_runs h).units_accepted_iff (HandlerDefinition.valid_of_validate hd) hwritable

/-- A property in a query under the given name on the wire. -/
def searchDefinition (target : String) : HandlerDefinition :=
  { request := .declared "shop" "Search"
    response := .declared "shop" "Page"
    method := .get
    route := "/search"
    parameters := [⟨"term", target, .queryOrPath, Primitive.string.type⟩] }

theorem searchDefinition_types (target : String) :
    ∀ t ∈ (searchDefinition target).types, ∃ text, TypeRef.ofText text = .ok t := by
  have hall : ∀ t ∈ [TypeRef.declared "shop" "Search", .declared "shop" "Page",
      Primitive.string.type], TypeRef.ofText t.text = .ok t := by decide +kernel
  exact fun t ht => ⟨t.text, hall t ht⟩

theorem synthesize_accepted_quoted :
    (searchDefinition "\"\\").validate = .ok () ∧
      ∃ spec s', Runs (synthesize (searchDefinition "\"\\"))
          ⟨.empty defaultMaxSuffix, .sequential 1⟩ spec s' ∧
        ∀ u ∈ spec.units, ∃ items, parseSource u.text = .ok items := by
  have hd : (searchDefinition "\"\\").validate = .ok () := by decide +kernel
  obtain ⟨spec, s', h⟩ := runs_of_isOk (x := synthesize (searchDefinition "\"\\"))
    (s := ⟨.empty defaultMaxSuffix, .sequential 1⟩) (by decide +kernel)
  have haccepted := synthesize_accepted_iff hd (searchDefinition_types _) h
  exact ⟨hd, spec, s', h, haccepted.mpr (by decide)⟩

/-- A line break passes every check of a definition, and its unit is no source. -/
theorem synthesize_rejected_break :
    (searchDefinition "a\nb").validate = .ok () ∧
      (∀ t ∈ (searchDefinition "a\nb").types, ∃ text, TypeRef.ofText text = .ok t) ∧
      ∃ spec s', Runs (synthesize (searchDefinition "a\nb"))
          ⟨.empty defaultMaxSuffix, .sequential 1⟩ spec s' ∧
        ¬ ∀ u ∈ spec.units, ∃ items, parseSource u.text = .ok items := by
  have hd : (searchDefinition "a\nb").validate = .ok () := by decide +kernel
  have htypes := searchDefinition_types "a\nb"
  obtain ⟨spec, s', h⟩ := runs_of_isOk (x := synthesize (searchDefinition "a\nb"))
    (s := ⟨.empty defaultMaxSuffix, .sequential 1⟩) (by decide +kernel)
  have hwritable : ∀ t ∈ (searchDefinition "a\nb").types, t.Writable :=
    fun t ht => TypeRef.exists_ofText_iff.mp (htypes t ht)
  have haccepted := (makes_of_runs h).units_accepted_iff (HandlerDefinition.valid_of_validate hd)
    hwritable
  exact ⟨hd, htypes, spec, s', h, fun hall => absurd (haccepted.mp hall) (by decide)⟩

end Synthesizer

end EndpointCompiler
