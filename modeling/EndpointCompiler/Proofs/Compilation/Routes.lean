import EndpointCompiler.Proofs.Checking.Declarations
import EndpointCompiler.Proofs.Checking.Ignored
import EndpointCompiler.Proofs.Compilation.Soundness

/-! Routes and their parameters. Every path parameter of a compiled operation is bound to a
placeholder of the route. A placeholder is left without a parameter only if one that is bound to
another placeholder looks as if it were meant for it. -/

namespace EndpointCompiler

open Source Checked

def OperationImage.pathNames (op : OperationImage) : List String :=
  (op.params.filter (·.source == .path)).map (·.wireName)

namespace Source

def Attribute.text? (a : Attribute) : Option String :=
  match a.args with
  | [.text text _] => some text
  | _ => none

/-- The name under which a source with its attribute binds a parameter. -/
def ParamDecl.wireName (p : ParamDecl) (a : Attribute) : String :=
  a.text?.getD p.name.name

/-- Whether a parameter has the name of a placeholder, or an attribute without effect that says
it. -/
def ParamDecl.resembles (placeholder : String) (p : ParamDecl) : Bool :=
  p.name.name == placeholder || p.ignored.any (·.text? == some placeholder)

/-- Whether a path parameter resembles a placeholder but is bound to another. -/
def ParamDecl.strays (placeholder : String) (p : ParamDecl) : Bool :=
  match p.sources with
  | [(.path, a)] => p.wireName a != placeholder && p.resembles placeholder
  | _ => false

theorem ParamDecl.mem_sources {p : ParamDecl} {source : ParamSource} {a : Attribute} :
    (source, a) ∈ p.sources ↔
      a ∈ p.attributes ∧ ParamSource.ofKeyword? a.name.name = some source := by
  simp only [sources, List.mem_filterMap, Option.map_eq_some_iff, Prod.mk.injEq]
  constructor
  · rintro ⟨b, hb, source', hsource, rfl, rfl⟩
    exact ⟨hb, hsource⟩
  · rintro ⟨ha, hsource⟩
    exact ⟨a, ha, source, hsource, rfl, rfl⟩

end Source

section

variable {s : TypeScope} {p : ParamDecl} {image : ParamImage} {op : OperationImage}
  {placeholder : String}

theorem OperationImage.mem_pathNames :
    placeholder ∈ op.pathNames ↔ ∃ p ∈ op.params, p.source = .path ∧ p.wireName = placeholder := by
  simp only [pathNames, List.mem_map, List.mem_filter, beq_iff_eq, and_assoc]

theorem meantFor_eq_true_iff : ParamDecl.meantFor placeholder p = true ↔
    (∃ a ∈ p.attributes, a.name.name = "path") ∧
      (p.name.name = placeholder ∨ ∃ a ∈ p.attributes, a.text? = some placeholder) := by
  have htext : ∀ a : Attribute, (match a.args with
      | [.text wireName _] => wireName == placeholder
      | _ => false) = true ↔ a.text? = some placeholder := by
    intro a
    unfold Attribute.text?
    split <;> simp
  simp only [ParamDecl.meantFor, Bool.and_eq_true, Bool.or_eq_true, List.any_eq_true, beq_iff_eq]
  exact and_congr_right fun _ => or_congr_right (exists_congr fun a =>
    and_congr_right fun _ => htext a)

/-- A parameter counts as meant for a placeholder if its name on the wire is the placeholder, or if
it only resembles it. -/
theorem meantFor_iff {source : ParamSource} {a : Attribute} (hsources : p.sources = [(source, a)]) :
    ParamDecl.meantFor placeholder p = true ↔
      source = .path ∧ (p.wireName a = placeholder ∨ p.resembles placeholder = true) := by
  -- The attributes of the parameter are the one that binds it and those without effect.
  obtain ⟨ha, hkeyword⟩ := ParamDecl.mem_sources.mp (hsources ▸ List.mem_singleton_self (source, a))
  have hpath : (∃ b ∈ p.attributes, b.name.name = "path") ↔ source = .path := by
    constructor
    · rintro ⟨b, hb, hname⟩
      have hmem : (.path, b) ∈ p.sources :=
        ParamDecl.mem_sources.mpr ⟨hb, ParamSource.ofKeyword?_eq_some_iff.mpr hname.symm⟩
      rw [hsources, List.mem_singleton] at hmem
      exact (congrArg Prod.fst hmem).symm
    · rintro rfl
      exact ⟨a, ha, (ParamSource.ofKeyword?_eq_some_iff.mp hkeyword).symm⟩
  have hsplit : ∀ b ∈ p.attributes, b = a ∨ b ∈ p.ignored := by
    intro b hb
    cases hb' : ParamSource.ofKeyword? b.name.name with
    | none => exact .inr (List.mem_filter.mpr ⟨hb, by rw [hb']; rfl⟩)
    | some source' =>
      have hmem := ParamDecl.mem_sources.mpr ⟨hb, hb'⟩
      rw [hsources, List.mem_singleton] at hmem
      exact .inl (congrArg Prod.snd hmem)
  have hignored : ∀ b ∈ p.ignored, b ∈ p.attributes := fun b hb => (List.mem_filter.mp hb).1
  rw [meantFor_eq_true_iff, hpath, ParamDecl.resembles, Bool.or_eq_true, beq_iff_eq,
    List.any_eq_true]
  refine and_congr_right fun _ => ?_
  simp only [beq_iff_eq]
  constructor
  · rintro (hname | ⟨b, hb, htext⟩)
    · exact .inr (.inl hname)
    · rcases hsplit b hb with rfl | hb
      · exact .inl (by rw [ParamDecl.wireName, htext]; rfl)
      · exact .inr (.inr ⟨b, hb, htext⟩)
  · rintro (hwire | hname | ⟨b, hb, htext⟩)
    · cases htext : a.text? with
      | none => exact .inl (by rwa [ParamDecl.wireName, htext] at hwire)
      | some text =>
        rw [ParamDecl.wireName, htext] at hwire
        exact .inr ⟨a, ha, htext.trans (congrArg some hwire)⟩
    · exact .inl hname
    · exact .inr ⟨b, hignored b hb, htext⟩

theorem ParamOf.wireName (h : ParamOf s p image) :
    ∃ a, p.sources = [(image.source, a)] ∧ image.wireName = p.wireName a := by
  obtain ⟨a, hsources, hwire⟩ := checkBinding_yields_iff.mp h.binding
  refine ⟨a, hsources, ?_⟩
  rcases hwire with ⟨hargs, hname⟩ | ⟨span, hargs⟩
  · rw [hname, ParamDecl.wireName, Attribute.text?, hargs]
    rfl
  · rw [ParamDecl.wireName, Attribute.text?, hargs]
    rfl

theorem ParamOf.bound_or_strays (h : ParamOf s p image)
    (hmeant : ParamDecl.meantFor placeholder p = true) :
    image.source = .path ∧ (image.wireName = placeholder ∨ p.strays placeholder = true) := by
  obtain ⟨a, hsources, hwire⟩ := h.wireName
  obtain ⟨hpath, hmeant⟩ := (meantFor_iff hsources).mp hmeant
  refine ⟨hpath, ?_⟩
  by_cases hbound : image.wireName = placeholder
  · exact .inl hbound
  · rw [hwire] at hbound
    have hresembles := hmeant.resolve_left hbound
    rw [hpath] at hsources
    exact .inr (by simp [ParamDecl.strays, hsources, hbound, hresembles])

/-- The path parameters of an operation are bound to placeholders of its route, and every
placeholder has one, unless a parameter strays from it. -/
structure Source.OpDecl.BindsRoute (d : OpDecl) (op : OperationImage) : Prop where
  named : ∀ name ∈ op.pathNames, name ∈ Route.placeholders op.route
  bound : ∀ name ∈ Route.placeholders op.route, name ∉ op.pathNames →
    ∃ p ∈ d.params, p.strays name = true

variable {d : OpDecl}

/-- The checks of the parameters bind the route: a placeholder that is not bound has a parameter
that is only meant for it, and so strays from it. -/
theorem checkOp_bindsRoute (h : (checkOp s d).Yields op) : d.BindsRoute op := by
  obtain ⟨attrs, route, params, result, locals, call, -, -, hp, -, -, rfl⟩ :=
    checkOp_yields_iff.mp h
  obtain ⟨hparams, hplaceholders⟩ := checkParams_yields_iff.mp hp
  constructor
  · intro name hname
    obtain ⟨p, hmem, hpath, rfl⟩ := OperationImage.mem_pathNames.mp hname
    exact (hparams.suits p hmem).path hpath _ rfl
  · intro name hname hunbound
    rcases hplaceholders route rfl name hname with ⟨p, hmem, hpath, hwire⟩ | ⟨p, hmem, hmeant⟩
    · exact absurd (OperationImage.mem_pathNames.mpr ⟨p, hmem, hpath, hwire⟩) hunbound
    · obtain ⟨image, himage, hof⟩ := exists_right_of_forall₂ hparams.each hmem
      obtain ⟨hpath, hwire | hstrays⟩ := hof.bound_or_strays hmeant
      · exact absurd (OperationImage.mem_pathNames.mpr ⟨image, himage, hpath, hwire⟩) hunbound
      · exact ⟨p, hmem, hstrays⟩

theorem Source.OpDecl.BindsRoute.mem_pathNames_iff (h : d.BindsRoute op)
    (hstrays : ∀ p ∈ d.params, ∀ name ∈ Route.placeholders op.route, p.strays name = true →
      name ∈ op.pathNames) (name : String) :
    name ∈ op.pathNames ↔ name ∈ Route.placeholders op.route := by
  refine ⟨h.named name, fun hname => ?_⟩
  by_contra hunbound
  obtain ⟨p, hp, hstray⟩ := h.bound name hname hunbound
  exact hunbound (hstrays p hp name hname hstray)

theorem Source.OpDecl.BindsRoute.inlineLocals (h : d.BindsRoute op) :
    d.BindsRoute op.inlineLocals := by
  unfold OperationImage.inlineLocals
  split
  · exact h
  · exact ⟨h.named, h.bound⟩

end

section

variable {references : ReferenceSet} {o : CompileOptions} {units : List SourceUnit}

/-- In every compiled operation the path parameters are bound to placeholders of the route. All
placeholders are bound, if those are from which a parameter strays. -/
theorem compile_routes {a : Artifact} (h : compile references o units = .ok a) :
    ∃ e parsed, emit references o units = .ok e ∧ a = e.artifact o units ∧
      List.Forall₂ Parses units parsed ∧
      List.Forall₂ (fun d op => d.2.BindsRoute op ∧
        ((∀ p ∈ d.2.params, ∀ name ∈ Route.placeholders op.route, p.strays name = true →
            name ∈ op.pathNames) →
          ∀ name, name ∈ op.pathNames ↔ name ∈ Route.placeholders op.route))
        (declaredOps parsed) e.image.operations := by
  obtain ⟨e, he, rfl⟩ := compile_eq_ok_iff.mp h
  obtain ⟨parsed, p, hparsed, hp, himage⟩ := emit_sound he
  refine ⟨e, parsed, he, rfl, hparsed, ?_⟩
  have hoperations : List.Forall₂ (fun d op => d.2.BindsRoute op) (declaredOps parsed)
      e.image.operations := by
    rw [himage]
    exact hp.image_operations (fun _ _ hy => checkOp_bindsRoute hy) fun _ _ hb => hb.inlineLocals
  exact hoperations.imp fun _ _ hbinds => ⟨hbinds, hbinds.mem_pathNames_iff⟩

end

/-- Path parameters that are named for each other's placeholders. -/
def swappedUnits : List SourceUnit :=
  [⟨"swapped",
    "shape S \x7b \x7d #[http(GET, \"/\x7ba\x7d/\x7bb\x7d\")] op f(#[path(\"b\")] a: core::Int, " ++
      "#[path(\"a\")] b: core::Int) -> S \x7b return process::<S, S>(new S \x7b \x7d); \x7d",
    none⟩]

theorem compile_routes_swapped : ∃ a e op,
    compile ⟨[Catalog.core]⟩ echoOptions swappedUnits = .ok a ∧
      emit ⟨[Catalog.core]⟩ echoOptions swappedUnits = .ok e ∧ op ∈ e.image.operations ∧
      ∀ name, name ∈ op.pathNames ↔ name ∈ ["a", "b"] := by
  obtain ⟨e, he, htest⟩ : ∃ e, emit ⟨[Catalog.core]⟩ echoOptions swappedUnits = .ok e ∧
      (e.image.operations.any fun op => op.pathNames == ["b", "a"] &&
        Route.placeholders op.route == ["a", "b"]) = true :=
    exists_emitted rfl (fun m => m.operations.any fun op => op.pathNames == ["b", "a"] &&
      Route.placeholders op.route == ["a", "b"]) (by decide +kernel)
  obtain ⟨op, hop, hnames⟩ := List.any_eq_true.mp htest
  simp only [Bool.and_eq_true, beq_iff_eq] at hnames
  have hcompile := compile_eq_ok_iff.mpr ⟨e, he, rfl⟩
  obtain ⟨e', parsed, he', -, -, hroutes⟩ := compile_routes hcompile
  obtain rfl : e = e' := Except.ok.inj (he.symm.trans he')
  obtain ⟨d, -, -, hagree⟩ := exists_left_of_forall₂ hroutes hop
  rw [hnames.1, hnames.2] at hagree
  refine ⟨_, e, op, hcompile, he, hop, ?_⟩
  rw [hnames.1]
  exact hagree fun p _ name hname _ => by simpa [or_comm] using hname

/-- A path parameter that is named for one placeholder and bound to another. -/
def strayUnits : List SourceUnit :=
  [⟨"stray",
    "shape S \x7b \x7d #[http(GET, \"/\x7ba\x7d/\x7bb\x7d\")] op f(#[path(\"a\")] b: core::Int) " ++
      "-> S \x7b return process::<S, S>(new S \x7b \x7d); \x7d",
    none⟩]

/-- The placeholder for which a path parameter is named is taken to be bound, even if the parameter
is bound to another one. -/
theorem compile_stray : ∃ a e op,
    compile ⟨[Catalog.core]⟩ echoOptions strayUnits = .ok a ∧
      emit ⟨[Catalog.core]⟩ echoOptions strayUnits = .ok e ∧ a = e.artifact echoOptions strayUnits ∧
      op ∈ e.image.operations ∧ ¬ ∀ name, name ∈ op.pathNames ↔ name ∈ Route.placeholders op.route := by
  obtain ⟨e, he, htest⟩ : ∃ e, emit ⟨[Catalog.core]⟩ echoOptions strayUnits = .ok e ∧
      (e.image.operations.any fun op => op.pathNames == ["a"] &&
        Route.placeholders op.route == ["a", "b"]) = true :=
    exists_emitted rfl (fun m => m.operations.any fun op => op.pathNames == ["a"] &&
      Route.placeholders op.route == ["a", "b"]) (by decide +kernel)
  obtain ⟨op, hop, hnames⟩ := List.any_eq_true.mp htest
  simp only [Bool.and_eq_true, beq_iff_eq] at hnames
  refine ⟨_, e, op, compile_eq_ok_iff.mpr ⟨e, he, rfl⟩, he, rfl, hop, fun hagree => ?_⟩
  have hb := (hagree "b").mpr (by rw [hnames.2]; decide)
  rw [hnames.1] at hb
  exact absurd hb (by decide)

end EndpointCompiler
