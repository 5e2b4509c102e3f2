import EndpointCompiler.Proofs.Compilation.Modes
import EndpointCompiler.Proofs.Diagnostic.Places
import EndpointCompiler.Proofs.Source.Recognition
import EndpointCompiler.Proofs.Source.Slices

/-! The symbols of a debug build. Each declaration has one, at the place of its name, and a loaded
operation is located by that of its own declaration. -/

namespace EndpointCompiler

open Source Checked

/-- The kind of the symbol of a declaration. -/
def Source.Item.kind : Item → SymbolKind
  | .shape _ => .shape
  | .op _ => .operation

/-- The keyword that declarations of a kind begin with. -/
def SymbolKind.opener : SymbolKind → Keyword
  | .shape => .shape
  | .operation => .op

/-- A symbol leads to the name of a declaration: what its unit has at its line and column begins
with that name, which is read there as an identifier, right after the keyword. -/
structure Symbol.Locates (s : Symbol) (k : SymbolKind) (u : SourceUnit) (i : Ident) : Prop where
  kind : s.kind = k
  name : s.name = i.name
  unit : s.unit = u.name
  path : s.path = u.path
  reads : ∃ rest, textAt u.text s.line s.column = i.name.toList ++ rest
  follows : ∃ before l m after, tokenize u.text = .ok (before ++ l :: m :: after) ∧
    l.token = .keyword k.opener ∧ m.token = .ident i.name ∧ m.span = i.span ∧
    lineColumn u.text m.span.start = (s.line, s.column)

theorem Source.Item.opener_kind (i : Item) : i.kind.opener = i.keyword := by
  cases i <;> rfl

/-- An identifier is what its text has from its line and column on. -/
theorem textAt_ident {text n : String} {before after : Tokens} {l : Lexeme}
    (h : tokenize text = .ok (before ++ l :: after)) (hl : l.token = .ident n) :
    ∃ rest, textAt text (lineColumn text l.span.start).1 (lineColumn text l.span.start).2 =
      n.toList ++ rest := by
  have hopen : l.token ≠ .eof := by
    rw [hl]
    nofun
  obtain ⟨front, c, cs, e, htext, he, ht, hspan⟩ := lexemesFrom_element h hopen
  obtain ⟨-, -, hname, hrest⟩ := element_eq_ident he (ht.trans (congrArg some hl))
  have hstart : l.span.start = utf8Length front := by rw [hspan, Nat.zero_add]
  refine ⟨e.rest, ?_⟩
  rw [hstart, textAt_lineColumn htext, hname, hrest, List.cons_append,
    List.takeWhile_append_dropWhile]

theorem symbolOf_locates {u : SourceUnit} {is : List Item} {i : Item}
    (h : parseSource u.text = .ok is) (hi : i ∈ is) :
    (symbolOf i.kind u i.name).Locates i.kind u i.name := by
  obtain ⟨_, htokens, before, l, m, after, rfl, hl, hm, hspan⟩ := parseSource_named h hi
  refine ⟨rfl, rfl, rfl, rfl, ?_, before, l, m, after, htokens, ?_, hm, hspan, ?_⟩
  · rw [List.append_cons] at htokens
    obtain ⟨rest, hrest⟩ := textAt_ident htokens hm
    rw [hspan] at hrest
    exact ⟨rest, hrest⟩
  · rw [hl, i.opener_kind]
  · rw [hspan]
    rfl

section

variable {units : List SourceUnit} {parsed : List ParsedUnit} {p : ParsedUnit}

theorem declared_locates (h : List.Forall₂ Parses units parsed) (hp : p ∈ parsed) {i : Item}
    (hi : i ∈ p.items) : (symbolOf i.kind p.unit i.name).Locates i.kind p.unit i.name := by
  obtain ⟨u, -, rfl, hitems⟩ := exists_left_of_forall₂ h hp
  exact symbolOf_locates hitems hi

theorem shapeSymbols_locate (h : List.Forall₂ Parses units parsed) :
    List.Forall₂ (fun d s => s.Locates .shape d.1 d.2.name) (declaredShapes parsed)
      ((declaredShapes parsed).map fun (u, d) => symbolOf .shape u d.name) := by
  refine List.forall₂_map_right_iff.mpr (List.forall₂_same.mpr ?_)
  rintro ⟨u, d⟩ hd
  obtain ⟨p, hp, rfl, hitem⟩ := mem_declaredShapes.mp hd
  exact declared_locates h hp hitem

theorem operationSymbols_locate (h : List.Forall₂ Parses units parsed) :
    List.Forall₂ (fun d s => s.Locates .operation d.1 d.2.name) (declaredOps parsed)
      ((declaredOps parsed).map fun (u, d) => symbolOf .operation u d.name) := by
  refine List.forall₂_map_right_iff.mpr (List.forall₂_same.mpr ?_)
  rintro ⟨u, d⟩ hd
  obtain ⟨p, hp, rfl, hitem⟩ := mem_declaredOps.mp hd
  exact declared_locates h hp hitem

/-- No two symbols are of the same kind and name. -/
theorem declaredSymbols_nodup (hshapes : ((declaredShapes parsed).map shapeName).Nodup)
    (hops : ((declaredOps parsed).map opName).Nodup) :
    ((declaredSymbols parsed).map fun s => (s.kind, s.name)).Nodup := by
  have hpair : ∀ k : SymbolKind, Function.Injective fun n : String => (k, n) :=
    fun _ _ _ h => (Prod.mk.inj h).2
  rw [declaredSymbols, List.map_append, List.map_map, List.map_map]
  refine List.nodup_append'.mpr ⟨?_, ?_, ?_⟩
  · have hall := hshapes.map (hpair .shape)
    rwa [List.map_map] at hall
  · have hall := hops.map (hpair .operation)
    rwa [List.map_map] at hall
  · intro s hs hs'
    obtain ⟨d, -, rfl⟩ := List.mem_map.mp hs
    obtain ⟨d', -, heq⟩ := List.mem_map.mp hs'
    cases heq

/-- An operation is found among the symbols by its name, whatever shapes are called. -/
theorem find?_declaredSymbols (hops : ((declaredOps parsed).map opName).Nodup) (module : ModuleId)
    {d : SourceUnit × OpDecl} (hd : d ∈ declaredOps parsed) :
    SymbolTable.find? ⟨module, declaredSymbols parsed⟩ .operation (opName d) =
      some (symbolOf .operation d.1 d.2.name) := by
  have hshapes : ((declaredShapes parsed).map fun (u, d) => symbolOf .shape u d.name).find?
      (fun s => s.kind == .operation && s.name == opName d) = none := by
    rw [List.find?_eq_none]
    intro s hs
    obtain ⟨d', -, rfl⟩ := List.mem_map.mp hs
    exact Bool.false_ne_true
  have hfound := find?_of_nodup_map hops hd
  rw [SymbolTable.find?, declaredSymbols, List.find?_append, hshapes, Option.none_or,
    List.find?_map]
  exact congrArg (Option.map _) hfound

end

/-- The symbols of a table are those of declarations, shapes before operations. -/
structure SymbolTable.Lists (t : SymbolTable) (parsed : List ParsedUnit)
    (shapes operations : List Symbol) : Prop where
  symbols : t.symbols = shapes ++ operations
  distinct : (t.symbols.map fun s => (s.kind, s.name)).Nodup
  shapes : List.Forall₂ (fun d s => s.Locates .shape d.1 d.2.name) (declaredShapes parsed) shapes
  operations : List.Forall₂ (fun d s => s.Locates .operation d.1 d.2.name) (declaredOps parsed)
    operations

/-- An operation whose place is that of a symbol of its name. -/
def Operation.LocatedBy (op : Operation) (s : Symbol) : Prop :=
  ∃ g, op = .generated g ∧ g.name = s.name ∧ g.location = some s.location

section

variable {references : ReferenceSet} {o : CompileOptions} {units : List SourceUnit}

/-- What a debug build emits has a symbol for each declaration, and is loaded with the operations at
the places of theirs. -/
theorem emit_lists (hdebug : o.mode = .debug) {e : Emission}
    (h : emit references o units = .ok e) :
    ∃ parsed table shapes operations, List.Forall₂ Parses units parsed ∧ e.symbols = some table ∧
      table.module = o.module ∧ table.Lists parsed shapes operations ∧
      List.Forall₂ Operation.LocatedBy (e.image.loaded (some table)).operations operations := by
  obtain ⟨hclean, rfl⟩ := emit_eq_ok_iff.mp h
  rw [List.forall_mem_append] at hclean
  have hparsed := parseUnits_parses hclean.1
  have hprogram := checkProgram_sound hclean.2
  have hnames := hprogram.image_operations (o := o) (R := fun d op => op.name = d.name.name)
    (fun _ _ hy => (checkOp_sound hy).name)
    fun d op hop => by
      unfold OperationImage.inlineLocals
      split <;> exact hop
  refine ⟨_, ⟨o.module, declaredSymbols (parseUnits units).1⟩, _, _, hparsed, by rw [hdebug], rfl,
    ⟨rfl, declaredSymbols_nodup hprogram.shapeNames hprogram.opNames, shapeSymbols_locate hparsed,
      operationSymbols_locate hparsed⟩, ?_⟩
  rw [ModuleImage.loaded_operations, List.forall₂_map_left_iff, List.forall₂_map_right_iff]
  refine List.Forall₂.flip ?_
  refine ((List.forall₂_and_left _ _).mpr ⟨fun d hd => hd, hnames⟩).imp ?_
  rintro d op ⟨hd, hname⟩
  refine ⟨_, rfl, hname, ?_⟩
  have hfound := find?_declaredSymbols hprogram.opNames o.module hd
  rw [opName, ← hname] at hfound
  rw [ModuleImage.loadedOperation, Option.bind_some, hfound]
  rfl

/-- Every declaration of a debug build has a symbol of its own that leads to its name, and each
operation of the loaded module is at the place of its declaration's. -/
theorem compilePlaced_locates {files : FileTree} {a : Artifact} (hm : IsModulePath o.module)
    (hdebug : o.mode = .debug) (h : compilePlaced references o units files = .ok a) :
    ∃ parsed table shapes operations, a.units = (o.place units files).1 ∧
      List.Forall₂ Parses a.units parsed ∧ a.symbols = some (o.mode.print table.toJson) ∧
      table.module = o.module ∧ table.Lists parsed shapes operations ∧
      (∀ e, emitPlaced references o units files = .ok e → e.Readable → ∃ m, a.load = .ok m) ∧
      ∀ m, a.load = .ok m → m.symbols = some table ∧
        List.Forall₂ Operation.LocatedBy m.operations operations := by
  obtain ⟨e, he, rfl⟩ := compile_eq_ok_iff.mp h
  obtain ⟨parsed, table, shapes, operations, hparsed, htable, hmodule, hlists, hlocated⟩ :=
    emit_lists hdebug he
  refine ⟨parsed, table, shapes, operations, rfl, hparsed, ?_, hmodule, hlists, ?_, ?_⟩
  · rw [Emission.artifact, htable]
    rfl
  · intro e' he' hreadable
    cases he.symm.trans he'
    exact ⟨_, load_emitted hm he hreadable⟩
  · intro m hload
    obtain ⟨_, _, -, -, himage⟩ := emit_sound he
    have hformat : e.image.format = imageFormat := by rw [himage, CheckedProgram.image]
    have hloaded := Emission.load_of_load_artifact (emit_legible hm he) hformat hload
    obtain ⟨-, rfl⟩ := ModuleImage.load_eq_ok_iff.mp hloaded
    rw [htable]
    exact ⟨rfl, hlocated⟩

end

/-- A shape and an operation of one name, behind letters of two bytes. -/
def sharedUnits : List SourceUnit :=
  [⟨"shared",
    "// ΑΒΓ\nshape S \x7b n: core::Int \x7d #[http(GET, \"/Ω\")] op S(#[query] n: core::Int) -> " ++
      "core::Int \x7b return process::<S, core::Int>(new S \x7b n = n \x7d); \x7d",
    none⟩]

theorem emitPlaced_shared :
    ∃ e, emitPlaced ⟨[Catalog.core]⟩ { echoOptions with mode := .debug } sharedUnits ⟨[], []⟩ =
      .ok e ∧ e.Readable := by
  obtain ⟨parsed, hparsed, htest⟩ : ∃ parsed, List.Forall₂ Parses sharedUnits parsed ∧
      (((checkProgram ⟨[Catalog.core]⟩ "shop" parsed).diagnostics.all fun d => !d.isError) &&
        decide (((checkProgram ⟨[Catalog.core]⟩ "shop" parsed).image
          { echoOptions with mode := .debug }).toJson.Readable Json.maxDepth)) = true :=
    exists_parsed rfl _ (by decide +kernel)
  obtain ⟨hclean, hreadable⟩ := Bool.and_eq_true_iff.mp htest
  have hprogram := checkProgram_sound fun d hd => by simpa using List.all_eq_true.mp hclean d hd
  obtain ⟨e, he, himage⟩ := emitPlaced_complete (o := { echoOptions with mode := .debug }) ⟨[], []⟩
    hparsed hprogram
  refine ⟨e, he, himage ▸ of_decide_eq_true hreadable, emitPlaced_symbols_readable he ?_⟩
  exact List.forall_mem_singleton.mpr ((length_le_utf8ByteSize _).trans_lt (by decide +kernel))

theorem compilePlaced_locates_shared :
    ∃ a m parsed table shapes operations, compilePlaced ⟨[Catalog.core]⟩
        { echoOptions with mode := .debug } sharedUnits ⟨[], []⟩ = .ok a ∧
      List.Forall₂ Parses a.units parsed ∧ table.Lists parsed shapes operations ∧
      a.load = .ok m ∧ m.symbols = some table ∧
      List.Forall₂ Operation.LocatedBy m.operations operations := by
  have hpath : IsModulePath echoOptions.module := ⟨["shop"], by decide, by decide, rfl⟩
  obtain ⟨e, he, hreadable⟩ := emitPlaced_shared
  have hcompile := compilePlaced_ok he
  obtain ⟨parsed, table, shapes, operations, -, hparsed, -, -, hlists, hloads, hloaded⟩ :=
    compilePlaced_locates (o := { echoOptions with mode := .debug }) hpath rfl hcompile
  obtain ⟨m, hload⟩ := hloads e he hreadable
  exact ⟨_, m, parsed, table, shapes, operations, hcompile, hparsed, hlists, hload,
    hloaded m hload⟩

end EndpointCompiler
