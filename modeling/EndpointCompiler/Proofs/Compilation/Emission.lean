import EndpointCompiler.Compilation
import EndpointCompiler.Proofs.Checking.Program
import EndpointCompiler.Proofs.Image.Depth
import EndpointCompiler.Proofs.Source.Tokens

/-! What a compilation emits. It succeeds if every unit follows the grammar and no error is found in
the declarations. -/

namespace EndpointCompiler

open Source Checked

/-- A unit with the declarations that its text writes. -/
structure Parses (u : SourceUnit) (p : ParsedUnit) : Prop where
  unit : p.unit = u
  items : parseSource u.text = .ok p.items

theorem isError_syntaxDiagnostic (u : SourceUnit) (e : SourceError) :
    (syntaxDiagnostic u e).isError = true := rfl

theorem parseUnits_parses {units : List SourceUnit}
    (h : ∀ d ∈ (parseUnits units).2, d.isError = false) :
    List.Forall₂ Parses units (parseUnits units).1 := by
  induction units with
  | nil => exact .nil
  | cons u units ih =>
    rw [parseUnits] at h ⊢
    cases hp : parseSource u.text with
    | ok items =>
      simp only [hp] at h ⊢
      exact .cons ⟨rfl, hp⟩ (ih h)
    | error e => simp [hp, isError_syntaxDiagnostic] at h

theorem parseUnits_of_parses {units : List SourceUnit} {parsed : List ParsedUnit}
    (h : List.Forall₂ Parses units parsed) : parseUnits units = (parsed, []) := by
  induction h with
  | nil => rfl
  | cons hp _ ih =>
    obtain ⟨rfl, hitems⟩ := hp
    rw [parseUnits, ih, hitems]

theorem parseUnits_items {units : List SourceUnit} {p : ParsedUnit}
    (hp : p ∈ (parseUnits units).1) : p.unit ∈ units ∧ parseSource p.unit.text = .ok p.items := by
  induction units with
  | nil => cases hp
  | cons u units ih =>
    rw [parseUnits] at hp
    cases hparse : parseSource u.text with
    | ok items =>
      rw [hparse] at hp
      rcases List.mem_cons.mp hp with rfl | hp
      · exact ⟨List.mem_cons_self, hparse⟩
      · exact ⟨List.mem_cons_of_mem _ (ih hp).1, (ih hp).2⟩
    | error e =>
      rw [hparse] at hp
      exact ⟨List.mem_cons_of_mem _ (ih hp).1, (ih hp).2⟩

theorem parseUnits_malformed {units : List SourceUnit} {d : Diagnostic}
    (hd : d ∈ (parseUnits units).2) :
    ∃ u ∈ units, ∃ e, parseSource u.text = .error e ∧ d = syntaxDiagnostic u e := by
  induction units with
  | nil => cases hd
  | cons u units ih =>
    rw [parseUnits] at hd
    cases hparse : parseSource u.text with
    | ok items =>
      rw [hparse] at hd
      obtain ⟨u', hu', h⟩ := ih hd
      exact ⟨u', List.mem_cons_of_mem _ hu', h⟩
    | error e =>
      rw [hparse] at hd
      rcases List.mem_cons.mp hd with rfl | hd
      · exact ⟨u, List.mem_cons_self, e, hparse, rfl⟩
      · obtain ⟨u', hu', h⟩ := ih hd
        exact ⟨u', List.mem_cons_of_mem _ hu', h⟩

/-- What a unit parses to, found from the characters that its text is written with. -/
theorem exists_parsed {units : List SourceUnit} {name : String} {cs ds : List Char}
    (hunits : units = [⟨name, String.ofList cs ++ String.ofList ds, none⟩])
    (test : List ParsedUnit → Bool)
    (h : (lexemesFrom 0 (cs ++ ds) >>= items).toOption.any
      (fun items => test (units.map fun u => ⟨u, items⟩)) = true) :
    ∃ parsed, List.Forall₂ Parses units parsed ∧ test parsed = true := by
  subst hunits
  cases hitems : lexemesFrom 0 (cs ++ ds) >>= items with
  | error e =>
    rw [hitems] at h
    cases h
  | ok decls =>
    rw [hitems] at h
    exact ⟨_, .cons ⟨rfl, (parseSource_written cs ds).trans hitems⟩ .nil, h⟩

theorem lineColumnFrom_le (line : Nat) {column : Nat} (hcolumn : 1 ≤ column) (cs : List Char)
    (n : Nat) :
    (lineColumnFrom line column cs n).1 ≤ line + cs.length ∧
      (lineColumnFrom line column cs n).2 ≤ column + cs.length := by
  induction cs generalizing line column n with
  | nil => exact ⟨Nat.le_refl _, Nat.le_refl _⟩
  | cons c cs ih =>
    rw [lineColumnFrom, List.length_cons]
    split
    · exact ⟨Nat.le_add_right _ _, Nat.le_add_right _ _⟩
    · split
      · have h := ih (line + 1) (Nat.le_refl 1) (n - c.utf8Size)
        omega
      · have hnext : 1 ≤ column + 1 := Nat.le_add_left 1 column
        have h := ih line hnext (n - c.utf8Size)
        omega

/-- No place of a text is further than its characters go. -/
theorem symbolOf_placed {kind : SymbolKind} {u : SourceUnit} {name : Ident}
    (h : u.text.length < 2 ^ 63) : (symbolOf kind u name).Placed := by
  have hle := lineColumnFrom_le 1 (Nat.le_refl 1) u.text.toList name.span.start
  rw [String.length_toList] at hle
  constructor
  · show (lineColumnFrom 1 1 u.text.toList name.span.start).1 < 2 ^ 64
    omega
  · show (lineColumnFrom 1 1 u.text.toList name.span.start).2 < 2 ^ 64
    omega

/-- The diagnostics of a compilation, whatever comes of it. -/
def reported : Except CompilationError Artifact → List Diagnostic
  | .ok a => a.warnings
  | .error e => e.diagnostics

section

variable {references : ReferenceSet} {o : CompileOptions} {units : List SourceUnit}

/-- Whether anything is emitted is decided by the diagnostics, and what is emitted by the program
alone. -/
theorem emit_eq_ok_iff {e : Emission} :
    emit references o units = .ok e ↔
      (∀ d ∈ (parseUnits units).2 ++
        (checkProgram references o.module (parseUnits units).1).diagnostics, d.isError = false) ∧
      e = ⟨(checkProgram references o.module (parseUnits units).1).image o,
        match o.mode with
        | .release => none
        | .debug => some ⟨o.module, declaredSymbols (parseUnits units).1⟩,
        (parseUnits units).2 ++
          (checkProgram references o.module (parseUnits units).1).diagnostics⟩ := by
  unfold emit
  dsimp only
  split
  · rename_i h
    obtain ⟨d, hd, he⟩ := List.any_eq_true.mp h
    simp only [reduceCtorEq, false_iff, not_and]
    exact fun hall => absurd (hall d hd) (by simp [he])
  · rename_i h
    rw [Bool.not_eq_true, List.any_eq_false] at h
    rw [Except.ok.injEq, eq_comm (a := e)]
    exact ⟨fun he => ⟨fun d hd => by simpa using h d hd, he⟩, And.right⟩

/-- What a compilation reports are the faults of units that do not follow the grammar and all that
is found in the declarations of the others. -/
theorem reported_compile : reported (compile references o units) =
    (parseUnits units).2 ++ (checkProgram references o.module (parseUnits units).1).diagnostics := by
  unfold compile emit
  dsimp only
  by_cases herror : ((parseUnits units).2 ++
      (checkProgram references o.module (parseUnits units).1).diagnostics).any (·.isError) = true
  · rw [if_pos herror]
    rfl
  · rw [if_neg herror]
    rfl

theorem exists_emit_of_any {test : Emission → Bool}
    (h : (emit references o units).toOption.any test = true) :
    ∃ e, emit references o units = .ok e ∧ test e = true := by
  cases he : emit references o units with
  | error _ =>
    rw [he] at h
    cases h
  | ok e =>
    rw [he] at h
    exact ⟨e, rfl, h⟩

theorem emit_sound {e : Emission} (h : emit references o units = .ok e) :
    ∃ parsed p, List.Forall₂ Parses units parsed ∧ ProgramOf references o.module parsed p ∧
      e.image = p.image o := by
  obtain ⟨hclean, rfl⟩ := emit_eq_ok_iff.mp h
  rw [List.forall_mem_append] at hclean
  exact ⟨_, _, parseUnits_parses hclean.1, checkProgram_sound hclean.2, rfl⟩

/-- What checked operations have they have in the image, if it does not depend on locals. -/
theorem ProgramOf.image_operations {parsed : List ParsedUnit} {p : CheckedProgram}
    (h : ProgramOf references o.module parsed p) {R : OpDecl → OperationImage → Prop}
    (hchecked : ∀ d op, (checkOp (scopeOf references o.module p.shapes) d).Yields op → R d op)
    (hinline : ∀ d op, R d op → R d op.inlineLocals) :
    List.Forall₂ (fun d op => R d.2 op) (declaredOps parsed) (p.image o).operations := by
  rw [CheckedProgram.image]
  cases o.mode with
  | debug => exact h.operations.imp fun _ _ hy => hchecked _ _ hy
  | release =>
    rw [List.forall₂_map_right_iff]
    exact h.operations.imp fun _ _ hy => hinline _ _ (hchecked _ _ hy)

/-- Images of the declarations of all units are emitted. -/
theorem emit_complete {parsed : List ParsedUnit} {p : CheckedProgram}
    (hu : List.Forall₂ Parses units parsed) (hp : ProgramOf references o.module parsed p) :
    ∃ e, emit references o units = .ok e ∧ e.image = p.image o ∧
      e.symbols = match o.mode with
        | .release => none
        | .debug => some ⟨o.module, declaredSymbols parsed⟩ := by
  obtain ⟨hshapes, hops, hclean⟩ := checkProgram_complete hp
  have hparsed := parseUnits_of_parses hu
  refine ⟨_, emit_eq_ok_iff.mpr ⟨?_, rfl⟩, ?_, ?_⟩
  · simpa [hparsed] using hclean
  · simp [hparsed, CheckedProgram.image, hshapes, hops]
  · simp [hparsed]

/-- A unit is emitted as soon as it is tokenized and read, which can be shown of its characters. -/
theorem exists_emitted {name : String} {cs ds : List Char}
    (hunits : units = [⟨name, String.ofList cs ++ String.ofList ds, none⟩])
    (test : ModuleImage → Bool)
    (h : (lexemesFrom 0 (cs ++ ds) >>= items).toOption.any (fun items =>
      let p := checkProgram references o.module (units.map fun u => ⟨u, items⟩)
      (p.diagnostics.all fun d => !d.isError) && test (p.image o)) = true) :
    ∃ e, emit references o units = .ok e ∧ test e.image = true := by
  obtain ⟨parsed, hparsed, htest⟩ := exists_parsed hunits (fun parsed =>
    let p := checkProgram references o.module parsed
    (p.diagnostics.all fun d => !d.isError) && test (p.image o)) h
  obtain ⟨hclean, htest⟩ := Bool.and_eq_true_iff.mp htest
  have hprogram := checkProgram_sound fun d hd => by simpa using List.all_eq_true.mp hclean d hd
  obtain ⟨e, he, himage, -⟩ := emit_complete hparsed hprogram
  exact ⟨e, he, himage ▸ htest⟩

theorem emit_symbols_placed {e : Emission} (h : emit references o units = .ok e)
    (hunits : ∀ u ∈ units, u.text.length < 2 ^ 63) {table : SymbolTable}
    (htable : e.symbols = some table) : ∀ s ∈ table.symbols, s.Placed := by
  obtain ⟨-, rfl⟩ := emit_eq_ok_iff.mp h
  cases hmode : o.mode with
  | release => simp [hmode] at htable
  | debug =>
    simp only [hmode, Option.some.injEq] at htable
    subst htable
    refine List.forall_mem_append.mpr ⟨?_, ?_⟩
    · refine List.forall_mem_map.mpr fun d hd => symbolOf_placed ?_
      obtain ⟨p, hp, hunit, -⟩ := mem_declaredShapes.mp hd
      exact hunits _ (hunit ▸ (parseUnits_items hp).1)
    · refine List.forall_mem_map.mpr fun d hd => symbolOf_placed ?_
      obtain ⟨p, hp, hunit, -⟩ := mem_declaredOps.mp hd
      exact hunits _ (hunit ▸ (parseUnits_items hp).1)

theorem compile_eq_ok_iff {a : Artifact} :
    compile references o units = .ok a ↔
      ∃ e, emit references o units = .ok e ∧ a = e.artifact o units := by
  unfold compile
  cases emit references o units <;> simp [eq_comm]

end

end EndpointCompiler
