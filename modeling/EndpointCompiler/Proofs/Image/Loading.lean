import EndpointCompiler.Loading
import EndpointCompiler.Proofs.Image.Inlining

/-! What an image is loaded as. It loads if the methods of its operations are methods at all, and
a loaded operation hands on what its image says, with its locals or without them. -/

namespace EndpointCompiler

namespace ModuleImage

variable {m : ModuleImage} {symbols : Option SymbolTable}

/-- The operation that an image of a method is loaded as. -/
def loadedOperation (m : ModuleImage) (symbols : Option SymbolTable) (o : OperationImage) :
    GeneratedOperation :=
  { name := o.name
    route := ⟨⟨o.method⟩, o.route, o.produces⟩
    params := o.params.map m.boundParam
    locals := o.locals
    call := o.call
    location := (symbols.bind (·.find? .operation o.name)).map (·.location) }

/-- The controller of a loaded module. -/
def loadedController (m : ModuleImage) (symbols : Option SymbolTable) : TypeInfo :=
  { TypeInfo.empty m.module m.controller with
    base := some controllerType
    operations := m.operations.map fun o => .generated (m.loadedOperation symbols o) }

/-- The module that an image with its symbols is loaded as. -/
def loaded (m : ModuleImage) (symbols : Option SymbolTable) : CompiledModule :=
  { module := ⟨m.module, .dynamic, m.shapes.map m.shapeType ++ [m.loadedController symbols]⟩
    controller := m.loadedController symbols
    mode := if symbols.isSome then .debug else .release
    symbols }

theorem ofToken?_eq_some_iff {token : String} {method : Method} :
    Method.ofToken? token = some method ↔
      method = ⟨token⟩ ∧ Method.ofToken? token = some ⟨token⟩ := by
  unfold Method.ofToken?
  split
  · simp [eq_comm]
  · simp

theorem loadOperation_eq_ok_iff {o : OperationImage} {op : GeneratedOperation} :
    m.loadOperation symbols o = .ok op ↔
      Method.ofToken? o.method = some ⟨o.method⟩ ∧ op = m.loadedOperation symbols o := by
  unfold loadOperation
  cases h : Method.ofToken? o.method with
  | none => simp
  | some method =>
    obtain ⟨rfl, -⟩ := ofToken?_eq_some_iff.mp h
    simp [loadedOperation, eq_comm]

theorem mapM_loadOperation_eq_ok_iff {os : List OperationImage} {ops : List GeneratedOperation} :
    os.mapM (m.loadOperation symbols) = .ok ops ↔
      (∀ o ∈ os, Method.ofToken? o.method = some ⟨o.method⟩) ∧
        ops = os.map (m.loadedOperation symbols) := by
  induction os generalizing ops with
  | nil => simp [pure, Except.pure, eq_comm]
  | cons o os ih =>
    rw [List.mapM_cons]
    cases ho : m.loadOperation symbols o with
    | error e =>
      have hne : Method.ofToken? o.method ≠ some ⟨o.method⟩ := fun h => by
        rw [loadOperation_eq_ok_iff.mpr ⟨h, rfl⟩] at ho
        cases ho
      simp [bind, Except.bind, hne]
    | ok op =>
      obtain ⟨hm, rfl⟩ := loadOperation_eq_ok_iff.mp ho
      cases hos : os.mapM (m.loadOperation symbols) with
      | error e =>
        have hne : ¬ ∀ o ∈ os, Method.ofToken? o.method = some ⟨o.method⟩ := fun h => by
          rw [ih.mpr ⟨h, rfl⟩] at hos
          cases hos
        simp only [bind, Except.bind, List.forall_mem_cons, hne, and_false, false_and,
          reduceCtorEq]
      | ok ops' =>
        obtain ⟨hms, rfl⟩ := ih.mp hos
        simp only [bind, Except.bind, pure, Except.pure, List.forall_mem_cons, hm, true_and,
          List.map_cons, Except.ok.injEq, eq_comm (a := ops)]
        exact (and_iff_right hms).symm

/-- An image loads if and only if the methods of its operations are methods. -/
theorem load_eq_ok_iff {c : CompiledModule} :
    m.load symbols = .ok c ↔
      (∀ o ∈ m.operations, Method.ofToken? o.method = some ⟨o.method⟩) ∧ c = m.loaded symbols := by
  unfold load
  cases h : m.operations.mapM (m.loadOperation symbols) with
  | error e =>
    have hne : ¬ ∀ o ∈ m.operations, Method.ofToken? o.method = some ⟨o.method⟩ := fun hm => by
      rw [mapM_loadOperation_eq_ok_iff.mpr ⟨hm, rfl⟩] at h
      cases h
    simp [bind, Except.bind, hne]
  | ok ops =>
    obtain ⟨hm, rfl⟩ := mapM_loadOperation_eq_ok_iff.mp h
    simp only [bind, Except.bind, pure, Except.pure, Except.ok.injEq, eq_comm (b := c), loaded,
      loadedController, List.map_map]
    exact (and_iff_right hm).symm

theorem loaded_operations :
    (m.loaded symbols).operations =
      m.operations.map fun o => .generated (m.loadedOperation symbols o) :=
  rfl

end ModuleImage

theorem Method.ofToken?_of_supported {method : Method} (h : method ∈ Method.supported) :
    Method.ofToken? method.token = some method := by
  simp only [Method.supported, List.mem_cons, List.not_mem_nil, or_false] at h
  rcases h with rfl | rfl | rfl | rfl | rfl | rfl | rfl <;> rfl

theorem ModuleImage.loadedOperation_evaluate {m : ModuleImage} {symbols : Option SymbolTable}
    {o : OperationImage} (params : List Json) :
    (m.loadedOperation symbols o).evaluate params = o.request params :=
  rfl

end EndpointCompiler
