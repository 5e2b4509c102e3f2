import EndpointCompiler.Image.Basic
import EndpointCompiler.Proofs.Checking.Body
import Mathlib.Data.List.Basic
import Mathlib.Data.List.Induction

/-! Locals put in the place of their names: the operation builds the same request, and its types
stay what they are. Neither asks for locals that are in scope. -/

namespace EndpointCompiler

namespace ValueExpr

theorem substituteFields_names (done : List ValueExpr) (fields : List (String × ValueExpr)) :
    (substituteFields done fields).map (·.1) = fields.map (·.1) := by
  induction fields with
  | nil => rfl
  | cons f fields ih => simp only [substituteFields, List.map_cons, ih]

@[simp] theorem expandLocals_nil : expandLocals [] = [] := rfl

theorem expandLocals_concat (locals : List ValueExpr) (e : ValueExpr) :
    expandLocals (locals ++ [e]) = expandLocals locals ++ [e.substitute (expandLocals locals)] := by
  simp [expandLocals]

theorem expandLocals_length (locals : List ValueExpr) :
    (expandLocals locals).length = locals.length := by
  induction locals using List.reverseRecOn with
  | nil => rfl
  | append_singleton locals e ih => simp [expandLocals_concat, ih]

@[simp] theorem evalLocals_nil (params : List Json) : evalLocals params [] = [] := rfl

theorem evalLocals_concat (params : List Json) (locals : List ValueExpr) (e : ValueExpr) :
    evalLocals params (locals ++ [e]) =
      evalLocals params locals ++ [e.eval params (evalLocals params locals)] := by
  simp [evalLocals]

mutual

/-- Replaced locals stand for their values; one that is not there is null either way. -/
theorem eval_substitute (params : List Json) (done : List ValueExpr) (e : ValueExpr) :
    (e.substitute done).eval params [] = e.eval params (done.map (·.eval params [])) := by
  match e with
  | .param i => simp only [substitute, eval]
  | .local i => cases h : done[i]? <;> simp [substitute, eval, h]
  | .field base name => simp only [substitute, eval, eval_substitute params done base]
  | .new type fields => simp only [substitute, eval, evalFields_substitute params done fields]

theorem evalFields_substitute (params : List Json) (done : List ValueExpr)
    (fields : List (String × ValueExpr)) (object : List (String × Json)) :
    evalFields params [] (substituteFields done fields) object =
      evalFields params (done.map (·.eval params [])) fields object := by
  match fields with
  | [] => simp only [substituteFields, evalFields]
  | (name, value) :: fields =>
    simp only [substituteFields, evalFields, eval_substitute params done value,
      evalFields_substitute params done fields]

end

mutual

theorem substitute_nil (e : ValueExpr) : e.substitute [] = e := by
  match e with
  | .param i => rfl
  | .local i => rfl
  | .field base name => rw [substitute, substitute_nil base]
  | .new type fields => rw [substitute, substituteFields_nil fields]

theorem substituteFields_nil (fields : List (String × ValueExpr)) :
    substituteFields [] fields = fields := by
  match fields with
  | [] => rfl
  | (name, value) :: fields => rw [substituteFields, substitute_nil value, substituteFields_nil fields]

end

theorem eval_expandLocals (params : List Json) (locals : List ValueExpr) :
    (expandLocals locals).map (·.eval params []) = evalLocals params locals := by
  induction locals using List.reverseRecOn with
  | nil => rfl
  | append_singleton locals e ih =>
    rw [expandLocals_concat, evalLocals_concat, List.map_append, ih, List.map_singleton,
      eval_substitute, ih]

end ValueExpr

theorem OperationImage.request_inlineLocals (op : OperationImage) (params : List Json) :
    op.inlineLocals.request params = op.request params := by
  unfold inlineLocals
  split
  · rfl
  · simp only [request, ValueExpr.evalLocals_nil, ValueExpr.eval_substitute,
      ValueExpr.eval_expandLocals]

theorem OperationImage.inlineLocals_locals (op : OperationImage) : op.inlineLocals.locals = [] := by
  unfold inlineLocals
  split
  · rename_i h
    simpa using h
  · rfl

section

variable {s : TypeScope} {params types : List TypeRef} {done : List ValueExpr}

/-- Expressions without locals, one of each type. -/
def Expanded (s : TypeScope) (params types : List TypeRef) (done : List ValueExpr) : Prop :=
  ∀ (i : Nat) (t : TypeRef), types[i]? = some t →
    ∃ e : ValueExpr, done[i]? = some e ∧ HasType s params [] e t

mutual

theorem HasType.substitute (hd : Expanded s params types done) :
    ∀ {e : ValueExpr} {t : TypeRef}, HasType s params types e t →
      HasType s params [] (e.substitute done) t
  | .param i, _, .param hp => by
    rw [ValueExpr.substitute]
    exact .param hp
  | .local i, t, .local hi => by
    obtain ⟨e, he, ht⟩ := hd i t hi
    rw [ValueExpr.substitute, he]
    exact ht
  | .field base name, _, .field hb hf hn => by
    rw [ValueExpr.substitute]
    exact .field (hb.substitute hd) hf hn
  | .new _ inits, _, .new hf hn hi => by
    rw [ValueExpr.substitute]
    exact .new hf (ValueExpr.substituteFields_names done inits ▸ hn) (hi.substitute hd)

theorem HaveTypes.substitute (hd : Expanded s params types done) :
    ∀ {declared : List Field} {inits : List (String × ValueExpr)},
      HaveTypes s params types declared inits →
      HaveTypes s params [] declared (ValueExpr.substituteFields done inits)
  | _, [], .nil => by
    rw [ValueExpr.substituteFields]
    exact .nil
  | _, (name, value) :: inits, .cons hf hv ha hi => by
    rw [ValueExpr.substituteFields]
    exact .cons hf (hv.substitute hd) ha (hi.substitute hd)

end

theorem Expanded.snoc (hd : Expanded s params types done) (hl : types.length = done.length)
    {e : ValueExpr} {t : TypeRef} (he : HasType s params [] e t) :
    Expanded s params (types ++ [t]) (done ++ [e]) := by
  intro i u hu
  by_cases hi : i < types.length
  · rw [List.getElem?_append_left hi] at hu
    rw [List.getElem?_append_left (hl ▸ hi)]
    exact hd i u hu
  · have hlt := (List.getElem?_eq_some_iff.mp hu).1
    obtain rfl : i = types.length := by
      simp only [List.length_append, List.length_singleton] at hlt
      omega
    have hu' : t = u := by simpa using hu
    exact ⟨e, by simp [hl], hu' ▸ he⟩

theorem LocalsTyped.init {locals : List ValueExpr} {e : ValueExpr} {t : TypeRef}
    (h : LocalsTyped s params (types ++ [t]) (locals ++ [e])) :
    LocalsTyped s params types locals := by
  have hl : types.length = locals.length := by simpa using h.1
  refine ⟨hl, fun i e' t' he ht => ?_⟩
  have hi := (List.getElem?_eq_some_iff.mp ht).1
  have hi' := (List.getElem?_eq_some_iff.mp he).1
  have := h.2 i e' t' (by rw [List.getElem?_append_left hi', he])
    (by rw [List.getElem?_append_left hi, ht])
  rwa [List.take_append_of_le_length (Nat.le_of_lt hi)] at this

/-- Well-typed locals expand to expressions of their types. -/
theorem LocalsTyped.expanded {locals : List ValueExpr} (h : LocalsTyped s params types locals) :
    Expanded s params types (ValueExpr.expandLocals locals) := by
  induction locals using List.reverseRecOn generalizing types with
  | nil =>
    obtain rfl : types = [] := List.length_eq_zero_iff.mp h.1
    exact fun i t ht => by simp at ht
  | append_singleton locals e ih =>
    obtain ⟨types, u, rfl, hl⟩ : ∃ types' u, types = types' ++ [u] ∧
        types'.length = locals.length := by
      rcases List.eq_nil_or_concat' types with rfl | ⟨types', u, rfl⟩
      · simpa using h.1
      · exact ⟨types', u, rfl, by simpa using h.1⟩
    have hinit := ih h.init
    have hlast : HasType s params types e u := by
      simpa [← hl] using h.2 locals.length e u (by simp) (by simp [← hl])
    rw [ValueExpr.expandLocals_concat]
    exact hinit.snoc (by rw [hl, ValueExpr.expandLocals_length]) (hlast.substitute hinit)

end

end EndpointCompiler
