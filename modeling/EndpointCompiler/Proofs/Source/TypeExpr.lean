import EndpointCompiler.Source.Tree

/-! The types that written types stand for. -/

namespace EndpointCompiler.Source

attribute [local simp] TypeExpr.toTypeRef TypeExpr.toTypeRefs

theorem toTypeRefs_length (ts : List TypeExpr) : (TypeExpr.toTypeRefs ts).length = ts.length := by
  induction ts with
  | nil => rfl
  | cons t ts ih => simp [ih]

theorem toTypeRefs_eq_nil {ts : List TypeExpr} : TypeExpr.toTypeRefs ts = [] ↔ ts = [] := by
  cases ts <;> simp

/-- A name stands for itself, unless it is that of the asynchronous result. -/
theorem toTypeRef_path {n : String} {module : Option ModuleId} {args : List TypeExpr}
    (h : ¬ (module = none ∧ n = "Async" ∧ args.length = 1)) (span : Span) :
    (TypeExpr.path module n args span).toTypeRef =
      .named module n (TypeExpr.toTypeRefs args) := by
  match module, args with
  | some m, _ => simp
  | none, [] => rfl
  | none, [t] =>
    have hn : n ≠ "Async" := fun hn => h ⟨rfl, hn, rfl⟩
    simp [hn]
  | none, _ :: _ :: _ => rfl

theorem toTypeRef_async {args : List TypeExpr} {t : TypeRef}
    (h : TypeExpr.toTypeRefs args = [t]) (span : Span) :
    (TypeExpr.path none "Async" args span).toTypeRef = .async t := by
  simp [h]

end EndpointCompiler.Source
