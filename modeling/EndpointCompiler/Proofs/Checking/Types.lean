import EndpointCompiler.Checking.Types
import EndpointCompiler.Proofs.Checking.Yield
import EndpointCompiler.Proofs.Source.TypeExpr

/-! Which types a compilation can name, and what it makes of them: the type as it is written, with
the names of its own shapes put into its own module. -/

namespace EndpointCompiler

namespace TypeRef

mutual

/-- The type with names that have no module put into the given one. -/
def qualify (module : ModuleId) : TypeRef → TypeRef
  | .named m name args => .named (some (m.getD module)) name (qualifyAll module args)
  | .array t => .array (t.qualify module)
  | .async t => .async (t.qualify module)

def qualifyAll (module : ModuleId) : List TypeRef → List TypeRef
  | [] => []
  | t :: ts => t.qualify module :: qualifyAll module ts

end

theorem qualify_isAsync (module : ModuleId) (t : TypeRef) :
    (t.qualify module).isAsync = t.isAsync := by
  cases t <;> rfl

theorem unwrapAsync_of_not_isAsync {t : TypeRef} (h : t.isAsync = false) : t.unwrapAsync = t := by
  cases t with
  | async t => cases h
  | _ => rfl

end TypeRef

namespace TypeScope

open Source Checked

mutual

/-- The types that can be written: shapes without arguments, types of referenced modules with as
many arguments as they take, and asynchronous ones at the outside if they are allowed. -/
def Admits (s : TypeScope) (allowAsync : Bool) : TypeRef → Prop
  | .named none name args => name ≠ "Async" ∧ (s.shape? name).isSome ∧ args = []
  | .named (some m) name args =>
    if m = s.module then (s.shape? name).isSome ∧ args = []
    else (∃ info, s.references.lookup? m name = some info ∧ info.genericArity = args.length) ∧
      s.AdmitsAll args
  | .array t => s.Admits false t
  | .async t => allowAsync = true ∧ s.Admits false t

def AdmitsAll (s : TypeScope) : List TypeRef → Prop
  | [] => True
  | t :: ts => s.Admits false t ∧ s.AdmitsAll ts

end

theorem Admits.isAsync {s : TypeScope} {t : TypeRef} (h : s.Admits false t) :
    t.isAsync = false := by
  cases t with
  | async t => exact absurd h.1 (by decide)
  | _ => rfl

theorem resolveShape_yields_iff {s : TypeScope} {name : String} {argCount : Nat} {span : Span}
    {r : TypeRef} :
    (s.resolveShape name argCount span).Yields r ↔
      ((s.shape? name).isSome ∧ argCount = 0) ∧ r = .declared s.module name := by
  unfold resolveShape
  split
  · rename_i h
    have hs : (s.shape? name).isSome = false := by simpa using h
    simp [hs]
  · rename_i h
    have hs : (s.shape? name).isSome := by simpa [Option.isSome_iff_ne_none] using h
    split
    · rename_i hn
      simp [hn]
    · rename_i hn
      have hn' : argCount = 0 := Decidable.not_not.mp hn
      simp only [hs, hn', true_and, yields_pure', eq_comm]

theorem resolveReferenced_yields_iff {s : TypeScope} {m : ModuleId} {name : String}
    {argCount : Nat} {span : Span} {info : TypeInfo} :
    (s.resolveReferenced m name argCount span).Yields info ↔
      s.references.lookup? m name = some info ∧ info.genericArity = argCount := by
  unfold resolveReferenced ReferenceSet.lookup?
  cases hm : s.references.module? m with
  | none => simp
  | some found =>
    cases ht : found.type? name with
    | none => simp [ht]
    | some i =>
      simp only [ht, Option.bind_some, Option.some.injEq]
      split
      · rename_i ha
        exact yields_pure'.trans ⟨fun h => ⟨h, h ▸ ha⟩, And.left⟩
      · rename_i ha
        simp only [not_yields_fail, false_iff, not_and]
        exact fun h h' => ha (h ▸ h')

mutual

/-- A type is resolved if it can be written, to itself with its shapes qualified. -/
theorem resolve_yields_iff (s : TypeScope) (allowAsync : Bool) (t : TypeExpr) (r : TypeRef) :
    (s.resolve allowAsync t).Yields r ↔
      s.Admits allowAsync t.toTypeRef ∧ r = t.toTypeRef.qualify s.module := by
  match t with
  | .array element _ =>
    simp only [resolve, TypeExpr.toTypeRef, Admits, TypeRef.qualify, yields_bind, yields_pure,
      resolve_yields_iff s false element]
    constructor
    · rintro ⟨u, ⟨ha, rfl⟩, rfl⟩
      exact ⟨ha, rfl⟩
    · rintro ⟨ha, rfl⟩
      exact ⟨_, ⟨ha, rfl⟩, rfl⟩
  | .path none name args span =>
    -- Only this name, without a module, depends on where the type stands.
    by_cases hn : name = "Async"
    · subst hn
      unfold resolve
      match args with
      | [] => cases allowAsync <;> simp [TypeExpr.toTypeRef, TypeExpr.toTypeRefs, Admits]
      | [arg] =>
        cases allowAsync with
        | false => simp [TypeExpr.toTypeRef, TypeExpr.toTypeRefs, Admits]
        | true =>
          simp only [if_true, Bool.not_true, Bool.false_eq_true, if_false, TypeExpr.toTypeRef,
            TypeExpr.toTypeRefs, Admits, TypeRef.qualify, yields_bind, yields_pure, true_and,
            resolve_yields_iff s false arg]
          constructor
          · rintro ⟨u, ⟨ha, rfl⟩, rfl⟩
            exact ⟨ha, rfl⟩
          · rintro ⟨ha, rfl⟩
            exact ⟨_, ⟨ha, rfl⟩, rfl⟩
      | a :: b :: args => cases allowAsync <;> simp [TypeExpr.toTypeRef, TypeExpr.toTypeRefs, Admits]
    · rw [toTypeRef_path (fun h => hn h.2.1)]
      unfold resolve
      simp only [hn, if_false, resolveShape_yields_iff, Admits, ne_eq, not_false_iff,
        true_and, toTypeRefs_eq_nil, TypeRef.qualify, Option.getD_none, List.length_eq_zero_iff]
      refine and_congr_right fun h => ?_
      rw [h.2]
      rfl
  | .path (some m) name args span =>
    rw [toTypeRef_path (by simp)]
    simp only [resolve, Admits, TypeRef.qualify, Option.getD_some]
    split
    · rename_i hm
      simp only [resolveShape_yields_iff, toTypeRefs_eq_nil, List.length_eq_zero_iff]
      refine and_congr_right fun h => ?_
      rw [h.2, hm]
      rfl
    · simp only [yields_bind, yields_pure, resolveReferenced_yields_iff, toTypeRefs_length,
        resolveAll_yields_iff s args]
      constructor
      · rintro ⟨info, hi, ts, ⟨ha, rfl⟩, rfl⟩
        exact ⟨⟨⟨info, hi⟩, ha⟩, rfl⟩
      · rintro ⟨⟨⟨info, hi⟩, ha⟩, rfl⟩
        exact ⟨info, hi, _, ⟨ha, rfl⟩, rfl⟩

theorem resolveAll_yields_iff (s : TypeScope) (ts : List TypeExpr) (rs : List TypeRef) :
    (s.resolveAll ts).Yields rs ↔
      s.AdmitsAll (TypeExpr.toTypeRefs ts) ∧
        rs = TypeRef.qualifyAll s.module (TypeExpr.toTypeRefs ts) := by
  match ts with
  | [] =>
    simp only [resolveAll, TypeExpr.toTypeRefs, AdmitsAll, TypeRef.qualifyAll, true_and]
    exact yields_pure'.trans eq_comm
  | t :: ts =>
    simp only [resolveAll, TypeExpr.toTypeRefs, AdmitsAll, TypeRef.qualifyAll, yields_bind,
      Prod.exists, yields_both, yields_pure, resolve_yields_iff s false t,
      resolveAll_yields_iff s ts]
    constructor
    · rintro ⟨a, as, ⟨⟨ha, rfl⟩, has, rfl⟩, rfl⟩
      exact ⟨⟨ha, has⟩, rfl⟩
    · rintro ⟨⟨ha, has⟩, rfl⟩
      exact ⟨_, _, ⟨⟨ha, rfl⟩, has, rfl⟩, rfl⟩

end

theorem resolveShape_loud (s : TypeScope) (name : String) (argCount : Nat) (span : Span) :
    (s.resolveShape name argCount span).Loud := by
  unfold resolveShape
  split
  · exact loud_fail rfl
  · split
    · exact loud_fail rfl
    · exact loud_pure' _

theorem resolveReferenced_loud (s : TypeScope) (m : ModuleId) (name : String) (argCount : Nat)
    (span : Span) : (s.resolveReferenced m name argCount span).Loud := by
  unfold resolveReferenced
  split
  · exact loud_fail rfl
  · split
    · exact loud_fail rfl
    · split
      · exact loud_pure' _
      · exact loud_fail rfl

mutual

theorem resolve_loud (s : TypeScope) (allowAsync : Bool) (t : TypeExpr) :
    (s.resolve allowAsync t).Loud := by
  match t with
  | .array element _ =>
    rw [resolve]
    exact (resolve_loud s false element).bind fun _ _ => loud_pure _
  | .path none name args span =>
    unfold resolve
    split
    · split
      · exact loud_fail rfl
      · split
        · rename_i arg
          exact (resolve_loud s false arg).bind fun _ _ => loud_pure _
        · exact loud_fail rfl
    · exact s.resolveShape_loud _ _ _
  | .path (some m) name args span =>
    rw [resolve]
    split
    · exact s.resolveShape_loud _ _ _
    · exact (s.resolveReferenced_loud _ _ _ _).bind fun _ _ =>
        (resolveAll_loud s args).bind fun _ _ => loud_pure _

theorem resolveAll_loud (s : TypeScope) (ts : List TypeExpr) : (s.resolveAll ts).Loud := by
  match ts with
  | [] => exact loud_pure' _
  | t :: ts =>
    rw [resolveAll]
    exact ((resolve_loud s false t).both (resolveAll_loud s ts)).bind fun _ _ => loud_pure _

end

end TypeScope

end EndpointCompiler
