import EndpointCompiler.Proofs.Source.TypeExpr

/-! Trees without their ranges. What is left of a declaration is what it says, wherever in a text it
stands and however it is laid out. -/

namespace EndpointCompiler.Source

/-- The range of every node of a bare tree. -/
def noSpan : Span := ⟨0, 0⟩

def Ident.bare (i : Ident) : Ident :=
  ⟨i.name, noSpan⟩

mutual

/-- A written type without its ranges. -/
def TypeExpr.bare : TypeExpr → TypeExpr
  | .path module name args _ => .path module name (TypeExpr.bareAll args) noSpan
  | .array element _ => .array element.bare noSpan

def TypeExpr.bareAll : List TypeExpr → List TypeExpr
  | [] => []
  | t :: ts => t.bare :: TypeExpr.bareAll ts

end

def AttributeArg.bare : AttributeArg → AttributeArg
  | .text value _ => .text value noSpan
  | .type t => .type t.bare

def Attribute.bare (a : Attribute) : Attribute :=
  ⟨a.name.bare, a.args.map (·.bare), noSpan⟩

def FieldDecl.bare (d : FieldDecl) : FieldDecl :=
  ⟨d.name.bare, d.type.bare⟩

def ShapeDecl.bare (d : ShapeDecl) : ShapeDecl :=
  ⟨d.attributes.map (·.bare), d.name.bare, d.fields.map (·.bare), noSpan⟩

def ParamDecl.bare (p : ParamDecl) : ParamDecl :=
  ⟨p.attributes.map (·.bare), p.name.bare, p.type.bare⟩

mutual

/-- An expression without its ranges. -/
def Expr.bare : Expr → Expr
  | .var name => .var name.bare
  | .field base name _ => .field base.bare name.bare noSpan
  | .new type fields _ => .new type.bare (Expr.bareFields fields) noSpan
  | .call function typeArgs args _ =>
    .call function.bare (typeArgs.map (·.bare)) (Expr.bareAll args) noSpan
  | .await inner _ => .await inner.bare noSpan

def Expr.bareFields : List (Ident × Expr) → List (Ident × Expr)
  | [] => []
  | (name, value) :: fields => (name.bare, value.bare) :: Expr.bareFields fields

def Expr.bareAll : List Expr → List Expr
  | [] => []
  | e :: es => e.bare :: Expr.bareAll es

end

def Stmt.bare : Stmt → Stmt
  | .bind name value _ => .bind name.bare value.bare noSpan
  | .result value _ => .result value.bare noSpan

def OpDecl.bare (d : OpDecl) : OpDecl :=
  { attributes := d.attributes.map (·.bare)
    isAsync := d.isAsync
    name := d.name.bare
    params := d.params.map (·.bare)
    result := d.result.bare
    body := d.body.map (·.bare)
    span := noSpan }

/-- A declaration without its ranges. -/
def Item.bare : Item → Item
  | .shape d => .shape d.bare
  | .op d => .op d.bare

@[simp] theorem Ident.bare_name (i : Ident) : i.bare.name = i.name := rfl

@[simp] theorem Ident.bare_span (i : Ident) : i.bare.span = noSpan := rfl

@[simp] theorem TypeExpr.bare_span (t : TypeExpr) : t.bare.span = noSpan := by
  cases t <;> rfl

@[simp] theorem Expr.bare_span (e : Expr) : e.bare.span = noSpan := by
  cases e <;> rfl

@[simp] theorem Stmt.bare_span (s : Stmt) : s.bare.span = noSpan := by
  cases s <;> rfl

theorem TypeExpr.bareAll_eq (ts : List TypeExpr) : TypeExpr.bareAll ts = ts.map (·.bare) := by
  induction ts with
  | nil => rfl
  | cons t ts ih => rw [TypeExpr.bareAll, ih, List.map_cons]

theorem Expr.bareAll_eq (es : List Expr) : Expr.bareAll es = es.map (·.bare) := by
  induction es with
  | nil => rfl
  | cons e es ih => rw [Expr.bareAll, ih, List.map_cons]

theorem Expr.bareFields_eq (fields : List (Ident × Expr)) :
    Expr.bareFields fields = fields.map fun f => (f.1.bare, f.2.bare) := by
  induction fields with
  | nil => rfl
  | cons f fields ih => rw [Expr.bareFields, ih, List.map_cons]

mutual

@[simp] theorem TypeExpr.toTypeRef_bare : (t : TypeExpr) → t.bare.toTypeRef = t.toTypeRef
  | .path module name args span => by
    rw [TypeExpr.bare, TypeExpr.toTypeRef.eq_def, TypeExpr.toTypeRef.eq_def]
    simp only [TypeExpr.toTypeRefs_bareAll args]
  | .array element span => by
    rw [TypeExpr.bare, TypeExpr.toTypeRef, TypeExpr.toTypeRef_bare element, TypeExpr.toTypeRef]

theorem TypeExpr.toTypeRefs_bareAll : (ts : List TypeExpr) →
    TypeExpr.toTypeRefs (TypeExpr.bareAll ts) = TypeExpr.toTypeRefs ts
  | [] => rfl
  | t :: ts => by
    rw [TypeExpr.bareAll, TypeExpr.toTypeRefs, TypeExpr.toTypeRef_bare t,
      TypeExpr.toTypeRefs_bareAll ts, TypeExpr.toTypeRefs]

end

@[simp] theorem TypeExpr.bareAll_length (ts : List TypeExpr) :
    (TypeExpr.bareAll ts).length = ts.length := by
  rw [TypeExpr.bareAll_eq, List.length_map]

end EndpointCompiler.Source
