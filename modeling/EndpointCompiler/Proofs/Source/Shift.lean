import EndpointCompiler.Source.Tree

/-! Tokens and trees further on in a text. What is moved says the same, some bytes later. -/

namespace EndpointCompiler

def Span.shift (n : Nat) (s : Span) : Span :=
  ⟨n + s.start, n + s.stop⟩

@[simp] theorem Span.shift_zero (s : Span) : s.shift 0 = s := by
  simp [shift]

namespace Source

def Lexeme.shift (n : Nat) (l : Lexeme) : Lexeme :=
  ⟨l.token, l.span.shift n⟩

@[simp] theorem Lexeme.shift_token (n : Nat) (l : Lexeme) : (l.shift n).token = l.token := rfl

@[simp] theorem Lexeme.shift_span (n : Nat) (l : Lexeme) :
    (l.shift n).span = l.span.shift n := rfl

def Ident.shift (n : Nat) (i : Ident) : Ident :=
  ⟨i.name, i.span.shift n⟩

mutual

def TypeExpr.shift (n : Nat) : TypeExpr → TypeExpr
  | .path module name args span => .path module name (TypeExpr.shiftAll n args) (span.shift n)
  | .array element span => .array (element.shift n) (span.shift n)

def TypeExpr.shiftAll (n : Nat) : List TypeExpr → List TypeExpr
  | [] => []
  | t :: ts => t.shift n :: TypeExpr.shiftAll n ts

end

theorem TypeExpr.shiftAll_eq (n : Nat) (ts : List TypeExpr) :
    TypeExpr.shiftAll n ts = ts.map (·.shift n) := by
  induction ts with
  | nil => rfl
  | cons t ts ih => rw [TypeExpr.shiftAll, ih, List.map_cons]

@[simp] theorem TypeExpr.shift_span (n : Nat) (t : TypeExpr) :
    (t.shift n).span = t.span.shift n := by
  cases t <;> rfl

mutual

def Expr.shift (n : Nat) : Expr → Expr
  | .var name => .var (name.shift n)
  | .field base name span => .field (base.shift n) (name.shift n) (span.shift n)
  | .new type fields span => .new (type.shift n) (Expr.shiftFields n fields) (span.shift n)
  | .call function typeArgs args span =>
    .call (function.shift n) (typeArgs.map (·.shift n)) (Expr.shiftAll n args) (span.shift n)
  | .await inner span => .await (inner.shift n) (span.shift n)

def Expr.shiftFields (n : Nat) : List (Ident × Expr) → List (Ident × Expr)
  | [] => []
  | (name, value) :: fields => (name.shift n, value.shift n) :: Expr.shiftFields n fields

def Expr.shiftAll (n : Nat) : List Expr → List Expr
  | [] => []
  | e :: es => e.shift n :: Expr.shiftAll n es

end

theorem Expr.shiftFields_eq (n : Nat) (fields : List (Ident × Expr)) :
    Expr.shiftFields n fields = fields.map fun f => (f.1.shift n, f.2.shift n) := by
  induction fields with
  | nil => rfl
  | cons f fields ih => rw [Expr.shiftFields, ih, List.map_cons]

theorem Expr.shiftAll_eq (n : Nat) (es : List Expr) :
    Expr.shiftAll n es = es.map (·.shift n) := by
  induction es with
  | nil => rfl
  | cons e es ih => rw [Expr.shiftAll, ih, List.map_cons]

@[simp] theorem Expr.shift_span (n : Nat) (e : Expr) : (e.shift n).span = e.span.shift n := by
  cases e <;> rfl

def Stmt.shift (n : Nat) : Stmt → Stmt
  | .bind name value span => .bind (name.shift n) (value.shift n) (span.shift n)
  | .result value span => .result (value.shift n) (span.shift n)

def AttributeArg.shift (n : Nat) : AttributeArg → AttributeArg
  | .text value span => .text value (span.shift n)
  | .type t => .type (t.shift n)

def Attribute.shift (n : Nat) (a : Attribute) : Attribute :=
  ⟨a.name.shift n, a.args.map (·.shift n), a.span.shift n⟩

def FieldDecl.shift (n : Nat) (d : FieldDecl) : FieldDecl :=
  ⟨d.name.shift n, d.type.shift n⟩

def ShapeDecl.shift (n : Nat) (d : ShapeDecl) : ShapeDecl :=
  ⟨d.attributes.map (·.shift n), d.name.shift n, d.fields.map (·.shift n), d.span.shift n⟩

def ParamDecl.shift (n : Nat) (p : ParamDecl) : ParamDecl :=
  ⟨p.attributes.map (·.shift n), p.name.shift n, p.type.shift n⟩

def OpDecl.shift (n : Nat) (d : OpDecl) : OpDecl :=
  { attributes := d.attributes.map (·.shift n)
    isAsync := d.isAsync
    name := d.name.shift n
    params := d.params.map (·.shift n)
    result := d.result.shift n
    body := d.body.map (·.shift n)
    span := d.span.shift n }

/-- A declaration as it is read so many bytes later. -/
def Item.shift (n : Nat) : Item → Item
  | .shape d => .shape (d.shift n)
  | .op d => .op (d.shift n)

/-! Nothing is moved by no bytes. -/

theorem map_shift_eq_self {α : Type} {f : α → α} {as : List α} (h : ∀ a ∈ as, f a = a) :
    as.map f = as := by
  rw [List.map_congr_left h, List.map_id']

@[simp] theorem Lexeme.shift_zero (l : Lexeme) : l.shift 0 = l := by
  rw [shift, Span.shift_zero]

@[simp] theorem Ident.shift_zero (i : Ident) : i.shift 0 = i := by
  rw [shift, Span.shift_zero]

mutual

theorem TypeExpr.shift_zero : (t : TypeExpr) → t.shift 0 = t
  | .path module name args span => by
    rw [TypeExpr.shift, TypeExpr.shiftAll_zero args, Span.shift_zero]
  | .array element span => by
    rw [TypeExpr.shift, TypeExpr.shift_zero element, Span.shift_zero]

theorem TypeExpr.shiftAll_zero : (ts : List TypeExpr) → TypeExpr.shiftAll 0 ts = ts
  | [] => rfl
  | t :: ts => by rw [TypeExpr.shiftAll, TypeExpr.shift_zero t, TypeExpr.shiftAll_zero ts]

end

mutual

theorem Expr.shift_zero : (e : Expr) → e.shift 0 = e
  | .var name => by rw [Expr.shift, Ident.shift_zero]
  | .field base name span => by
    rw [Expr.shift, Expr.shift_zero base, Ident.shift_zero, Span.shift_zero]
  | .new type fields span => by
    rw [Expr.shift, TypeExpr.shift_zero, Expr.shiftFields_zero fields, Span.shift_zero]
  | .call function typeArgs args span => by
    rw [Expr.shift, Ident.shift_zero, map_shift_eq_self fun t _ => TypeExpr.shift_zero t,
      Expr.shiftAll_zero args, Span.shift_zero]
  | .await inner span => by rw [Expr.shift, Expr.shift_zero inner, Span.shift_zero]

theorem Expr.shiftFields_zero : (fields : List (Ident × Expr)) →
    Expr.shiftFields 0 fields = fields
  | [] => rfl
  | (name, value) :: fields => by
    rw [Expr.shiftFields, Ident.shift_zero, Expr.shift_zero value, Expr.shiftFields_zero fields]

theorem Expr.shiftAll_zero : (es : List Expr) → Expr.shiftAll 0 es = es
  | [] => rfl
  | e :: es => by rw [Expr.shiftAll, Expr.shift_zero e, Expr.shiftAll_zero es]

end

theorem Stmt.shift_zero (s : Stmt) : s.shift 0 = s := by
  cases s <;> simp [shift, Expr.shift_zero]

theorem Attribute.shift_zero (a : Attribute) : a.shift 0 = a := by
  have hargs : ∀ x ∈ a.args, x.shift 0 = x := by
    intro x _
    cases x <;> simp [AttributeArg.shift, TypeExpr.shift_zero]
  rw [shift, Ident.shift_zero, map_shift_eq_self hargs, Span.shift_zero]

theorem ShapeDecl.shift_zero (d : ShapeDecl) : d.shift 0 = d := by
  have hfields : ∀ f ∈ d.fields, f.shift 0 = f :=
    fun f _ => by rw [FieldDecl.shift, Ident.shift_zero, TypeExpr.shift_zero]
  rw [shift, map_shift_eq_self fun a _ => Attribute.shift_zero a, Ident.shift_zero,
    map_shift_eq_self hfields, Span.shift_zero]

theorem ParamDecl.shift_zero (p : ParamDecl) : p.shift 0 = p := by
  rw [shift, map_shift_eq_self fun a _ => Attribute.shift_zero a, Ident.shift_zero,
    TypeExpr.shift_zero]

theorem OpDecl.shift_zero (d : OpDecl) : d.shift 0 = d := by
  rw [shift, map_shift_eq_self fun a _ => Attribute.shift_zero a, Ident.shift_zero,
    map_shift_eq_self fun p _ => ParamDecl.shift_zero p, TypeExpr.shift_zero,
    map_shift_eq_self fun s _ => Stmt.shift_zero s, Span.shift_zero]

@[simp] theorem Item.shift_zero (i : Item) : i.shift 0 = i := by
  cases i with
  | shape d => rw [shift, ShapeDecl.shift_zero]
  | op d => rw [shift, OpDecl.shift_zero]

end Source

end EndpointCompiler
