import EndpointCompiler.Proofs.Source.Grammar
import EndpointCompiler.Proofs.Source.Ranges

/-! Trees as far as their ranges go. A tree is placed over tokens if the range of each node reaches
from the first to the last of its own, and its children have some of these, one after another. -/

namespace EndpointCompiler

/-- A range lies in another. -/
def Span.Within (s t : Span) : Prop :=
  t.start ≤ s.start ∧ s.stop ≤ t.stop

namespace Source

/-- The range of a node and those of its children. If the node is a type, it is here itself. -/
inductive Outline where
  | node (span : Span) (type? : Option TypeExpr) (children : List Outline)

namespace Outline

def span : Outline → Span
  | .node span _ _ => span

def type? : Outline → Option TypeExpr
  | .node _ type? _ => type?

def children : Outline → List Outline
  | .node _ _ children => children

def leaf (span : Span) : Outline :=
  .node span none []

/-- One outline stands somewhere in another. -/
inductive Node : Outline → Outline → Prop where
  | self (o : Outline) : Node o o
  | child {x c o : Outline} : c ∈ o.children → Node x c → Node x o

/-- A node has a range that contains those of its children, which are in order. -/
structure Fits (o : Outline) : Prop where
  nonempty : o.span.start < o.span.stop
  contains : ∀ c ∈ o.children, c.span.Within o.span
  inOrder : o.children.Pairwise fun a b => a.span.stop ≤ b.span.start

end Outline

mutual

def TypeExpr.outline : TypeExpr → Outline
  | .path module name args span =>
    .node span (some (.path module name args span)) (TypeExpr.outlines args)
  | .array element span => .node span (some (.array element span)) [element.outline]

def TypeExpr.outlines : List TypeExpr → List Outline
  | [] => []
  | t :: ts => t.outline :: TypeExpr.outlines ts

end

theorem TypeExpr.outlines_eq (ts : List TypeExpr) : TypeExpr.outlines ts = ts.map (·.outline) := by
  induction ts with
  | nil => rfl
  | cons t ts ih => rw [TypeExpr.outlines, ih, List.map_cons]

mutual

def Expr.outline : Expr → Outline
  | .var name => .leaf name.span
  | .field base name span => .node span none [base.outline, .leaf name.span]
  | .new type fields span => .node span none (type.outline :: Expr.fieldOutlines fields)
  | .call function typeArgs args span =>
    .node span none
      (.leaf function.span :: typeArgs.map (·.outline) ++ Expr.outlines args)
  | .await inner span => .node span none [inner.outline]

def Expr.fieldOutlines : List (Ident × Expr) → List Outline
  | [] => []
  | (name, value) :: fields => .leaf name.span :: value.outline :: Expr.fieldOutlines fields

def Expr.outlines : List Expr → List Outline
  | [] => []
  | e :: es => e.outline :: Expr.outlines es

end

theorem Expr.fieldOutlines_eq (fields : List (Ident × Expr)) :
    Expr.fieldOutlines fields = fields.flatMap fun f => [.leaf f.1.span, f.2.outline] := by
  induction fields with
  | nil => rfl
  | cons f fields ih =>
    rw [Expr.fieldOutlines, ih, List.flatMap_cons]
    rfl

theorem Expr.outlines_eq (es : List Expr) : Expr.outlines es = es.map (·.outline) := by
  induction es with
  | nil => rfl
  | cons e es ih => rw [Expr.outlines, ih, List.map_cons]

def Stmt.outline : Stmt → Outline
  | .bind name value span => .node span none [.leaf name.span, value.outline]
  | .result value span => .node span none [value.outline]

def AttributeArg.outline : AttributeArg → Outline
  | .text _ span => .leaf span
  | .type t => t.outline

def Attribute.outline (a : Attribute) : Outline :=
  .node a.span none (.leaf a.name.span :: a.args.map (·.outline))

/-- A field has no range of its own. -/
def FieldDecl.outlines (d : FieldDecl) : List Outline :=
  [.leaf d.name.span, d.type.outline]

def ShapeDecl.outline (d : ShapeDecl) : Outline :=
  .node d.span none
    (d.attributes.map (·.outline) ++ .leaf d.name.span :: d.fields.flatMap (·.outlines))

/-- A parameter has no range of its own. -/
def ParamDecl.outlines (p : ParamDecl) : List Outline :=
  p.attributes.map (·.outline) ++ [.leaf p.name.span, p.type.outline]

def OpDecl.outline (d : OpDecl) : Outline :=
  .node d.span none
    (d.attributes.map (·.outline) ++ .leaf d.name.span :: d.params.flatMap (·.outlines) ++
      d.result.outline :: d.body.map (·.outline))

def Item.outline : Item → Outline
  | .shape d => d.outline
  | .op d => d.outline

@[simp] theorem TypeExpr.outline_span (t : TypeExpr) : t.outline.span = t.span := by
  cases t <;> rfl

@[simp] theorem Expr.outline_span (e : Expr) : e.outline.span = e.span := by
  cases e <;> rfl

@[simp] theorem Stmt.outline_span (s : Stmt) : s.outline.span = s.span := by
  cases s <;> rfl

/-! Tokens and their ranges. -/

/-- Tokens one after another, none of which is empty. -/
structure Ordered (ks : Tokens) : Prop where
  inOrder : InOrder ks
  nonempty : ∀ l ∈ ks, l.span.start < l.span.stop

/-- The range from the first token to the last. -/
def Hull (ks : Tokens) (s : Span) : Prop :=
  ∃ first last, ks.head? = some first ∧ ks.getLast? = some last ∧
    s = ⟨first.span.start, last.span.stop⟩

/-- Things over some of the tokens each, one after another. -/
inductive InTurn {α : Type} (P : Tokens → α → Prop) : Tokens → List α → Prop where
  | nil (ks : Tokens) : InTurn P ks []
  | cons {ks ms : Tokens} {a : α} {as : List α} (before : Tokens) :
      P ks a → InTurn P ms as → InTurn P (before ++ ks ++ ms) (a :: as)

section

variable {α β : Type} {P : Tokens → α → Prop} {Q : Tokens → β → Prop} {ks ms : Tokens}
  {l : Lexeme} {s t : Span} {a : α} {as bs : List α}

theorem Ordered.sublist (h : Ordered ks) (hsub : ms.Sublist ks) : Ordered ms :=
  ⟨h.inOrder.sublist hsub, fun l hl => h.nonempty l (hsub.subset hl)⟩

theorem hull_singleton (l : Lexeme) : Hull [l] l.span :=
  ⟨l, l, rfl, rfl, rfl⟩

theorem Hull.through (h : Hull ks s) (h' : Hull ms t) (between : Tokens) :
    Hull (ks ++ between ++ ms) ⟨s.start, t.stop⟩ := by
  obtain ⟨first, -, hfirst, -, rfl⟩ := h
  obtain ⟨-, last, -, hlast, rfl⟩ := h'
  refine ⟨first, last, ?_, ?_, rfl⟩
  · rw [List.append_assoc, List.head?_append, hfirst, Option.some_or]
  · rw [List.getLast?_append, hlast, Option.some_or]

theorem Hull.cons (h : Hull ks s) (l : Lexeme) : Hull (l :: ks) ⟨l.span.start, s.stop⟩ :=
  (hull_singleton l).through h []

theorem hull_between (l m : Lexeme) (ks : Tokens) :
    Hull (l :: ks ++ [m]) ⟨l.span.start, m.span.stop⟩ :=
  (hull_singleton l).through (hull_singleton m) ks

theorem Hull.bounds (h : Hull ks s) (ho : Ordered ks) :
    ∀ k ∈ ks, s.start ≤ k.span.start ∧ k.span.stop ≤ s.stop := by
  obtain ⟨first, last, hfirst, hlast, rfl⟩ := h
  intro k hk
  constructor
  · obtain ⟨more, rfl⟩ := List.head?_eq_some_iff.mp hfirst
    rcases List.mem_cons.mp hk with rfl | hk
    · exact Nat.le_refl _
    · have hnext := (List.pairwise_cons.mp ho.inOrder).1 k hk
      exact Nat.le_trans (Nat.le_of_lt (ho.nonempty first List.mem_cons_self)) hnext
  · obtain ⟨more, rfl⟩ := List.getLast?_eq_some_iff.mp hlast
    rcases List.mem_append.mp hk with hk | hk
    · have hnext := (List.pairwise_append.mp ho.inOrder).2.2 k hk last List.mem_cons_self
      exact Nat.le_trans hnext (Nat.le_of_lt (ho.nonempty last (by simp)))
    · obtain rfl := List.mem_singleton.mp hk
      exact Nat.le_refl _

theorem Hull.nonempty (h : Hull ks s) (ho : Ordered ks) : s.start < s.stop := by
  have hbounds := h.bounds ho
  obtain ⟨first, -, hfirst, -, -⟩ := h
  have hmem := List.mem_of_head? hfirst
  have hfirst := ho.nonempty first hmem
  have hfirst' := hbounds first hmem
  omega

theorem Hull.within (h : Hull ms t) (h' : Hull ks s) (hsub : ms.Sublist ks) (ho : Ordered ks) :
    t.Within s := by
  have hbounds := h'.bounds ho
  obtain ⟨first, last, hfirst, hlast, rfl⟩ := h
  exact ⟨(hbounds first (hsub.subset (List.mem_of_head? hfirst))).1,
    (hbounds last (hsub.subset (List.mem_of_getLast? hlast))).2⟩

theorem InTurn.before (h : InTurn P ks as) (before : Tokens) : InTurn P (before ++ ks) as := by
  cases h with
  | nil => exact .nil _
  | cons before' ha has =>
    have hall := InTurn.cons (before ++ before') ha has
    simpa using hall

theorem InTurn.append (h : InTurn P ks as) (h' : InTurn P ms bs) :
    InTurn P (ks ++ ms) (as ++ bs) := by
  induction h with
  | nil ks => exact h'.before ks
  | cons before ha _ ih =>
    have hall := InTurn.cons before ha ih
    simpa using hall

theorem InTurn.after (h : InTurn P ks as) (after : Tokens) : InTurn P (ks ++ after) as := by
  have hall := h.append (.nil after)
  rwa [List.append_nil] at hall

theorem inTurn_singleton (h : P ks a) : InTurn P ks [a] := by
  have hall := InTurn.cons [] h (.nil [])
  simpa using hall

theorem InTurn.cons_self (h : P [l] a) (has : InTurn P ks as) : InTurn P (l :: ks) (a :: as) :=
  (inTurn_singleton h).append has

theorem InTurn.cons_token (h : InTurn P ks as) (l : Lexeme) : InTurn P (l :: ks) as :=
  h.before [l]

theorem InTurn.mem (h : InTurn P ks as) (ha : a ∈ as) : ∃ ms, ms <:+: ks ∧ P ms a := by
  induction h with
  | nil => cases ha
  | @cons ks ms b as before hb _ ih =>
    rcases List.mem_cons.mp ha with rfl | ha
    · exact ⟨ks, ⟨before, ms, rfl⟩, hb⟩
    · obtain ⟨ns, hns, hP⟩ := ih ha
      exact ⟨ns, hns.trans (List.suffix_append _ _).isInfix, hP⟩

theorem InTurn.flatMap {f : α → List β} (h : InTurn P ks as)
    (hf : ∀ ks a, P ks a → InTurn Q ks (f a)) : InTurn Q ks (as.flatMap f) := by
  induction h with
  | nil ks => exact .nil ks
  | cons before ha _ ih =>
    rw [List.flatMap_cons, List.append_assoc]
    exact ((hf _ _ ha).append ih).before before

theorem InTurn.map {f : α → β} (h : InTurn P ks as) (hf : ∀ ks a, P ks a → Q ks (f a)) :
    InTurn Q ks (as.map f) := by
  rw [← List.flatMap_singleton' (as.map f), List.flatMap_map]
  exact h.flatMap fun ks a ha => inTurn_singleton (hf ks a ha)

/-- All tokens of one thing stand before those of a later one. -/
theorem InTurn.pairwise {R : α → α → Prop} (h : InTurn P ks as) (ho : Ordered ks)
    (hR : ∀ ms ns a b, P ms a → P ns b → (∀ k ∈ ms, ∀ l ∈ ns, k.span.stop ≤ l.span.start) → R a b) :
    as.Pairwise R := by
  induction h with
  | nil => exact .nil
  | @cons ks ms a as before ha has ih =>
    have horder := (List.pairwise_append.mp ho.inOrder).2.2
    refine List.pairwise_cons.mpr ⟨fun b hb => ?_, ih (ho.sublist (List.sublist_append_right _ _))⟩
    obtain ⟨ns, hns, hb⟩ := has.mem hb
    refine hR ks ns a b ha hb fun k hk l hl => horder k ?_ l (hns.sublist.subset hl)
    exact List.mem_append_right _ hk

end

/-- An outline whose ranges are those of tokens, and whose types are written by theirs. -/
structure Placed (ks : Tokens) (o : Outline) : Prop where
  hull : Hull ks o.span
  fits : Ordered ks → ∀ x : Outline, x.Node o → x.Fits
  types : ∀ (x : Outline) (t : TypeExpr), x.Node o → x.type? = some t →
    ∃ ms, ms <:+: ks ∧ Hull ms t.span ∧ TypePhrase (ms.map (·.token)) t.bare

section

variable {ks ms : Tokens} {span : Span} {type? : Option TypeExpr} {a b : Outline}
  {children : List Outline}

theorem Placed.before (ha : Placed ks a) (hb : Placed ms b)
    (h : ∀ k ∈ ks, ∀ l ∈ ms, k.span.stop ≤ l.span.start) : a.span.stop ≤ b.span.start := by
  obtain ⟨_, last, _, hlast, hstop⟩ := ha.hull
  obtain ⟨first, _, hfirst, _, hstart⟩ := hb.hull
  rw [hstop, hstart]
  exact h last (List.mem_of_getLast? hlast) first (List.mem_of_head? hfirst)

/-- It is enough to know where a node stands and that its children do so in turn. -/
theorem Placed.node (hspan : Hull ks span) (hchildren : InTurn Placed ks children)
    (htype : ∀ t, type? = some t → t.span = span ∧ TypePhrase (ks.map (·.token)) t.bare) :
    Placed ks (.node span type? children) where
  hull := hspan
  fits := by
    intro ho x hx
    cases hx with
    | self =>
      refine ⟨hspan.nonempty ho, fun c hc => ?_, hchildren.pairwise ho fun _ _ _ _ => Placed.before⟩
      obtain ⟨ms, hms, hplaced⟩ := hchildren.mem hc
      exact hplaced.hull.within hspan hms.sublist ho
    | child hc hx =>
      obtain ⟨ms, hms, hplaced⟩ := hchildren.mem hc
      exact hplaced.fits (ho.sublist hms.sublist) x hx
  types := by
    intro x t hx ht
    cases hx with
    | self =>
      obtain ⟨hspan', hphrase⟩ := htype t ht
      exact ⟨ks, List.infix_rfl, hspan' ▸ hspan, hphrase⟩
    | child hc hx =>
      obtain ⟨ms, hms, hplaced⟩ := hchildren.mem hc
      obtain ⟨ns, hns, hrest⟩ := hplaced.types x t hx ht
      exact ⟨ns, hns.trans hms, hrest⟩

theorem Placed.plain (hspan : Hull ks span) (hchildren : InTurn Placed ks children) :
    Placed ks (.node span none children) :=
  .node hspan hchildren nofun

theorem placed_leaf (l : Lexeme) : Placed [l] (.leaf l.span) :=
  .plain (hull_singleton l) (.nil _)

/-- The type of a node is the one that it is made for. -/
theorem TypeExpr.placed {t : TypeExpr} (hspan : Hull ks t.span)
    (hphrase : TypePhrase (ks.map (·.token)) t.bare)
    (hchildren : InTurn Placed ks t.outline.children) : Placed ks t.outline := by
  cases t with
  | path module name args span =>
    refine Placed.node hspan hchildren fun t ht => ?_
    cases ht
    exact ⟨rfl, hphrase⟩
  | array element span =>
    refine Placed.node hspan hchildren fun t ht => ?_
    cases ht
    exact ⟨rfl, hphrase⟩

end

end Source

end EndpointCompiler
