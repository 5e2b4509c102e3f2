import EndpointCompiler.Proofs.Source.Ranges
import EndpointCompiler.Proofs.Source.Tokens

/-! The spans in trees, and spans over tokens. A reader is held to two things: the spans that it
makes are over the tokens that it takes, and where it refuses them, it does so at one of them. -/

namespace EndpointCompiler.Source

/-! All spans in a tree. -/

mutual

def TypeExpr.spans : TypeExpr → List Span
  | .path _ _ args span => span :: TypeExpr.allSpans args
  | .array element span => span :: element.spans

def TypeExpr.allSpans : List TypeExpr → List Span
  | [] => []
  | t :: ts => t.spans ++ TypeExpr.allSpans ts

end

mutual

def Expr.spans : Expr → List Span
  | .var name => [name.span]
  | .field base name span => span :: name.span :: base.spans
  | .new type fields span => span :: type.spans ++ Expr.fieldSpans fields
  | .call function typeArgs args span =>
    span :: function.span :: typeArgs.flatMap (·.spans) ++ Expr.allSpans args
  | .await inner span => span :: inner.spans

def Expr.fieldSpans : List (Ident × Expr) → List Span
  | [] => []
  | (name, value) :: fields => name.span :: value.spans ++ Expr.fieldSpans fields

def Expr.allSpans : List Expr → List Span
  | [] => []
  | e :: es => e.spans ++ Expr.allSpans es

end

def Stmt.spans : Stmt → List Span
  | .bind name value span => span :: name.span :: value.spans
  | .result value span => span :: value.spans

def AttributeArg.spans : AttributeArg → List Span
  | .text _ span => [span]
  | .type t => t.spans

def Attribute.spans (a : Attribute) : List Span :=
  a.span :: a.name.span :: a.args.flatMap (·.spans)

def FieldDecl.spans (d : FieldDecl) : List Span :=
  d.name.span :: d.type.spans

def ShapeDecl.spans (d : ShapeDecl) : List Span :=
  d.span :: d.name.span :: d.attributes.flatMap (·.spans) ++ d.fields.flatMap (·.spans)

def ParamDecl.spans (p : ParamDecl) : List Span :=
  p.name.span :: p.attributes.flatMap (·.spans) ++ p.type.spans

def OpDecl.spans (d : OpDecl) : List Span :=
  d.span :: d.name.span :: d.attributes.flatMap (·.spans) ++ d.params.flatMap (·.spans) ++
    d.result.spans ++ d.body.flatMap (·.spans)

def Item.spans : Item → List Span
  | .shape d => d.spans
  | .op d => d.spans

theorem TypeExpr.allSpans_eq (ts : List TypeExpr) :
    TypeExpr.allSpans ts = ts.flatMap (·.spans) := by
  induction ts with
  | nil => rfl
  | cons t ts ih => rw [TypeExpr.allSpans, ih, List.flatMap_cons]

theorem Expr.allSpans_eq (es : List Expr) : Expr.allSpans es = es.flatMap (·.spans) := by
  induction es with
  | nil => rfl
  | cons e es ih => rw [Expr.allSpans, ih, List.flatMap_cons]

theorem Expr.fieldSpans_eq (fields : List (Ident × Expr)) :
    Expr.fieldSpans fields = fields.flatMap fun f => f.1.span :: f.2.spans := by
  induction fields with
  | nil => rfl
  | cons f fields ih => rw [Expr.fieldSpans, ih, List.flatMap_cons]

theorem TypeExpr.span_mem_spans (t : TypeExpr) : t.span ∈ t.spans := by
  cases t <;> simp [TypeExpr.span, TypeExpr.spans]

theorem Expr.span_mem_spans (e : Expr) : e.span ∈ e.spans := by
  cases e <;> simp [Expr.span, Expr.spans]

theorem Stmt.span_mem_spans (s : Stmt) : s.span ∈ s.spans := by
  cases s <;> simp [Stmt.span, Stmt.spans]

/-! Spans over tokens. -/

/-- A span is that of a token, or reaches from one token to a later one. -/
def Spans (ts : Tokens) (s : Span) : Prop :=
  (∃ l ∈ ts, s = l.span) ∨ ∃ a b : Lexeme, [a, b].Sublist ts ∧ s = ⟨a.span.start, b.span.stop⟩

/-- All of some spans are over the given tokens. -/
def Inside (ts : Tokens) (spans : List Span) : Prop :=
  ∀ s ∈ spans, Spans ts s

section

variable {ts rest : Tokens} {l : Lexeme} {s : Span} {ss ss' : List Span}

theorem spans_of_mem (h : l ∈ ts) : Spans ts l.span :=
  .inl ⟨l, h, rfl⟩

theorem Spans.mono (h : Spans rest s) (hsub : rest.Sublist ts) : Spans ts s := by
  rcases h with ⟨l, hl, rfl⟩ | ⟨a, b, hab, rfl⟩
  · exact .inl ⟨l, hsub.subset hl, rfl⟩
  · exact .inr ⟨a, b, hab.trans hsub, rfl⟩

/-- From the first token to the end of a span. -/
theorem Spans.from_head (h : Spans (l :: ts) s) : Spans (l :: ts) ⟨l.span.start, s.stop⟩ := by
  obtain ⟨b, hb, hstop⟩ : ∃ b ∈ l :: ts, s.stop = b.span.stop := by
    rcases h with ⟨b, hb, rfl⟩ | ⟨a, b, hab, rfl⟩
    · exact ⟨b, hb, rfl⟩
    · exact ⟨b, hab.subset (by simp), rfl⟩
  rw [hstop]
  rcases List.mem_cons.mp hb with rfl | hb
  · exact .inl ⟨b, hb, rfl⟩
  · exact .inr ⟨l, b, (List.singleton_sublist.mpr hb).cons_cons l, rfl⟩

theorem inside_nil : Inside ts [] :=
  nofun

theorem inside_cons : Inside ts (s :: ss) ↔ Spans ts s ∧ Inside ts ss :=
  List.forall_mem_cons

theorem inside_append : Inside ts (ss ++ ss') ↔ Inside ts ss ∧ Inside ts ss' :=
  List.forall_mem_append

theorem inside_flatMap {α : Type} {as : List α} {f : α → List Span} :
    Inside ts (as.flatMap f) ↔ ∀ a ∈ as, Inside ts (f a) :=
  List.forall_mem_flatMap

theorem Inside.mono (h : Inside rest ss) (hsub : rest.Sublist ts) : Inside ts ss :=
  fun s hs => (h s hs).mono hsub

/-- Spans over tokens of a text are ranges of it. -/
theorem Spans.points {cs : List Char} (h : Spans ts s) (hpoints : ∀ l ∈ ts, l.span.Points cs)
    (horder : InOrder ts) : s.Points cs := by
  rcases h with ⟨l, hl, rfl⟩ | ⟨a, b, hab, rfl⟩
  · exact hpoints l hl
  · have hpair : ∀ l ∈ [a, b], l.span.Points cs := fun l hl => hpoints l (hab.subset hl)
    have hnext : a.span.stop ≤ b.span.start := by
      have hsorted := List.Pairwise.sublist hab horder
      exact (List.pairwise_cons.mp hsorted).1 b List.mem_cons_self
    exact (hpair a List.mem_cons_self).through (hpair b (by simp)) hnext

end

/-! What readers take, and where they stop. -/

/-- What is left of tokens after some of them. The end of input is not taken. -/
structure Leaves (ts rest : Tokens) : Prop where
  suffix : rest <:+ ts
  ended : ∀ l ∈ ts, l.token = .eof → l ∈ rest

/-- Where a reader accepts, it leaves the end of input, and what it gives has a property; where it
refuses, it does so at a token if the end of input is there. -/
structure Delimits {α : Type} {n : Nat} (r : Except SourceError (Parsed α Lexeme n)) (ts : Tokens)
    (P : α → Prop) : Prop where
  ok : ∀ p, r = .ok p → Leaves ts p.rest ∧ P p.value
  error : ∀ e, r = .error e → (∃ l ∈ ts, l.token = .eof) → ∃ l ∈ ts, e.span = l.span

section

variable {α β : Type} {m n : Nat} {P : α → Prop} {Q : β → Prop} {ts rest rest' : Tokens}
  {l : Lexeme}

theorem Leaves.refl (ts : Tokens) : Leaves ts ts :=
  ⟨List.suffix_refl ts, fun _ hl _ => hl⟩

theorem Leaves.trans (h : Leaves ts rest) (h' : Leaves rest rest') : Leaves ts rest' :=
  ⟨h'.suffix.trans h.suffix, fun l hl heof => h'.ended l (h.ended l hl heof) heof⟩

theorem leaves_cons (hl : l.token ≠ .eof) : Leaves (l :: ts) ts := by
  refine ⟨List.suffix_cons l ts, fun k hk heof => ?_⟩
  rcases List.mem_cons.mp hk with rfl | hk
  · exact absurd heof hl
  · exact hk

theorem Leaves.sublist (h : Leaves ts rest) : rest.Sublist ts :=
  h.suffix.sublist

theorem Leaves.length_le (h : Leaves ts rest) : rest.length ≤ ts.length :=
  h.suffix.length_le

theorem delimits_ok {a : α} {h : ts.length < n} (ha : P a) :
    Delimits (.ok ⟨a, ts, h⟩ : Except SourceError (Parsed α Lexeme n)) ts P where
  ok := by
    rintro _ ⟨⟩
    exact ⟨.refl ts, ha⟩
  error := nofun

theorem delimits_unexpected {what : Expected} :
    Delimits (.error (unexpected what ts) : Except SourceError (Parsed α Lexeme n)) ts P where
  ok := nofun
  error := by
    rintro _ ⟨⟩ ⟨k, hk, -⟩
    cases ts with
    | nil => cases hk
    | cons l ts => exact ⟨l, List.mem_cons_self, rfl⟩

theorem Delimits.after {r : Except SourceError (Parsed α Lexeme n)} (hts : Leaves ts rest)
    (h : Delimits r rest P) : Delimits r ts P where
  ok := fun p hp => ⟨hts.trans (h.ok p hp).1, (h.ok p hp).2⟩
  error := by
    rintro e he ⟨k, hk, heof⟩
    obtain ⟨l, hl, hspan⟩ := h.error e he ⟨k, hts.ended k hk heof, heof⟩
    exact ⟨l, hts.sublist.subset hl, hspan⟩

theorem Delimits.imp {P' : α → Prop} {r : Except SourceError (Parsed α Lexeme n)}
    (h : Delimits r ts P) (himp : ∀ a, P a → P' a) : Delimits r ts P' where
  ok := fun p hp => ⟨(h.ok p hp).1, himp _ (h.ok p hp).2⟩
  error := h.error

/-- A reader that goes on from another is held to what that has left. -/
theorem Delimits.bind {r : Except SourceError (Parsed α Lexeme n)}
    {f : Parsed α Lexeme n → Except SourceError (Parsed β Lexeme m)} (h : Delimits r ts P)
    (hf : ∀ a rest (hs : rest.length < n), Leaves ts rest → P a →
      Delimits (f ⟨a, rest, hs⟩) rest Q) :
    Delimits (r >>= f) ts Q := by
  cases r with
  | error e =>
    refine ⟨nofun, ?_⟩
    rintro _ ⟨⟩
    exact h.error e rfl
  | ok p =>
    obtain ⟨hrest, ha⟩ := h.ok p rfl
    exact (hf p.value p.rest p.short hrest ha).after hrest

theorem Delimits.map {r : Except SourceError (Parsed α Lexeme n)} {f : α → β} (h : Delimits r ts P)
    (hf : ∀ a, P a → Q (f a)) : Delimits (r.map (·.map f)) ts Q := by
  cases r with
  | error e =>
    refine ⟨nofun, ?_⟩
    rintro _ ⟨⟩
    exact h.error e rfl
  | ok p =>
    refine ⟨?_, nofun⟩
    rintro _ ⟨⟩
    exact ⟨(h.ok p rfl).1, hf _ (h.ok p rfl).2⟩

theorem Delimits.weaken {r : Except SourceError (Parsed α Lexeme n)} (h : Delimits r ts P)
    (hmn : n ≤ m) : Delimits (r.map (·.weaken hmn)) ts P := by
  cases r with
  | error e =>
    refine ⟨nofun, ?_⟩
    rintro _ ⟨⟩
    exact h.error e rfl
  | ok p =>
    refine ⟨?_, nofun⟩
    rintro _ ⟨⟩
    exact h.ok p rfl

theorem expect_delimits {t : Token} (ht : t ≠ .eof) : Delimits (expect t ts) ts (Spans ts) := by
  unfold expect
  split
  · exact delimits_unexpected
  · split
    · rename_i l rest hl
      have hne : l.token ≠ .eof := hl ▸ ht
      exact (delimits_ok (spans_of_mem List.mem_cons_self)).after (leaves_cons hne)
    · exact delimits_unexpected

theorem expectMark_delimits {p : Punct} : Delimits (expectMark p ts) ts (Spans ts) :=
  expect_delimits nofun

theorem ident_delimits : Delimits (ident ts) ts fun i => Spans ts i.span := by
  unfold ident
  split
  · exact delimits_unexpected
  · split
    · rename_i l rest _ name hl
      have hne : l.token ≠ .eof := by simp [hl]
      exact Delimits.after (leaves_cons hne) (delimits_ok (spans_of_mem List.mem_cons_self))
    · exact delimits_unexpected

theorem skip_leaves {t : Token} (ht : t ≠ .eof) : Leaves ts (skip t ts).rest := by
  by_cases hts : peek ts = t
  · cases ts with
    | nil => exact .refl []
    | cons l ts =>
      rw [(skip_of_eq (l := l) hts).2]
      exact leaves_cons fun heof => ht (hts.symm.trans heof)
  · rw [(skip_of_ne hts).2]
    exact .refl ts

/-- What the reader of one thing is held to, a reader of several with commas between them is. -/
theorem commaSeparated_delimits {bound : Nat} {item : BoundedReader α bound} {ts : Tokens}
    (hitem : ∀ us h, Leaves ts us → Delimits (item us h) us P) (h : ts.length < bound) :
    Delimits (commaSeparated bound item ts h) ts fun as => ∀ a ∈ as, P a := by
  rw [commaSeparated]
  refine (hitem ts h (.refl ts)).bind fun a rest hs hrest ha => ?_
  cases rest with
  | nil => exact delimits_ok (List.forall_mem_singleton.mpr ha)
  | cons l rest =>
    dsimp only
    split
    · rename_i hl
      have htail : Leaves (l :: rest) rest := leaves_cons (by simp [hl])
      refine Delimits.after htail ?_
      have hmore : ∀ us h, Leaves rest us → Delimits (item us h) us P :=
        fun us h hus => hitem us h ((hrest.trans htail).trans hus)
      refine (commaSeparated_delimits hmore _).bind fun as _ _ _ has => ?_
      exact delimits_ok (List.forall_mem_cons.mpr ⟨ha, has⟩)
    · exact delimits_ok (List.forall_mem_singleton.mpr ha)
termination_by ts.length
decreasing_by
  simp only [List.length_cons] at hs
  omega

/-- As before, for a list up to a closing mark, which may stand after a comma. -/
theorem commaList_delimits {bound : Nat} {close : Punct} {item : BoundedReader α bound}
    {ts : Tokens} (hitem : ∀ us h, Leaves ts us → Delimits (item us h) us P)
    (h : ts.length < bound) :
    Delimits (commaList bound close item ts h) ts fun as => ∀ a ∈ as, P a := by
  rw [commaList]
  split
  · exact delimits_ok nofun
  · refine (hitem ts h (.refl ts)).bind fun a rest hs hrest ha => ?_
    cases rest with
    | nil => exact delimits_ok (List.forall_mem_singleton.mpr ha)
    | cons l rest =>
      dsimp only
      split
      · rename_i hl
        have htail : Leaves (l :: rest) rest := leaves_cons (by simp [hl])
        refine Delimits.after htail ?_
        have hmore : ∀ us h, Leaves rest us → Delimits (item us h) us P :=
          fun us h hus => hitem us h ((hrest.trans htail).trans hus)
        refine (commaList_delimits hmore _).bind fun as _ _ _ has => ?_
        exact delimits_ok (List.forall_mem_cons.mpr ⟨ha, has⟩)
      · exact delimits_ok (List.forall_mem_singleton.mpr ha)
termination_by ts.length
decreasing_by
  simp only [List.length_cons] at hs
  omega

end

end EndpointCompiler.Source
