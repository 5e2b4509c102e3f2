import EndpointCompiler.Proofs.Source.Naming
import EndpointCompiler.Proofs.Source.Recognition

/-! The types that stand in trees. In what a source text is read into, all of them can be
written. -/

namespace EndpointCompiler.Source

mutual

/-- The types that an expression mentions. -/
def Expr.types : Expr → List TypeExpr
  | .var _ => []
  | .field base _ _ => base.types
  | .new type fields _ => type :: Expr.fieldTypes fields
  | .call _ typeArgs args _ => typeArgs ++ Expr.allTypes args
  | .await inner _ => inner.types

def Expr.fieldTypes : List (Ident × Expr) → List TypeExpr
  | [] => []
  | (_, value) :: fields => value.types ++ Expr.fieldTypes fields

def Expr.allTypes : List Expr → List TypeExpr
  | [] => []
  | e :: es => e.types ++ Expr.allTypes es

end

def Stmt.types : Stmt → List TypeExpr
  | .bind _ value _ => value.types
  | .result value _ => value.types

def AttributeArg.types : AttributeArg → List TypeExpr
  | .text _ _ => []
  | .type t => [t]

def Attribute.types (a : Attribute) : List TypeExpr :=
  a.args.flatMap (·.types)

def ParamDecl.types (p : ParamDecl) : List TypeExpr :=
  p.attributes.flatMap (·.types) ++ [p.type]

def ShapeDecl.types (d : ShapeDecl) : List TypeExpr :=
  d.fields.map (·.type)

/-- The types that an operation mentions in its attributes, its signature and its body. -/
def OpDecl.types (d : OpDecl) : List TypeExpr :=
  d.attributes.flatMap (·.types) ++ d.params.flatMap (·.types) ++ [d.result] ++
    d.body.flatMap (·.types)

def Item.types : Item → List TypeExpr
  | .shape d => d.types
  | .op d => d.types

/-- All types that something mentions can be written. -/
def AllWritable (types : List TypeExpr) : Prop :=
  ∀ t ∈ types, t.toTypeRef.Writable

theorem allWritable_cons {t : TypeExpr} {ts : List TypeExpr} :
    AllWritable (t :: ts) ↔ t.toTypeRef.Writable ∧ AllWritable ts := by
  simp [AllWritable]

theorem allWritable_append {ts us : List TypeExpr} :
    AllWritable (ts ++ us) ↔ AllWritable ts ∧ AllWritable us := by
  simp [AllWritable, or_imp, forall_and]

theorem allWritable_flatMap {α : Type} {as : List α} {f : α → List TypeExpr} :
    AllWritable (as.flatMap f) ↔ ∀ a ∈ as, AllWritable (f a) := by
  simp only [AllWritable, List.mem_flatMap, forall_exists_index, and_imp]
  exact ⟨fun h a ha t ht => h t a ha ht, fun h t a ha ht => h a ha t ht⟩

theorem allWritable_map {α : Type} {as : List α} {f : α → TypeExpr} :
    AllWritable (as.map f) ↔ ∀ a ∈ as, (f a).toTypeRef.Writable := by
  simp [AllWritable]

/-! Types that are mentioned stand at nodes. -/

/-- A type stands at a node of an outline. -/
def Outline.Holds (o : Outline) (t : TypeExpr) : Prop :=
  ∃ x : Outline, x.Node o ∧ x.type? = some t

section

variable {c o : Outline} {t : TypeExpr}

theorem Outline.Holds.of_child (h : c.Holds t) (hc : c ∈ o.children) : o.Holds t := by
  obtain ⟨x, hx, ht⟩ := h
  exact ⟨x, .child hc hx, ht⟩

theorem TypeExpr.outline_holds (t : TypeExpr) : t.outline.Holds t := by
  cases t <;> exact ⟨_, .self _, rfl⟩

mutual

/-- Every type that an expression mentions is at a node of its outline. -/
theorem Expr.outline_holds : ∀ e : Expr, ∀ t ∈ e.types, e.outline.Holds t
  | .var _, _, ht => nomatch ht
  | .field base _ _, t, ht => (base.outline_holds t ht).of_child List.mem_cons_self
  | .await inner _, t, ht => (inner.outline_holds t ht).of_child List.mem_cons_self
  | .new type fields _, t, ht => by
    rcases List.mem_cons.mp ht with rfl | ht
    · exact t.outline_holds.of_child List.mem_cons_self
    · obtain ⟨c, hc, hholds⟩ := Expr.fieldOutlines_hold fields t ht
      exact hholds.of_child (List.mem_cons_of_mem _ hc)
  | .call function typeArgs args _, t, ht => by
    rcases List.mem_append.mp ht with ht | ht
    · refine t.outline_holds.of_child (List.mem_append_left _ (List.mem_cons_of_mem _ ?_))
      exact List.mem_map_of_mem ht
    · obtain ⟨c, hc, hholds⟩ := Expr.outlines_hold args t ht
      exact hholds.of_child (List.mem_append_right _ hc)

theorem Expr.fieldOutlines_hold : ∀ fields : List (Ident × Expr), ∀ t ∈ Expr.fieldTypes fields,
    ∃ c ∈ Expr.fieldOutlines fields, c.Holds t
  | [], _, ht => nomatch ht
  | (name, value) :: fields, t, ht => by
    rcases List.mem_append.mp ht with ht | ht
    · exact ⟨_, by simp [Expr.fieldOutlines], value.outline_holds t ht⟩
    · obtain ⟨c, hc, hholds⟩ := Expr.fieldOutlines_hold fields t ht
      exact ⟨c, by simp [Expr.fieldOutlines, hc], hholds⟩

theorem Expr.outlines_hold : ∀ es : List Expr, ∀ t ∈ Expr.allTypes es,
    ∃ c ∈ Expr.outlines es, c.Holds t
  | [], _, ht => nomatch ht
  | e :: es, t, ht => by
    rcases List.mem_append.mp ht with ht | ht
    · exact ⟨_, List.mem_cons_self, e.outline_holds t ht⟩
    · obtain ⟨c, hc, hholds⟩ := Expr.outlines_hold es t ht
      exact ⟨c, List.mem_cons_of_mem _ hc, hholds⟩

end

theorem Stmt.outline_holds (s : Stmt) (ht : t ∈ s.types) : s.outline.Holds t := by
  cases s with
  | bind name value span =>
    exact (value.outline_holds t ht).of_child (List.mem_cons_of_mem _ List.mem_cons_self)
  | result value span => exact (value.outline_holds t ht).of_child List.mem_cons_self

theorem Attribute.outline_holds (a : Attribute) (ht : t ∈ a.types) : a.outline.Holds t := by
  obtain ⟨arg, harg, ht⟩ := List.mem_flatMap.mp ht
  have hholds : arg.outline.Holds t := by
    cases arg with
    | text => cases ht
    | type u =>
      obtain rfl := List.mem_singleton.mp ht
      exact t.outline_holds
  exact hholds.of_child (List.mem_cons_of_mem _ (List.mem_map_of_mem harg))

theorem ParamDecl.outlines_hold (p : ParamDecl) (ht : t ∈ p.types) :
    ∃ c ∈ p.outlines, c.Holds t := by
  rcases List.mem_append.mp ht with ht | ht
  · obtain ⟨a, ha, ht⟩ := List.mem_flatMap.mp ht
    exact ⟨_, List.mem_append_left _ (List.mem_map_of_mem ha), a.outline_holds ht⟩
  · obtain rfl := List.mem_singleton.mp ht
    exact ⟨p.type.outline, by simp [outlines], p.type.outline_holds⟩

theorem ShapeDecl.outline_holds (d : ShapeDecl) (ht : t ∈ d.types) : d.outline.Holds t := by
  obtain ⟨f, hf, rfl⟩ := List.mem_map.mp ht
  have hfield : f.type.outline ∈ d.fields.flatMap (·.outlines) :=
    List.mem_flatMap.mpr ⟨f, hf, by simp [FieldDecl.outlines]⟩
  exact f.type.outline_holds.of_child (List.mem_append_right _ (List.mem_cons_of_mem _ hfield))

theorem OpDecl.outline_holds (d : OpDecl) (ht : t ∈ d.types) : d.outline.Holds t := by
  simp only [types, List.mem_append, List.mem_flatMap, List.mem_singleton] at ht
  rcases ht with ((⟨a, ha, ht⟩ | ⟨p, hp, ht⟩) | rfl) | ⟨s, hs, ht⟩
  · exact (a.outline_holds ht).of_child
      (List.mem_append_left _ (List.mem_append_left _ (List.mem_map_of_mem ha)))
  · obtain ⟨c, hc, hholds⟩ := p.outlines_hold ht
    have hmem : c ∈ d.params.flatMap (·.outlines) := List.mem_flatMap.mpr ⟨p, hp, hc⟩
    exact hholds.of_child
      (List.mem_append_left _ (List.mem_append_right _ (List.mem_cons_of_mem _ hmem)))
  · exact d.result.outline_holds.of_child (List.mem_append_right _ List.mem_cons_self)
  · exact (s.outline_holds ht).of_child
      (List.mem_append_right _ (List.mem_cons_of_mem _ (List.mem_map_of_mem hs)))

theorem Item.outline_holds (i : Item) (ht : t ∈ i.types) : i.outline.Holds t := by
  cases i with
  | shape d => exact d.outline_holds ht
  | op d => exact d.outline_holds ht

theorem ItemOver.writable {ks : Tokens} {i : Item} (h : ItemOver ks i) (hks : Named ks) :
    AllWritable i.types := by
  intro t ht
  obtain ⟨x, hx, hxt⟩ := i.outline_holds ht
  obtain ⟨ms, hms, -, hphrase⟩ := h.placed.types x t hx hxt
  exact (hks.sublist hms.sublist).writable hphrase

end

theorem parseSource_writable {text : String} {is : List Item} (h : parseSource text = .ok is) :
    ∀ i ∈ is, AllWritable i.types := by
  obtain ⟨ks, l, htokens, -, hover⟩ := parseSource_over h
  intro i hi
  obtain ⟨ms, hms, hi⟩ := hover.mem hi
  have hsub : ms.Sublist (ks ++ [l]) := hms.sublist.trans (List.sublist_append_left ks [l])
  exact hi.writable ((lexemesFrom_named htokens).sublist hsub)

theorem parseTypeExpr_writable {text : String} {e : TypeExpr} (h : parseTypeExpr text = .ok e) :
    e.toTypeRef.Writable := by
  cases htokens : tokenize text with
  | error _ =>
    rw [parseTypeExpr, htokens] at h
    cases h
  | ok ls =>
    obtain ⟨ks, l, rfl, hl, hks⟩ := lexemesFrom_ends htokens
    have hphrase := parseTypeExpr_tokens htokens h
    rw [tokensOf_append hks hl] at hphrase
    exact ((lexemesFrom_named htokens).sublist (List.sublist_append_left ks [l])).writable hphrase

end EndpointCompiler.Source

namespace EndpointCompiler

/-- The types that texts are read as are those that can be written. -/
theorem TypeRef.exists_ofText_iff {t : TypeRef} :
    (∃ text, TypeRef.ofText text = .ok t) ↔ t.Writable := by
  refine ⟨?_, fun h => ⟨t.text, h.ofText⟩⟩
  rintro ⟨text, h⟩
  rw [TypeRef.ofText] at h
  split at h
  · rename_i e he
    cases h
    exact Source.parseTypeExpr_writable he
  · cases h

/-- The text of a type is read as the type itself exactly if the type can be written, and no text is
read as any other type. -/
theorem TypeRef.ofText_text_iff (t : TypeRef) :
    (TypeRef.ofText t.text = .ok t ↔ t.Writable) ∧
      ∀ text, TypeRef.ofText text = .ok t → t.Writable :=
  ⟨⟨fun h => exists_ofText_iff.mp ⟨t.text, h⟩, Writable.ofText⟩,
    fun text h => exists_ofText_iff.mp ⟨text, h⟩⟩

end EndpointCompiler
