import EndpointCompiler.Proofs.Source.Acceptance

/-! Where declarations are. Each is placed over its tokens, from its attributes to its last brace, is
named by the token after its keyword, and is read again from these tokens wherever they stand. -/

namespace EndpointCompiler.Source

section

variable {us : List Token} {ks : Tokens}

theorem StmtPhrase.first {s : Stmt} (h : StmtPhrase us s) : ∃ k us', us = .keyword k :: us' := by
  cases h with
  | bind n h => exact ⟨_, _, rfl⟩
  | result h => exact ⟨_, _, rfl⟩

/-- A phrase for a statement is read as a statement over its tokens. -/
theorem StmtPhrase.placed {x : Stmt} (h : StmtPhrase us x) (hwhole : Spells us ks) :
    ∃ s : Stmt, s.bare = x ∧ Placed ks s.outline ∧
      ∀ n rest, Reads (stmt (ks.map (·.shift n) ++ rest)) (· = s.shift n) rest := by
  cases h with
  | bind name h =>
    obtain ⟨ks, m, rfl, hfront, hm⟩ := spells_snoc.mp hwhole
    obtain ⟨l, ks, rfl, hl, hfront⟩ := spells_cons.mp hfront
    obtain ⟨i, ks, rfl, hi, hfront⟩ := spells_cons.mp hfront
    obtain ⟨q, ks, rfl, hq, hks⟩ := spells_cons.mp hfront
    obtain ⟨v, rfl, hplaced, hread⟩ := h.placed hks
    refine ⟨.bind ⟨name, i.span⟩ v ⟨l.span.start, m.span.stop⟩, rfl, ?_, fun n rest => ?_⟩
    · refine Placed.plain (hull_between l m _) ?_
      have hparts := InTurn.cons_self (placed_leaf i) ((inTurn_singleton hplaced).cons_token q)
      exact (hparts.cons_token l).after [m]
    -- The semicolon is what lets the reader of the value stop.
    · have hends : EndsExpr (peek (m.shift n :: rest)) := endsExpr_of_eq hm (by decide)
      rw [map_shift_between, map_shift_cons, map_shift_cons, stmt]
      simp only [Lexeme.shift_token, hl]
      refine (reads_ident_eq (l := i.shift n) hi).bind ?_
      rintro _ _ rfl
      refine (reads_expect (l := q.shift n) hq).bind fun _ _ _ => ?_
      refine (hread.reads n hends).bind ?_
      rintro _ _ rfl
      refine (reads_expect (l := m.shift n) hm).bind ?_
      rintro _ _ rfl
      exact reads_ok rfl
  | result h =>
    obtain ⟨ks, m, rfl, hfront, hm⟩ := spells_snoc.mp hwhole
    obtain ⟨l, ks, rfl, hl, hks⟩ := spells_cons.mp hfront
    obtain ⟨v, rfl, hplaced, hread⟩ := h.placed hks
    refine ⟨.result v ⟨l.span.start, m.span.stop⟩, rfl, ?_, fun n rest => ?_⟩
    · exact Placed.plain (hull_between l m _)
        (((inTurn_singleton hplaced).cons_token l).after [m])
    · have hends : EndsExpr (peek (m.shift n :: rest)) := endsExpr_of_eq hm (by decide)
      rw [map_shift_between, stmt]
      simp only [Lexeme.shift_token, hl]
      refine (hread.reads n hends).bind ?_
      rintro _ _ rfl
      refine (reads_expect (l := m.shift n) hm).bind ?_
      rintro _ _ rfl
      exact reads_ok rfl

theorem stmts_placed {xs : List Stmt} (h : Repeated StmtPhrase us xs) (hwhole : Spells us ks) :
    ∃ ss : List Stmt, ss.map (·.bare) = xs ∧ InTurn Placed ks (ss.map (·.outline)) ∧
      ∀ n rest, peek rest = .punct .rightBrace →
        Reads (stmts (ks.map (·.shift n) ++ rest)) (· = ss.map (·.shift n)) rest := by
  induction h generalizing ks with
  | nil =>
    obtain rfl := spells_nil.mp hwhole
    refine ⟨[], rfl, .nil [], fun n rest hr => ?_⟩
    show Reads (stmts rest) _ rest
    rw [stmts, if_pos hr]
    exact reads_ok rfl
  | cons h _ ih =>
    obtain ⟨ks, ms, rfl, hks, hms⟩ := spells_append.mp hwhole
    obtain ⟨s, rfl, hs, hread⟩ := h.placed hks
    obtain ⟨ss, rfl, hss, hreads⟩ := ih hms
    refine ⟨s :: ss, rfl, (inTurn_singleton hs).append hss, fun n rest hr => ?_⟩
    have hopen : peek (ks.map (·.shift n) ++ (ms.map (·.shift n) ++ rest)) ≠
        .punct .rightBrace := by
      obtain ⟨k, us', rfl⟩ := h.first
      simp [(hks.begins n _).peek]
    rw [map_shift_append, stmts, if_neg hopen]
    refine (hread n _).bind ?_
    rintro _ _ rfl
    refine (hreads n rest hr).bind ?_
    rintro _ _ rfl
    exact reads_ok rfl

theorem ArgPhrase.first {a : AttributeArg} (h : ArgPhrase us a) :
    ∃ u us', us = u :: us' ∧ u ≠ .punct .rightParen := by
  cases h with
  | text w => exact ⟨_, _, rfl, by simp⟩
  | type h =>
    obtain ⟨u, us', rfl, rfl | ⟨n, rfl⟩⟩ := h.first
    · exact ⟨_, _, rfl, by simp⟩
    · exact ⟨_, _, rfl, by simp⟩

theorem ArgPhrase.placed {x : AttributeArg} (h : ArgPhrase us x) (hwhole : Spells us ks) :
    ∃ a : AttributeArg, a.bare = x ∧ Placed ks a.outline ∧
      Rereads (unbounded attributeArg) AttributeArg.shift EndsType ks a := by
  cases h with
  | text w =>
    obtain ⟨l, rfl, hl⟩ := spells_singleton.mp hwhole
    refine ⟨.text w l.span, rfl, placed_leaf l, rereads_unbounded fun n rest _ => ?_⟩
    rw [map_shift_singleton]
    unfold attributeArg
    simp only [Lexeme.shift_token, hl]
    exact reads_ok rfl
  | type h =>
    obtain ⟨e, rfl, hplaced, hread⟩ := h.placed hwhole
    refine ⟨.type e, rfl, hplaced, rereads_unbounded fun n rest hr => ?_⟩
    have hread := hread.reads n hr
    obtain ⟨u, us', rfl, hu⟩ := h.first
    obtain ⟨l, ks, rfl, hl, -⟩ := spells_cons.mp hwhole
    rw [map_shift_cons] at hread ⊢
    have harg : ∀ ts, attributeArg (l.shift n :: ts) =
        (typeExpr (l.shift n :: ts)).map (·.map .type) := by
      intro ts
      unfold attributeArg
      rcases hu with rfl | ⟨n, rfl⟩ <;> simp only [Lexeme.shift_token, hl]
    rw [harg]
    refine hread.map ?_
    rintro _ rfl
    rfl

theorem endsType_of_listed {t : Token} {p : Punct} (h : t = .punct .comma ∨ t = .punct p)
    (hp : p ≠ .dot ∧ p ≠ .doubleColon ∧ p ≠ .less) : EndsType t := by
  rcases h with rfl | rfl
  · simp [EndsType]
  · simpa [EndsType] using hp

theorem ArgsPhrase.placed {xs : List AttributeArg} (h : ArgsPhrase us xs) (hwhole : Spells us ks) :
    ∃ as : List AttributeArg, as.map (·.bare) = xs ∧ InTurn Placed ks (as.map (·.outline)) ∧
      ∀ n rest, peek rest ≠ .punct .leftParen →
        Reads (attributeArgs (ks.map (·.shift n) ++ rest)) (· = as.map (·.shift n)) rest := by
  cases h with
  | none =>
    obtain rfl := spells_nil.mp hwhole
    refine ⟨[], rfl, .nil [], fun n rest hr => ?_⟩
    show Reads (attributeArgs rest) _ rest
    rw [attributeArgs, if_neg hr]
    exact reads_ok rfl
  | some h =>
    obtain ⟨ks, m, rfl, hfront, hm⟩ := spells_snoc.mp hwhole
    obtain ⟨l, ks, rfl, hl, hks⟩ := spells_cons.mp hfront
    obtain ⟨as, rfl, has, hreads⟩ := h.placed (Q := fun ks (a : AttributeArg) => Placed ks a.outline)
      .rightParen hks (by decide)
      (fun ws x ns _ hx hns => by
        obtain ⟨a, ha, hplaced, hread⟩ := hx.placed hns
        exact ⟨a, ha, hplaced, hread.imp fun t ht => endsType_of_listed ht (by decide)⟩)
      (fun _ _ => ArgPhrase.first)
    refine ⟨as, rfl, ?_, fun n rest _ => ?_⟩
    · exact ((has.map fun _ _ ha => ha).cons_token l).after [m]
    · have hopen : peek (l.shift n :: (ks.map (·.shift n) ++ m.shift n :: rest)) =
          .punct .leftParen := hl
      rw [map_shift_between, attributeArgs, if_pos hopen]
      refine (reads_expect (l := l.shift n) hl).bind fun _ _ _ => ?_
      refine (hreads n (m.shift n :: rest) _ _ hm).bind ?_
      rintro _ _ rfl
      refine (reads_expect (l := m.shift n) hm).bind fun _ _ _ => ?_
      exact reads_ok rfl

/-- An attribute is read before those that follow it. -/
theorem AttributePhrase.placed {x : Attribute} (h : AttributePhrase us x) (hwhole : Spells us ks) :
    ∃ a : Attribute, a.bare = x ∧ Placed ks a.outline ∧
      ∀ n ts rest as, Reads (attributes ts) (· = as) rest →
        Reads (attributes (ks.map (·.shift n) ++ ts)) (· = a.shift n :: as) rest := by
  cases h with
  | mk name h =>
    obtain ⟨ks, m, rfl, hfront, hm⟩ := spells_snoc.mp hwhole
    obtain ⟨l, ks, rfl, hl, hfront⟩ := spells_cons.mp hfront
    obtain ⟨o, ks, rfl, ho, hfront⟩ := spells_cons.mp hfront
    obtain ⟨i, ks, rfl, hi, hks⟩ := spells_cons.mp hfront
    obtain ⟨args, rfl, hargs, hreadArgs⟩ := h.placed hks
    refine ⟨⟨⟨name, i.span⟩, args, ⟨l.span.start, m.span.stop⟩⟩, rfl, ?_,
      fun n ts rest as hmore => ?_⟩
    · refine Placed.plain (hull_between l m _) ?_
      have hparts := (InTurn.cons_self (placed_leaf i) hargs).cons_token o
      exact (hparts.cons_token l).after [m]
    · have hparen : peek (m.shift n :: ts) ≠ .punct .leftParen := by
        have hp : peek (m.shift n :: ts) = .punct .rightBracket := hm
        simp [hp]
      have hhash : (l.shift n).token = .punct .hash := hl
      rw [map_shift_between, map_shift_cons, map_shift_cons, attributes, if_pos hhash]
      refine (reads_expect (l := o.shift n) ho).bind fun _ _ _ => ?_
      refine (reads_ident_eq (l := i.shift n) hi).bind ?_
      rintro _ _ rfl
      refine (hreadArgs n _ hparen).bind ?_
      rintro _ _ rfl
      refine (reads_expect (l := m.shift n) hm).bind ?_
      rintro _ _ rfl
      refine hmore.bind ?_
      rintro _ _ rfl
      exact reads_ok rfl

theorem attributes_placed {xs : List Attribute} (h : Repeated AttributePhrase us xs)
    (hwhole : Spells us ks) :
    ∃ as : List Attribute, as.map (·.bare) = xs ∧ InTurn Placed ks (as.map (·.outline)) ∧
      ∀ n rest, peek rest ≠ .punct .hash →
        Reads (attributes (ks.map (·.shift n) ++ rest)) (· = as.map (·.shift n)) rest := by
  induction h generalizing ks with
  | nil =>
    obtain rfl := spells_nil.mp hwhole
    refine ⟨[], rfl, .nil [], fun n rest hr => ?_⟩
    show Reads (attributes rest) _ rest
    unfold attributes
    split
    · exact reads_ok rfl
    · rename_i l tail
      have hl : l.token ≠ .punct .hash := hr
      rw [if_neg hl]
      exact reads_ok rfl
  | cons h _ ih =>
    obtain ⟨ks, ms, rfl, hfirst, hmore⟩ := spells_append.mp hwhole
    obtain ⟨a, rfl, ha, hread⟩ := h.placed hfirst
    obtain ⟨as, rfl, has, hreads⟩ := ih hmore
    refine ⟨a :: as, rfl, (inTurn_singleton ha).append has, fun n rest hr => ?_⟩
    rw [map_shift_append]
    exact hread n _ rest _ (hreads n rest hr)

theorem TypedPhrase.first {v : Ident × TypeExpr} (h : TypedPhrase us v) :
    ∃ n us', us = .ident n :: us' := by
  cases h with
  | mk n h => exact ⟨n, _, rfl⟩

theorem TypedPhrase.placed {v : Ident × TypeExpr} (h : TypedPhrase us v) (hwhole : Spells us ks) :
    ∃ (i : Ident) (e : TypeExpr), (i.bare, e.bare) = v ∧
      InTurn Placed ks [.leaf i.span, e.outline] ∧ ∀ n rest, EndsType (peek rest) →
        Reads (typedName (ks.map (·.shift n) ++ rest)) (· = (i.shift n, e.shift n)) rest := by
  cases h with
  | mk name h =>
    obtain ⟨i, ks, rfl, hi, hks⟩ := spells_cons.mp hwhole
    obtain ⟨c, ks, rfl, hc, hks⟩ := spells_cons.mp hks
    obtain ⟨e, rfl, hplaced, hread⟩ := h.placed hks
    refine ⟨⟨name, i.span⟩, e, rfl, ?_, fun n rest hr => ?_⟩
    · exact .cons_self (placed_leaf i) ((inTurn_singleton hplaced).cons_token c)
    · rw [map_shift_cons, map_shift_cons, typedName]
      refine (reads_ident_eq (l := i.shift n) hi).bind ?_
      rintro _ _ rfl
      refine (reads_expect (l := c.shift n) hc).bind fun _ _ _ => ?_
      refine (hread.reads n hr).bind ?_
      rintro _ _ rfl
      exact reads_ok rfl

theorem FieldPhrase.placed {x : FieldDecl} (h : FieldPhrase us x) (hwhole : Spells us ks) :
    ∃ d : FieldDecl, d.bare = x ∧ InTurn Placed ks d.outlines ∧
      Rereads (unbounded fieldDecl) FieldDecl.shift EndsType ks d := by
  cases h with
  | mk h =>
    obtain ⟨i, e, hbare, hparts, hread⟩ := h.placed hwhole
    cases hbare
    refine ⟨⟨i, e⟩, rfl, hparts, rereads_unbounded fun n rest hr => ?_⟩
    refine (hread n rest hr).map ?_
    rintro _ rfl
    rfl

theorem ParamPhrase.placed {x : ParamDecl} (h : ParamPhrase us x) (hwhole : Spells us ks) :
    ∃ d : ParamDecl, d.bare = x ∧ InTurn Placed ks d.outlines ∧
      Rereads (unbounded paramDecl) ParamDecl.shift EndsType ks d := by
  cases h with
  | mk hattrs h =>
    obtain ⟨ks, ms, rfl, hks, hms⟩ := spells_append.mp hwhole
    obtain ⟨attrs, rfl, hplaced, hreadAttrs⟩ := attributes_placed hattrs hks
    obtain ⟨i, e, hbare, hparts, hread⟩ := h.placed hms
    cases hbare
    refine ⟨⟨attrs, i, e⟩, rfl, hplaced.append hparts, rereads_unbounded fun n rest hr => ?_⟩
    have hhash : peek (ms.map (·.shift n) ++ rest) ≠ .punct .hash := by
      obtain ⟨n, us', rfl⟩ := h.first
      simp [(hms.begins _ rest).peek]
    rw [map_shift_append, paramDecl]
    refine (hreadAttrs n _ hhash).bind ?_
    rintro _ _ rfl
    refine (hread n rest hr).bind ?_
    rintro _ _ rfl
    exact reads_ok rfl

theorem ParamPhrase.first {d : ParamDecl} (h : ParamPhrase us d) :
    ∃ u us', us = u :: us' ∧ u ≠ .punct .rightParen := by
  cases h with
  | mk hattrs h =>
    cases hattrs with
    | nil =>
      obtain ⟨n, us', rfl⟩ := h.first
      exact ⟨_, _, rfl, by simp⟩
    | cons ha _ =>
      cases ha with
      | mk n _ => exact ⟨_, _, rfl, by simp⟩

theorem ShapePhrase.first {as : List Attribute} {d : ShapeDecl} (h : ShapePhrase as us d) :
    ∃ us', us = .keyword .shape :: us' := by
  cases h with
  | mk n h => exact ⟨_, rfl⟩

theorem OpPhrase.first {as : List Attribute} {isAsync : Bool} {d : OpDecl}
    (h : OpPhrase as isAsync us d) : ∃ us', us = .keyword .op :: us' := by
  cases h with
  | mk n h h' h'' => exact ⟨_, rfl⟩

/-- A name stands right after a keyword. -/
def NamedAfter (keyword : Keyword) (name : Ident) (ks : Tokens) : Prop :=
  ∃ before k l after, ks = before ++ k :: l :: after ∧ k.token = .keyword keyword ∧
    l.token = .ident name.name ∧ l.span = name.span

theorem NamedAfter.before {keyword : Keyword} {name : Ident} (h : NamedAfter keyword name ks)
    (more : Tokens) : NamedAfter keyword name (more ++ ks) := by
  obtain ⟨before, k, l, after, rfl, hl⟩ := h
  exact ⟨more ++ before, k, l, after, (List.append_assoc ..).symm, hl⟩

theorem NamedAfter.after {keyword : Keyword} {name : Ident} (h : NamedAfter keyword name ks)
    (more : Tokens) : NamedAfter keyword name (ks ++ more) := by
  obtain ⟨before, k, l, after, rfl, hl⟩ := h
  exact ⟨before, k, l, after ++ more, by simp, hl⟩

/-- Where a declaration is, its attributes apart. -/
structure DeclOver (keyword : Keyword) (ks : Tokens) (name : Ident) (stop : Nat)
    (parts : List Outline) : Prop where
  hull : ∃ start, Hull ks ⟨start, stop⟩
  parts : InTurn Placed ks (.leaf name.span :: parts)
  named : NamedAfter keyword name ks

theorem ShapePhrase.placed {attrs : List Attribute} {k : Lexeme} {x : ShapeDecl}
    (h : ShapePhrase (attrs.map (·.bare)) us x) (hwhole : Spells us (k :: ks)) (start : Nat) :
    ∃ d : ShapeDecl, d.bare = x ∧ d.attributes = attrs ∧ d.span.start = start ∧
      DeclOver .shape (k :: ks) d.name d.span.stop (d.fields.flatMap (·.outlines)) ∧
      ∀ n rest, Reads (shapeDecl (attrs.map (·.shift n)) (n + start) (ks.map (·.shift n) ++ rest))
        (· = d.shift n) rest := by
  cases h with
  | mk name h =>
    rw [List.cons_append, List.cons_append, List.cons_append] at hwhole
    obtain ⟨_, _, hsplit, hk, hrest⟩ := spells_cons.mp hwhole
    obtain ⟨rfl, rfl⟩ := List.cons.inj hsplit
    obtain ⟨i, ks, rfl, hi, hrest⟩ := spells_cons.mp hrest
    obtain ⟨o, ks, rfl, ho, hrest⟩ := spells_cons.mp hrest
    obtain ⟨ks, m, rfl, hlist, hm⟩ := spells_snoc.mp hrest
    obtain ⟨fields, rfl, hfields, hreads⟩ := h.placed
      (Q := fun ks (d : FieldDecl) => InTurn Placed ks d.outlines) .rightBrace hlist
      (by decide)
      (fun ws x ns _ hx hns => by
        obtain ⟨d, hd, hparts, hread⟩ := hx.placed hns
        exact ⟨d, hd, hparts, hread.imp fun t ht => endsType_of_listed ht (by decide)⟩)
      (fun ws x hx => by
        cases hx with
        | mk hx =>
          obtain ⟨n, us', rfl⟩ := hx.first
          exact ⟨_, _, rfl, by simp⟩)
    refine ⟨⟨attrs, ⟨name, i.span⟩, fields, ⟨start, m.span.stop⟩⟩, rfl, rfl, rfl, ?_,
      fun n rest => ?_⟩
    · refine ⟨⟨k.span.start, hull_between k m (i :: o :: ks)⟩, ?_, [], k, i, _, rfl, hk, hi, rfl⟩
      have hparts := (hfields.flatMap fun _ _ hd => hd).cons_token o
      exact ((InTurn.cons_self (placed_leaf i) hparts).cons_token k).after [m]
    · rw [map_shift_cons, map_shift_cons, map_shift_append, map_shift_singleton, shapeDecl]
      refine (reads_ident_eq (l := i.shift n) hi).bind ?_
      rintro _ _ rfl
      refine (reads_expect (l := o.shift n) ho).bind fun _ _ _ => ?_
      refine (hreads n (m.shift n :: rest) _ _ hm).bind ?_
      rintro _ _ rfl
      refine (reads_expect (l := m.shift n) hm).bind ?_
      rintro _ _ rfl
      exact reads_ok rfl

/-- An operation is read back from its tokens after the keyword. Its attributes were read before it,
so that they and the start of its span are given. -/
theorem OpPhrase.placed {attrs : List Attribute} {isAsync : Bool} {k : Lexeme} {x : OpDecl}
    (h : OpPhrase (attrs.map (·.bare)) isAsync us x) (hwhole : Spells us (k :: ks)) (start : Nat) :
    ∃ d : OpDecl, d.bare = x ∧ d.attributes = attrs ∧ d.span.start = start ∧
      DeclOver .op (k :: ks) d.name d.span.stop
        (d.params.flatMap (·.outlines) ++ d.result.outline :: d.body.map (·.outline)) ∧
      ∀ n rest, Reads
        (opDecl (attrs.map (·.shift n)) isAsync (n + start) (ks.map (·.shift n) ++ rest))
        (· = d.shift n) rest := by
  cases h with
  | mk name hparams hresult hbody =>
    simp only [List.cons_append] at hwhole
    -- The lexemes are cut where the phrase is, from both ends: `k i o … c a … b … m` are the marks.
    obtain ⟨_, _, hsplit, hk, hrest⟩ := spells_cons.mp hwhole
    obtain ⟨rfl, rfl⟩ := List.cons.inj hsplit
    obtain ⟨i, ks, rfl, hi, hrest⟩ := spells_cons.mp hrest
    obtain ⟨o, ks, rfl, ho, hrest⟩ := spells_cons.mp hrest
    obtain ⟨ks, m, rfl, hfront, hm⟩ := spells_snoc.mp hrest
    obtain ⟨ks, body, rfl, hhead, hback⟩ := spells_append.mp hfront
    obtain ⟨b, body, rfl, hb, hstmts⟩ := spells_cons.mp hback
    obtain ⟨ks, mid, rfl, hlist, hmid⟩ := spells_append.mp hhead
    obtain ⟨c, mid, rfl, hc, hmid⟩ := spells_cons.mp hmid
    obtain ⟨a, mid, rfl, ha, htype⟩ := spells_cons.mp hmid
    obtain ⟨params, rfl, hparams, hreadParams⟩ := hparams.placed
      (Q := fun ks (d : ParamDecl) => InTurn Placed ks d.outlines) .rightParen hlist
      (by decide)
      (fun ws x ns _ hx hns => by
        obtain ⟨d, hd, hparts, hread⟩ := hx.placed hns
        exact ⟨d, hd, hparts, hread.imp fun t ht => endsType_of_listed ht (by decide)⟩)
      (fun _ _ => ParamPhrase.first)
    obtain ⟨result, rfl, hresult, hreadResult⟩ := hresult.placed htype
    obtain ⟨body', rfl, hbody, hreadBody⟩ := stmts_placed hbody hstmts
    refine ⟨⟨attrs, isAsync, ⟨name, i.span⟩, params, result, body', ⟨start, m.span.stop⟩⟩, rfl, rfl,
      rfl, ?_, fun n rest => ?_⟩
    · refine ⟨⟨k.span.start, ?_⟩, ?_, [], k, i, _, rfl, hk, hi, rfl⟩
      · exact hull_between k m (i :: o :: (ks ++ c :: a :: mid ++ b :: body))
      · have htail := ((inTurn_singleton hresult).append (hbody.cons_token b)).cons_token a
        have hparts := ((hparams.flatMap fun _ _ hd => hd).append (htail.cons_token c)).cons_token o
        have hall := ((InTurn.cons_self (placed_leaf i) hparts).cons_token k).after [m]
        simpa using hall
    · have hends := endsType_mark (l := b.shift n) hb (by decide)
      rw [map_shift_cons, map_shift_cons, map_shift_append, map_shift_append, map_shift_append,
        map_shift_singleton, map_shift_cons, map_shift_cons, map_shift_cons, opDecl]
      refine (reads_ident_eq (l := i.shift n) hi).bind ?_
      rintro _ _ rfl
      refine (reads_expect (l := o.shift n) ho).bind fun _ _ _ => ?_
      refine (hreadParams n (c.shift n :: _) _ _ hc).bind ?_
      rintro _ _ rfl
      refine (reads_expect (l := c.shift n) hc).bind fun _ _ _ => ?_
      refine (reads_expect (l := a.shift n) ha).bind fun _ _ _ => ?_
      refine (hreadResult.reads n (hends _)).bind ?_
      rintro _ _ rfl
      refine (reads_expect (l := b.shift n) hb).bind fun _ _ _ => ?_
      refine (hreadBody n (m.shift n :: rest) hm).bind ?_
      rintro _ _ rfl
      refine (reads_expect (l := m.shift n) hm).bind ?_
      rintro _ _ rfl
      exact reads_ok rfl

end

/-- The name of a declaration, and the keyword before it. -/
def Item.name : Item → Ident
  | .shape d => d.name
  | .op d => d.name

def Item.keyword : Item → Keyword
  | .shape _ => .shape
  | .op _ => .op

def Item.span : Item → Span
  | .shape d => d.span
  | .op d => d.span

@[simp] theorem Item.outline_span (i : Item) : i.outline.span = i.span := by
  cases i <;> rfl

/-- A declaration over the tokens that it is written with. -/
structure ItemOver (ks : Tokens) (i : Item) : Prop where
  phrase : ItemPhrase (ks.map (·.token)) i.bare
  placed : Placed ks i.outline
  named : NamedAfter i.keyword i.name ks
  reads : ∀ n rest, Reads (item (ks.map (·.shift n) ++ rest)) (· = i.shift n) rest

section

variable {us : List Token} {ks : Tokens}

/-- A declaration starts with its first attribute, if it has any. -/
theorem Hull.from_here {s : Span} {ms : Tokens} (h : Hull ms s) (ks : Tokens) :
    Hull (ks ++ ms) ⟨(here (ks ++ ms)).start, s.stop⟩ := by
  cases ks with
  | nil =>
    have hstart := h.start_here 0 []
    rw [map_shift_eq_self fun l _ => l.shift_zero, List.append_nil, Nat.zero_add] at hstart
    rw [List.nil_append, hstart]
    exact h
  | cons l ks => exact (hull_singleton l).through h ks

/-- A declaration with its attributes, and what else stands before its keyword. -/
theorem DeclOver.item {keyword : Keyword} {attrs : List Attribute} {ms all : Tokens}
    {name : Ident} {span : Span} {parts : List Outline}
    (h : DeclOver keyword ms name span.stop parts) (hattrs : InTurn Placed ks (attrs.map (·.outline)))
    (between : Tokens) (hall : all = ks ++ between ++ ms) (hstart : span.start = (here all).start) :
    Placed all (.node span none (attrs.map (·.outline) ++ .leaf name.span :: parts)) ∧
      NamedAfter keyword name all := by
  subst hall
  obtain ⟨start, hhull⟩ := h.hull
  refine ⟨.plain ?_ ((hattrs.after between).append h.parts), h.named.before _⟩
  have hfrom := hhull.from_here (ks ++ between)
  rwa [← hstart] at hfrom

section

variable {ts tail rest : Tokens} {k l : Lexeme} {attrs : List Attribute}

theorem reads_item_shape {d : ShapeDecl} (hattrs : Reads (attributes ts) (· = attrs) (k :: tail))
    (hk : k.token = .keyword .shape)
    (hd : Reads (shapeDecl attrs (here ts).start tail) (· = d) rest) :
    Reads (item ts) (· = .shape d) rest := by
  rw [item]
  refine hattrs.bind ?_
  rintro _ _ rfl
  simp only [hk]
  refine hd.bind ?_
  rintro _ _ rfl
  exact reads_ok rfl

theorem reads_item_op {d : OpDecl} (hattrs : Reads (attributes ts) (· = attrs) (k :: tail))
    (hk : k.token = .keyword .op)
    (hd : Reads (opDecl attrs false (here ts).start tail) (· = d) rest) :
    Reads (item ts) (· = .op d) rest := by
  rw [item]
  refine hattrs.bind ?_
  rintro _ _ rfl
  simp only [hk]
  refine hd.bind ?_
  rintro _ _ rfl
  exact reads_ok rfl

theorem reads_item_asyncOp {d : OpDecl}
    (hattrs : Reads (attributes ts) (· = attrs) (l :: k :: tail))
    (hl : l.token = .keyword .async) (hk : k.token = .keyword .op)
    (hd : Reads (opDecl attrs true (here ts).start tail) (· = d) rest) :
    Reads (item ts) (· = .op d) rest := by
  rw [item]
  refine hattrs.bind ?_
  rintro _ _ rfl
  simp only [hl]
  refine (reads_expect hk).bind fun _ _ _ => ?_
  refine hd.bind ?_
  rintro _ _ rfl
  exact reads_ok rfl

end

/-- The attributes are read first, and then one more token tells which declaration follows. -/
theorem ItemPhrase.placed {x : Item} (h : ItemPhrase us x) (hwhole : Spells us ks) :
    ∃ i : Item, i.bare = x ∧ ItemOver ks i := by
  have hphrase : ItemPhrase (ks.map (·.token)) x := hwhole ▸ h
  cases h with
  | shape hattrs h =>
    obtain ⟨ks, ms, rfl, hks, hms⟩ := spells_append.mp hwhole
    obtain ⟨us', rfl⟩ := h.first
    obtain ⟨k, ms, rfl, hk, -⟩ := spells_cons.mp hms
    obtain ⟨attrs, rfl, hplaced, hreadAttrs⟩ := attributes_placed hattrs hks
    obtain ⟨d, rfl, rfl, hstart, hover, hread⟩ := h.placed hms (here (ks ++ k :: ms)).start
    obtain ⟨hitem, hnamed⟩ := hover.item hplaced [] (by simp) hstart
    refine ⟨.shape d, rfl, hphrase, hitem, hnamed, fun n rest => ?_⟩
    -- The reader takes the start from the first lexeme, that of an attribute if there is one.
    have hhere := hitem.hull.start_here n rest
    rw [map_shift_append, map_shift_cons] at hhere ⊢
    refine reads_item_shape (hreadAttrs n _ ?_) hk ?_
    · simp [peek, hk]
    · rw [hhere, Outline.span, hstart]
      exact hread n rest
  | op hattrs h =>
    obtain ⟨ks, ms, rfl, hks, hms⟩ := spells_append.mp hwhole
    obtain ⟨us', rfl⟩ := h.first
    obtain ⟨k, ms, rfl, hk, -⟩ := spells_cons.mp hms
    obtain ⟨attrs, rfl, hplaced, hreadAttrs⟩ := attributes_placed hattrs hks
    obtain ⟨d, rfl, rfl, hstart, hover, hread⟩ := h.placed hms (here (ks ++ k :: ms)).start
    obtain ⟨hitem, hnamed⟩ := hover.item hplaced [] (by simp) hstart
    rw [← List.cons_append, ← List.append_assoc] at hitem
    refine ⟨.op d, rfl, hphrase, hitem, hnamed, fun n rest => ?_⟩
    have hhere := hitem.hull.start_here n rest
    rw [map_shift_append, map_shift_cons] at hhere ⊢
    refine reads_item_op (hreadAttrs n _ ?_) hk ?_
    · simp [peek, hk]
    · rw [hhere, Outline.span, hstart]
      exact hread n rest
  | asyncOp hattrs h =>
    obtain ⟨ks, ms, rfl, hks, hms⟩ := spells_append.mp hwhole
    obtain ⟨us', rfl⟩ := h.first
    obtain ⟨l, ms, rfl, hl, hms⟩ := spells_cons.mp hms
    obtain ⟨k, ms, rfl, hk, -⟩ := spells_cons.mp hms
    obtain ⟨attrs, rfl, hplaced, hreadAttrs⟩ := attributes_placed hattrs hks
    obtain ⟨d, rfl, rfl, hstart, hover, hread⟩ := h.placed hms (here (ks ++ l :: k :: ms)).start
    obtain ⟨hitem, hnamed⟩ := hover.item hplaced [l] (by simp) hstart
    rw [← List.cons_append, ← List.append_assoc] at hitem
    refine ⟨.op d, rfl, hphrase, hitem, hnamed, fun n rest => ?_⟩
    have hhere := hitem.hull.start_here n rest
    rw [map_shift_append, map_shift_cons, map_shift_cons] at hhere ⊢
    refine reads_item_asyncOp (hreadAttrs n _ ?_) hl hk ?_
    · simp [peek, hl]
    · rw [hhere, Outline.span, hstart]
      exact hread n rest

theorem ItemPhrase.first {i : Item} (h : ItemPhrase us i) : ∃ u us', us = u :: us' ∧ u ≠ .eof := by
  have hattrs : ∀ {as : List Attribute} {vs ws : List Token} {u : Token},
      Repeated AttributePhrase vs as → u ≠ .eof → ∃ t ts, vs ++ u :: ws = t :: ts ∧ t ≠ .eof := by
    intro as vs ws u h hu
    cases h with
    | nil => exact ⟨_, _, rfl, hu⟩
    | cons h _ =>
      cases h with
      | mk n _ => exact ⟨_, _, rfl, by simp⟩
  cases h with
  | shape h hd =>
    obtain ⟨us', rfl⟩ := hd.first
    exact hattrs h (by simp)
  | op h hd =>
    obtain ⟨us', rfl⟩ := hd.first
    exact hattrs h (by simp)
  | asyncOp h hd => exact hattrs h (by simp)

theorem ItemOver.items_cons {i : Item} {is : List Item} {more : Tokens} (hi : ItemOver ks i) (n : Nat)
    (hmore : items more = .ok is) :
    items (ks.map (·.shift n) ++ more) = .ok (i.shift n :: is) := by
  have hopen : peek (ks.map (·.shift n) ++ more) ≠ .eof := by
    obtain ⟨u, us, hus, hu⟩ := hi.phrase.first
    have hks : Spells (u :: us) ks := hus
    rwa [(hks.begins n more).peek]
  obtain ⟨p, hp, hvalue, hrest⟩ := hi.reads n more
  rw [← hrest] at hmore
  rw [items, if_neg hopen]
  simp only [hp, hmore, bind, Except.bind, pure, Except.pure, hvalue]

/-- A file is read to declarations over its tokens in turn, wherever these stand. -/
theorem FilePhrase.placed {xs : List Item} (h : FilePhrase us xs) (hwhole : Spells us ks) :
    ∃ is : List Item, is.map (·.bare) = xs ∧ InTurn ItemOver ks is ∧ ∀ n rest, peek rest = .eof →
      items (ks.map (·.shift n) ++ rest) = .ok (is.map (·.shift n)) := by
  induction h generalizing ks with
  | nil =>
    obtain rfl := spells_nil.mp hwhole
    refine ⟨[], rfl, .nil [], fun n rest hr => ?_⟩
    show items rest = .ok []
    rw [items, if_pos hr]
  | cons h _ ih =>
    obtain ⟨ks, ms, rfl, hks, hms⟩ := spells_append.mp hwhole
    obtain ⟨i, rfl, hi⟩ := h.placed hks
    obtain ⟨is, rfl, his, hread⟩ := ih hms
    refine ⟨i :: is, rfl, (inTurn_singleton hi).append his, fun n rest hr => ?_⟩
    rw [map_shift_append]
    exact hi.items_cons n (hread n rest hr)

end

end EndpointCompiler.Source
