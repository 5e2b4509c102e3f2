import EndpointCompiler.Proofs.Source.Grammar

/-! What a reader accepts derives from the grammar: the tokens that it takes are a phrase, and what
it gives is the tree of that phrase. -/

namespace EndpointCompiler.Source

/-- Where a reader accepts, it has taken a phrase from the front of the tokens. -/
def Takes {α : Type} {n : Nat} (r : Except SourceError (Parsed α Lexeme n)) (ts : Tokens)
    (P : Phrase α) : Prop :=
  ∀ p, r = .ok p → ∃ us, Begins us ts p.rest ∧ P us p.value

section

variable {α β : Type} {m n : Nat} {P : Phrase α} {Q : Phrase β} {ts rest : Tokens} {us : List Token}

theorem takes_ok {a : α} {h : ts.length < n} (ha : P [] a) :
    Takes (.ok ⟨a, ts, h⟩ : Except SourceError (Parsed α Lexeme n)) ts P := by
  rintro _ ⟨⟩
  exact ⟨[], begins_nil.mpr rfl, ha⟩

theorem takes_error {e : SourceError} :
    Takes (.error e : Except SourceError (Parsed α Lexeme n)) ts P :=
  fun _ h => by cases h

theorem Takes.after {r : Except SourceError (Parsed α Lexeme n)} (hts : Begins us ts rest)
    (h : Takes r rest fun vs a => P (us ++ vs) a) : Takes r ts P := by
  intro p hp
  obtain ⟨vs, hvs, ha⟩ := h p hp
  exact ⟨us ++ vs, begins_append.mpr ⟨rest, hts, hvs⟩, ha⟩

/-- Two readers in turn take the phrase of the first and then that of the second. -/
theorem Takes.bind {r : Except SourceError (Parsed α Lexeme n)}
    {f : Parsed α Lexeme n → Except SourceError (Parsed β Lexeme m)} (h : Takes r ts P)
    (hf : ∀ us a rest (hs : rest.length < n), P us a →
      Takes (f ⟨a, rest, hs⟩) rest fun vs b => Q (us ++ vs) b) :
    Takes (r >>= f) ts Q := by
  cases r with
  | error e => exact takes_error
  | ok p =>
    obtain ⟨us, hus, ha⟩ := h p rfl
    exact (hf us p.value p.rest p.short ha).after hus

theorem Takes.map {r : Except SourceError (Parsed α Lexeme n)} {f : α → β}
    (h : Takes r ts fun us a => Q us (f a)) : Takes (r.map (·.map f)) ts Q := by
  cases r with
  | error e => exact takes_error
  | ok p =>
    rintro _ ⟨⟩
    exact h p rfl

theorem Takes.weaken {r : Except SourceError (Parsed α Lexeme n)} (h : Takes r ts P) (hmn : n ≤ m) :
    Takes (r.map (·.weaken hmn)) ts P := by
  cases r with
  | error e => exact takes_error
  | ok p =>
    rintro _ ⟨⟩
    exact h p rfl

theorem begins_first {l : Lexeme} {t : Token} (hl : l.token = t) (ts : Tokens) :
    Begins [t] (l :: ts) ts :=
  begins_singleton.mpr ⟨l, rfl, hl⟩

theorem skip_begins {t : Token} (h : (skip t ts).value = true) :
    Begins [t] ts (skip t ts).rest := by
  by_cases hts : peek ts = t
  · cases ts with
    | nil => cases h
    | cons l ts =>
      rw [(skip_of_eq (l := l) hts).2]
      exact begins_first hts ts
  · rw [(skip_of_ne hts).1] at h
    cases h

theorem expect_takes {t : Token} : Takes (expect t ts) ts fun us _ => us = [t] := by
  intro p hp
  unfold expect at hp
  split at hp
  · cases hp
  · split at hp <;> cases hp
    rename_i hl
    exact ⟨[t], begins_first hl _, rfl⟩

theorem ident_takes : Takes (ident ts) ts fun us i => us = [.ident i.name] := by
  intro p hp
  unfold ident at hp
  split at hp
  · cases hp
  · split at hp <;> cases hp
    rename_i hl
    exact ⟨_, begins_first hl _, rfl⟩

/-- A list takes a list of phrases. Its things are read from no more tokens than the list is, so
that a reader of things may itself read such lists. -/
theorem commaSeparated_takes {bound : Nat} {item : BoundedReader α bound} {f : α → β} {ts : Tokens}
    (hitem : ∀ us h, us.length ≤ ts.length → Takes (item us h) us fun vs a => Q vs (f a))
    (h : ts.length < bound) :
    Takes (commaSeparated bound item ts h) ts fun us as => Separated Q us (as.map f) := by
  rw [commaSeparated]
  refine (hitem ts h (Nat.le_refl _)).bind fun us a rest hs ha => ?_
  cases rest with
  | nil => exact takes_ok (by simpa using Separated.last ha)
  | cons l rest =>
    dsimp only
    split
    · rename_i hl
      refine Takes.after (begins_first hl rest) ?_
      have hmore : ∀ us h, us.length ≤ rest.length → Takes (item us h) us fun vs a => Q vs (f a) :=
        fun us h hus => hitem us h (Nat.le_trans hus (by simp at hs; omega))
      refine (commaSeparated_takes hmore _).bind fun vs as rest' _ has => ?_
      exact takes_ok (by simpa using Separated.cons ha has)
    · exact takes_ok (by simpa using Separated.last ha)
termination_by ts.length
decreasing_by
  simp only [List.length_cons] at hs
  omega

theorem Listed.cons {a : α} {us vs : List Token} {as : List α} (ha : P us a)
    (has : Listed P vs as) :
    Listed P (us ++ .punct .comma :: vs) (a :: as) := by
  cases has with
  | nil => exact .trailing (.last ha)
  | plain has => exact .plain (.cons ha has)
  | trailing has =>
    have hall := Listed.trailing (Separated.cons ha has)
    rwa [List.append_assoc, List.cons_append] at hall

theorem commaList_takes {bound : Nat} {close : Punct} {item : BoundedReader α bound} {f : α → β}
    {ts : Tokens}
    (hitem : ∀ us h, us.length ≤ ts.length → Takes (item us h) us fun vs a => Q vs (f a))
    (h : ts.length < bound) :
    Takes (commaList bound close item ts h) ts fun us as => Listed Q us (as.map f) := by
  rw [commaList]
  split
  · exact takes_ok .nil
  · refine (hitem ts h (Nat.le_refl _)).bind fun us a rest hs ha => ?_
    cases rest with
    | nil => exact takes_ok (by simpa using Listed.plain (.last ha))
    | cons l rest =>
      dsimp only
      split
      · rename_i hl
        refine Takes.after (begins_first hl rest) ?_
        have hmore : ∀ us h, us.length ≤ rest.length →
            Takes (item us h) us fun vs a => Q vs (f a) :=
          fun us h hus => hitem us h (Nat.le_trans hus (by simp at hs; omega))
        refine (commaList_takes hmore _).bind fun vs as rest' _ has => ?_
        exact takes_ok (by simpa using Listed.cons ha has)
      · exact takes_ok (by simpa using Listed.plain (.last ha))
termination_by ts.length
decreasing_by
  simp only [List.length_cons] at hs
  omega

end

section

variable {ts : Tokens}

theorem pathRest_takes {ts : Tokens} :
    Takes (pathRest ts) ts fun us more => us = pathTokens (more.map (·.name)) := by
  match ts with
  | [] =>
    rw [pathRest]
    exact takes_ok rfl
  | l :: tail =>
    rw [pathRest]
    split
    · rename_i hl
      refine Takes.after (begins_first hl tail) ?_
      refine ident_takes.bind ?_
      rintro _ i rest hs rfl
      refine pathRest_takes.bind ?_
      rintro _ more rest' _ rfl
      exact takes_ok (by simp [pathTokens])
    · exact takes_ok rfl
termination_by ts.length
decreasing_by
  simp only [List.length_cons]
  omega

/-- A path is a module if a double colon follows, and if none does it has to be a single name. -/
theorem typeName_takes :
    Takes (typeName ts) ts fun us v => NamePhrase us (v.1, v.2.name) := by
  rw [typeName]
  refine ident_takes.bind ?_
  rintro _ i rest _ rfl
  refine pathRest_takes.bind ?_
  rintro _ more rest' _ rfl
  dsimp only
  split
  · rename_i hcolon
    refine Takes.after (skip_begins hcolon) ?_
    refine ident_takes.bind ?_
    rintro _ name rest'' _ rfl
    have hname := NamePhrase.inModule i.name (more.map (·.name)) name.name
    exact takes_ok (by simpa using hname)
  · split
    · rename_i hmore
      have hmore : more = [] := List.isEmpty_iff.mp hmore
      exact takes_ok (by simpa [hmore, pathTokens] using NamePhrase.plain i.name)
    · exact takes_error

/-- What is accepted as a type derives from the grammar. The induction is on the number of tokens,
because arguments are read by a reader of lists and not by the reader of types itself. -/
theorem typeExpr_takes {ts : Tokens} :
    Takes (typeExpr ts) ts fun us t => TypePhrase us t.bare := by
  match ts with
  | [] =>
    rw [typeExpr]
    exact takes_error
  | l :: tail =>
    rw [typeExpr]
    split
    · rename_i hl
      refine Takes.after (begins_first hl tail) ?_
      refine typeExpr_takes.bind fun us t rest _ ht => ?_
      refine expect_takes.bind ?_
      rintro _ _ rest' _ rfl
      exact takes_ok (by simpa [TypeExpr.bare] using TypePhrase.array ht)
    · refine typeName_takes.bind ?_
      rintro us ⟨module, name⟩ rest hs hname
      dsimp only
      split
      · rename_i hless
        refine Takes.after (skip_begins hless) ?_
        refine (commaSeparated_takes (f := TypeExpr.bare) (fun us _ hus => typeExpr_takes) _).bind
          fun vs ts rest' _ hts => ?_
        refine expect_takes.bind ?_
        rintro _ _ rest'' _ rfl
        refine takes_ok ?_
        rw [TypeExpr.bare, TypeExpr.bareAll_eq]
        simpa using TypePhrase.apply hname hts
      · refine takes_ok ?_
        rw [TypeExpr.bare, TypeExpr.bareAll_eq]
        simpa using TypePhrase.name hname
termination_by ts.length
decreasing_by
  · have := (skip (.punct .less) rest).short
    simp only [List.length_cons] at *
    omega
  · simp

theorem typeArgs_takes :
    Takes (typeArgs ts) ts fun us es => TypeArgsPhrase us (es.map (·.bare)) := by
  rw [typeArgs]
  split
  · refine expect_takes.bind ?_
    rintro _ _ rest _ rfl
    refine expect_takes.bind ?_
    rintro _ _ rest' _ rfl
    refine (commaSeparated_takes (fun us _ _ => typeExpr_takes) _).bind fun us es rest'' _ hes => ?_
    refine expect_takes.bind ?_
    rintro _ _ _ _ rfl
    exact takes_ok (by simpa using TypeArgsPhrase.some hes)
  · exact takes_ok .none

/-- Each name of a chain is put around all that was read before it. -/
theorem fieldChain_takes {base : Expr} {ts : Tokens} :
    Takes (fieldChain base ts) ts fun us e =>
      ∃ names, us = pathTokens names ∧ e.bare = chained names base.bare := by
  match ts with
  | [] =>
    rw [fieldChain]
    exact takes_ok ⟨[], rfl, rfl⟩
  | l :: tail =>
    rw [fieldChain]
    split
    · rename_i hl
      refine Takes.after (begins_first hl tail) ?_
      refine ident_takes.bind ?_
      rintro _ i rest hs rfl
      refine fieldChain_takes.bind ?_
      rintro _ e rest' _ ⟨names, rfl, he⟩
      exact takes_ok ⟨i.name :: names, by simp [pathTokens], he⟩
    · exact takes_ok ⟨[], rfl, rfl⟩
termination_by ts.length
decreasing_by
  simp only [List.length_cons]
  omega

/-- What is accepted as an expression derives from the grammar, by induction on the number of
tokens. A name begins a call or a chain, and the token after it tells which. -/
theorem expr_takes {ts : Tokens} : Takes (expr ts) ts fun us e => ExprPhrase us e.bare := by
  match ts with
  | [] =>
    rw [expr]
    exact takes_error
  | l :: tail =>
    rw [expr]
    split
    · rename_i hl
      refine Takes.after (begins_first hl tail) ?_
      refine expr_takes.bind fun us e rest _ he => ?_
      exact takes_ok (by simpa [Expr.bare] using ExprPhrase.await he)
    · rename_i hl
      refine Takes.after (begins_first hl tail) ?_
      refine typeExpr_takes.bind fun us type rest hs htype => ?_
      refine expect_takes.bind ?_
      rintro _ _ rest' hs' rfl
      have hlt : rest'.length < tail.length := Nat.lt_trans hs' hs
      refine (commaList_takes (Q := InitPhrase ExprPhrase)
        (f := fun f : Ident × Expr => (f.1.bare, f.2.bare)) ?_ _).bind
        fun vs fields rest'' _ hfields => ?_
      · intro vs _ hvs
        refine ident_takes.bind ?_
        rintro _ name ws hws rfl
        refine expect_takes.bind ?_
        rintro _ _ xs hxs rfl
        have hlt' : xs.length < tail.length :=
          Nat.lt_trans (Nat.lt_trans hxs hws) (Nat.lt_of_le_of_lt hvs hlt)
        refine expr_takes.bind fun us value _ _ hvalue => ?_
        exact takes_ok (by simpa [Ident.bare] using InitPhrase.assign name.name hvalue)
      · refine expect_takes.bind ?_
        rintro _ _ _ _ rfl
        refine takes_ok ?_
        rw [Expr.bare, Expr.bareFields_eq]
        simpa using ExprPhrase.new htype hfields
    · rename_i name hl
      refine Takes.after (begins_first hl tail) ?_
      split
      · refine typeArgs_takes.bind fun us types rest hs htypes => ?_
        refine expect_takes.bind ?_
        rintro _ _ rest' hs' rfl
        have hlt : rest'.length < tail.length := Nat.lt_of_lt_of_le hs' (Nat.le_of_lt_succ hs)
        refine (commaList_takes (f := Expr.bare)
          (fun us _ (hus : us.length ≤ rest'.length) => expr_takes) _).bind
          fun vs args rest'' _ hargs => ?_
        refine expect_takes.bind ?_
        rintro _ _ _ _ rfl
        refine takes_ok ?_
        rw [Expr.bare, Expr.bareAll_eq]
        simpa [Ident.bare] using ExprPhrase.call name htypes hargs
      -- A chain of fields is read by a reader of its own, which already leaves the phrase behind.
      · refine Takes.weaken ?_ _
        intro p hp
        obtain ⟨us, hus, names, rfl, he⟩ := fieldChain_takes p hp
        have hchain := ExprPhrase.chain name names
        refine ⟨_, hus, ?_⟩
        dsimp only
        rw [he]
        exact hchain
    · exact takes_error
termination_by ts.length
decreasing_by
  all_goals simp only [List.length_cons]
  all_goals omega

/-- What is accepted as a statement derives from the grammar. -/
theorem stmt_takes : Takes (stmt ts) ts fun us s => StmtPhrase us s.bare := by
  match ts with
  | [] => exact takes_error
  | l :: tail =>
    rw [stmt]
    split
    · rename_i hl
      refine Takes.after (begins_first hl tail) ?_
      refine ident_takes.bind ?_
      rintro _ name rest _ rfl
      refine expect_takes.bind ?_
      rintro _ _ rest' _ rfl
      refine expr_takes.bind fun us value rest'' _ hvalue => ?_
      refine expect_takes.bind ?_
      rintro _ _ _ _ rfl
      exact takes_ok (by simpa [Stmt.bare, Ident.bare] using StmtPhrase.bind name.name hvalue)
    · rename_i hl
      refine Takes.after (begins_first hl tail) ?_
      refine expr_takes.bind fun us value rest _ hvalue => ?_
      refine expect_takes.bind ?_
      rintro _ _ _ _ rfl
      exact takes_ok (by simpa [Stmt.bare] using StmtPhrase.result hvalue)
    · exact takes_error

theorem stmts_takes {ts : Tokens} :
    Takes (stmts ts) ts fun us ss => Repeated StmtPhrase us (ss.map (·.bare)) := by
  rw [stmts]
  split
  · exact takes_ok .nil
  · refine stmt_takes.bind fun us s rest hs h => ?_
    refine stmts_takes.bind fun vs ss rest' _ hss => ?_
    exact takes_ok (by simpa using Repeated.cons h hss)
termination_by ts.length

theorem attributeArg_takes :
    Takes (attributeArg ts) ts fun us a => ArgPhrase us a.bare := by
  match ts with
  | [] => exact takes_error
  | l :: tail =>
    rw [attributeArg]
    split
    · rename_i value hl
      refine Takes.after (begins_first hl tail) ?_
      exact takes_ok (.text value)
    · refine Takes.map ?_
      intro p hp
      obtain ⟨us, hus, ht⟩ := typeExpr_takes p hp
      exact ⟨us, hus, .type ht⟩

theorem attributeArgs_takes :
    Takes (attributeArgs ts) ts fun us as => ArgsPhrase us (as.map (·.bare)) := by
  rw [attributeArgs]
  split
  · refine expect_takes.bind ?_
    rintro _ _ rest _ rfl
    refine (commaList_takes (fun us _ _ => attributeArg_takes) _).bind fun us as rest' _ has => ?_
    refine expect_takes.bind ?_
    rintro _ _ _ _ rfl
    exact takes_ok (by simpa using ArgsPhrase.some has)
  · exact takes_ok .none

theorem attributes_takes {ts : Tokens} :
    Takes (attributes ts) ts fun us as => Repeated AttributePhrase us (as.map (·.bare)) := by
  match ts with
  | [] =>
    rw [attributes]
    exact takes_ok .nil
  | l :: tail =>
    rw [attributes]
    split
    · rename_i hl
      refine Takes.after (begins_first hl tail) ?_
      refine expect_takes.bind ?_
      rintro _ _ rest hs rfl
      refine ident_takes.bind ?_
      rintro _ name rest' hs' rfl
      refine attributeArgs_takes.bind fun us args rest'' hs'' hargs => ?_
      refine expect_takes.bind ?_
      rintro _ _ rest''' hs''' rfl
      have hlt : rest'''.length < tail.length :=
        Nat.lt_trans hs''' (Nat.lt_of_le_of_lt (Nat.le_of_lt_succ hs'') (Nat.lt_trans hs' hs))
      refine attributes_takes.bind fun vs more _ _ hmore => ?_
      have hfirst := AttributePhrase.mk name.name hargs
      exact takes_ok (by simpa [Attribute.bare, Ident.bare] using Repeated.cons hfirst hmore)
    · exact takes_ok .nil
termination_by ts.length
decreasing_by
  simp only [List.length_cons]
  omega

theorem typedName_takes :
    Takes (typedName ts) ts fun us v => TypedPhrase us (v.1.bare, v.2.bare) := by
  rw [typedName]
  refine ident_takes.bind ?_
  rintro _ name rest _ rfl
  refine expect_takes.bind ?_
  rintro _ _ rest' _ rfl
  refine typeExpr_takes.bind fun us type _ _ htype => ?_
  exact takes_ok (by simpa [Ident.bare] using TypedPhrase.mk name.name htype)

theorem fieldDecl_takes : Takes (fieldDecl ts) ts fun us d => FieldPhrase us d.bare := by
  refine Takes.map ?_
  intro p hp
  obtain ⟨us, hus, h⟩ := typedName_takes p hp
  exact ⟨us, hus, .mk h⟩

theorem paramDecl_takes : Takes (paramDecl ts) ts fun us d => ParamPhrase us d.bare := by
  rw [paramDecl]
  refine attributes_takes.bind fun us attrs rest _ hattrs => ?_
  refine typedName_takes.bind fun vs typed _ _ htyped => ?_
  exact takes_ok (by simpa [ParamDecl.bare] using ParamPhrase.mk hattrs htyped)

theorem shapeDecl_takes {attrs : List Attribute} {start : Nat} :
    Takes (shapeDecl attrs start ts) ts fun us d =>
      ShapePhrase (attrs.map (·.bare)) (.keyword .shape :: us) d.bare := by
  rw [shapeDecl]
  refine ident_takes.bind ?_
  rintro _ name rest _ rfl
  refine expect_takes.bind ?_
  rintro _ _ rest' _ rfl
  refine (commaList_takes (fun us _ _ => fieldDecl_takes) _).bind fun us fields _ _ hfields => ?_
  refine expect_takes.bind ?_
  rintro _ _ _ _ rfl
  exact takes_ok (by simpa [ShapeDecl.bare, Ident.bare] using ShapePhrase.mk name.name hfields)

/-- What is accepted after `op` derives from the grammar together with the keyword. -/
theorem opDecl_takes {attrs : List Attribute} {isAsync : Bool} {start : Nat} :
    Takes (opDecl attrs isAsync start ts) ts fun us d =>
      OpPhrase (attrs.map (·.bare)) isAsync (.keyword .op :: us) d.bare := by
  rw [opDecl]
  refine ident_takes.bind ?_
  rintro _ name _ _ rfl
  refine expect_takes.bind ?_
  rintro _ _ _ _ rfl
  refine (commaList_takes (fun us _ _ => paramDecl_takes) _).bind fun us params _ _ hparams => ?_
  refine expect_takes.bind ?_
  rintro _ _ _ _ rfl
  refine expect_takes.bind ?_
  rintro _ _ _ _ rfl
  refine typeExpr_takes.bind fun vs result _ _ hresult => ?_
  refine expect_takes.bind ?_
  rintro _ _ _ _ rfl
  refine stmts_takes.bind fun ws body _ _ hbody => ?_
  refine expect_takes.bind ?_
  rintro _ _ _ _ rfl
  exact takes_ok (by
    simpa [OpDecl.bare, Ident.bare] using OpPhrase.mk name.name hparams hresult hbody)

/-- A declaration takes its attributes and then what its keyword says. -/
theorem item_takes : Takes (item ts) ts fun us i => ItemPhrase us i.bare := by
  rw [item]
  refine attributes_takes.bind fun us attrs rest _ hattrs => ?_
  cases rest with
  | nil => exact takes_error
  | cons l tail =>
    dsimp only
    split
    · rename_i hl
      refine Takes.after (begins_first hl tail) ?_
      refine Takes.bind shapeDecl_takes fun vs d _ _ hd => ?_
      exact takes_ok (by simpa [Item.bare] using ItemPhrase.shape hattrs hd)
    · rename_i hl
      refine Takes.after (begins_first hl tail) ?_
      refine Takes.bind opDecl_takes fun vs d _ _ hd => ?_
      exact takes_ok (by simpa [Item.bare] using ItemPhrase.op hattrs hd)
    · rename_i hl
      refine Takes.after (begins_first hl tail) ?_
      refine Takes.bind expect_takes ?_
      rintro _ _ _ _ rfl
      refine Takes.bind opDecl_takes fun vs d _ _ hd => ?_
      exact takes_ok (by simpa [Item.bare] using ItemPhrase.asyncOp hattrs hd)
    · exact takes_error

end

end EndpointCompiler.Source
