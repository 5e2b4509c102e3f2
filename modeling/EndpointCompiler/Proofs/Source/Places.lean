import EndpointCompiler.Proofs.Source.Spans

/-! Where trees stand. The span of a node reaches from one of its tokens to the same or a later one,
and a text that is no tree is refused at one of its tokens. -/

namespace EndpointCompiler.Source

section

variable {ts whole : Tokens} {l : Lexeme}

theorem pathRest_delimits {ts : Tokens} : Delimits (pathRest ts) ts fun _ => True := by
  match ts with
  | [] =>
    rw [pathRest]
    exact delimits_ok trivial
  | l :: tail =>
    rw [pathRest]
    split
    · rename_i hl
      refine Delimits.after (leaves_cons (by simp [hl])) ?_
      refine ident_delimits.bind fun _ rest hs _ _ => ?_
      refine pathRest_delimits.bind fun _ _ _ _ _ => ?_
      exact delimits_ok trivial
    · exact delimits_ok trivial
termination_by ts.length
decreasing_by
  simp only [List.length_cons]
  omega

theorem typeName_delimits : Delimits (typeName ts) ts fun v => Spans ts v.2.span := by
  rw [typeName]
  refine ident_delimits.bind fun first rest _ hrest hfirst => ?_
  refine pathRest_delimits.bind fun more rest' _ hrest' _ => ?_
  dsimp only
  split
  · have hskip : Leaves rest' (skip (.punct .doubleColon) rest').rest := skip_leaves (by simp)
    refine Delimits.after hskip ?_
    refine ident_delimits.bind fun name rest'' _ _ hname => ?_
    exact delimits_ok (hname.mono ((hrest.trans hrest').trans hskip).sublist)
  · split
    · exact delimits_ok hfirst
    · exact delimits_unexpected

/-- The spans in a type are over the tokens that it is read from. A type starts with the first of
them and ends with a later one, which for an array or a list of arguments is its closing mark. -/
theorem typeExpr_delimits {ts : Tokens} :
    Delimits (typeExpr ts) ts fun t => Inside ts t.spans := by
  match ts with
  | [] =>
    rw [typeExpr]
    exact delimits_unexpected
  | l :: tail =>
    rw [typeExpr]
    split
    · rename_i hl
      have htail : Leaves (l :: tail) tail := leaves_cons (by simp [hl])
      refine Delimits.after htail ?_
      refine typeExpr_delimits.bind fun element rest _ hrest helement => ?_
      refine expectMark_delimits.bind fun close _ _ _ hclose => ?_
      refine delimits_ok ?_
      rw [TypeExpr.spans, inside_cons]
      exact ⟨(hclose.mono (htail.trans hrest).sublist).from_head, helement.mono htail.sublist⟩
    · refine typeName_delimits.bind ?_
      rintro ⟨module, name⟩ rest hs hrest hname
      dsimp only
      split
      · have hskip : Leaves rest (skip (.punct .less) rest).rest := skip_leaves (by simp)
        have hopen : Leaves (l :: tail) (skip (.punct .less) rest).rest := hrest.trans hskip
        refine Delimits.after hskip ?_
        refine (commaSeparated_delimits (P := fun t => Inside (l :: tail) t.spans)
          (fun us _ hus => typeExpr_delimits.imp fun t ht => ht.mono (hopen.trans hus).sublist) _).bind
          fun args rest' _ hrest' hargs => ?_
        refine expectMark_delimits.bind fun close _ _ _ hclose => ?_
        refine delimits_ok ?_
        rw [TypeExpr.spans, TypeExpr.allSpans_eq, inside_cons, inside_flatMap]
        exact ⟨(hclose.mono (hopen.trans hrest').sublist).from_head, hargs⟩
      · refine delimits_ok ?_
        rw [TypeExpr.spans, TypeExpr.allSpans_eq, inside_cons]
        exact ⟨hname.from_head, inside_nil⟩
termination_by ts.length
decreasing_by
  · have := (skip (.punct .less) rest).short
    have := hus.length_le
    simp only [List.length_cons] at *
    omega
  · simp

theorem typeArgs_delimits :
    Delimits (typeArgs ts) ts fun args => ∀ t ∈ args, Inside ts t.spans := by
  rw [typeArgs]
  split
  · refine expectMark_delimits.bind fun _ rest _ hrest _ => ?_
    refine expectMark_delimits.bind fun _ rest' _ hrest' _ => ?_
    have hopen : Leaves ts rest' := hrest.trans hrest'
    refine (commaSeparated_delimits (P := fun t => Inside ts t.spans)
      (fun us _ hus => typeExpr_delimits.imp fun t ht => ht.mono (hopen.trans hus).sublist) _).bind
      fun args _ _ _ hargs => ?_
    refine expectMark_delimits.bind fun _ _ _ _ _ => ?_
    exact delimits_ok hargs
  · exact delimits_ok (List.forall_mem_nil _)

/-- A chain starts at a token before those that it goes on with. -/
theorem fieldChain_delimits {ts : Tokens} {base : Expr} (hsub : (l :: ts).Sublist whole)
    (hstart : base.span.start = l.span.start) (hbase : Inside whole base.spans) :
    Delimits (fieldChain base ts) ts fun e => Inside whole e.spans := by
  match ts with
  | [] =>
    rw [fieldChain]
    exact delimits_ok hbase
  | k :: tail =>
    rw [fieldChain]
    split
    · rename_i hk
      have htail : Leaves (k :: tail) tail := leaves_cons (by simp [hk])
      refine Delimits.after htail ?_
      refine ident_delimits.bind fun name rest _ hrest hname => ?_
      have hname : Spans (l :: k :: tail) name.span :=
        hname.mono (htail.sublist.trans (List.sublist_cons_self l _))
      have hnext : (l :: rest).Sublist whole :=
        ((htail.trans hrest).sublist.cons_cons l).trans hsub
      let taken : Expr := .field base name ⟨base.span.start, name.span.stop⟩
      have htaken : Inside whole taken.spans := by
        rw [Expr.spans, inside_cons, inside_cons, hstart]
        exact ⟨hname.from_head.mono hsub, hname.mono hsub, hbase⟩
      have hfirst : taken.span.start = l.span.start := hstart
      refine (fieldChain_delimits hnext hfirst htaken).bind fun e _ _ _ he => ?_
      exact delimits_ok he
    · exact delimits_ok hbase
termination_by ts.length
decreasing_by
  simp only [List.length_cons]
  omega

/-- The spans in an expression are over the tokens that it is read from, and where there is none it
is refused at one of them. Every form starts with the first token, a chain as the name does that it
begins with, so that its span is found as soon as its last token is. -/
theorem expr_delimits {ts : Tokens} : Delimits (expr ts) ts fun e => Inside ts e.spans := by
  -- The recursion is on the number of tokens: every reader between two expressions takes at
  -- least one, so that `hlt` and `hlt'` below make the nested calls smaller.
  match ts with
  | [] =>
    rw [expr]
    exact delimits_unexpected
  | l :: tail =>
    rw [expr]
    split
    · rename_i hl
      have htail : Leaves (l :: tail) tail := leaves_cons (by simp [hl])
      refine Delimits.after htail ?_
      refine expr_delimits.bind fun inner _ _ _ hinner => ?_
      have hinner : Inside (l :: tail) inner.spans := hinner.mono htail.sublist
      refine delimits_ok ?_
      rw [Expr.spans, inside_cons]
      exact ⟨(hinner _ inner.span_mem_spans).from_head, hinner⟩
    · rename_i hl
      have htail : Leaves (l :: tail) tail := leaves_cons (by simp [hl])
      refine Delimits.after htail ?_
      refine typeExpr_delimits.bind fun type rest hs hrest htype => ?_
      refine expectMark_delimits.bind fun _ rest' hs' hrest' _ => ?_
      have hlt : rest'.length < tail.length := Nat.lt_trans hs' hs
      have hopen : Leaves (l :: tail) rest' := (htail.trans hrest).trans hrest'
      refine (commaList_delimits
        (P := fun f : Ident × Expr => Inside (l :: tail) (f.1.span :: f.2.spans)) ?_ _).bind
        fun fields rest'' _ hrest'' hfields => ?_
      · intro us _ hus
        refine ident_delimits.bind fun name vs hvs hname hspan => ?_
        refine expectMark_delimits.bind fun _ ws hws hequals _ => ?_
        have hlt' : ws.length < us.length := Nat.lt_trans hws hvs
        refine expr_delimits.bind fun value _ _ _ hvalue => ?_
        refine delimits_ok (inside_cons.mpr ⟨?_, ?_⟩)
        · exact hspan.mono (hopen.trans hus).sublist
        · exact hvalue.mono (((hopen.trans hus).trans hname).trans hequals).sublist
      · refine expectMark_delimits.bind fun close _ _ _ hclose => ?_
        refine delimits_ok ?_
        rw [Expr.spans, Expr.fieldSpans_eq, List.cons_append, inside_cons, inside_append,
          inside_flatMap]
        exact ⟨(hclose.mono (hopen.trans hrest'').sublist).from_head, htype.mono htail.sublist,
          hfields⟩
    · rename_i name hl
      have htail : Leaves (l :: tail) tail := leaves_cons (by simp [hl])
      have hfunction : Spans (l :: tail) l.span := spans_of_mem List.mem_cons_self
      refine Delimits.after htail ?_
      split
      · refine typeArgs_delimits.bind fun types rest hs hrest htypes => ?_
        refine expectMark_delimits.bind fun _ rest' hs' hrest' _ => ?_
        have hlt : rest'.length < tail.length :=
          Nat.lt_of_lt_of_le hs' (Nat.le_of_lt_succ hs)
        have hopen : Leaves (l :: tail) rest' := (htail.trans hrest).trans hrest'
        refine (commaList_delimits (P := fun e => Inside (l :: tail) e.spans)
          (fun us _ hus => expr_delimits.imp fun e he => he.mono (hopen.trans hus).sublist) _).bind
          fun args rest'' _ hrest'' hargs => ?_
        refine expectMark_delimits.bind fun close _ _ _ hclose => ?_
        refine delimits_ok ?_
        rw [Expr.spans, Expr.allSpans_eq, List.cons_append, List.cons_append, inside_cons,
          inside_cons, inside_append, inside_flatMap, inside_flatMap]
        exact ⟨(hclose.mono (hopen.trans hrest'').sublist).from_head, hfunction,
          fun t ht => (htypes t ht).mono htail.sublist, hargs⟩
      · have hbase : Inside (l :: tail) (Expr.var ⟨name, l.span⟩).spans := by
          rw [Expr.spans, inside_cons]
          exact ⟨hfunction, inside_nil⟩
        exact (fieldChain_delimits (List.Sublist.refl _) rfl hbase).weaken _
    · exact delimits_unexpected
termination_by ts.length
decreasing_by
  · simp
  all_goals
    have := hus.length_le
    simp only [List.length_cons] at *
    omega

/-- A statement reaches from its keyword to its semicolon. -/
theorem stmt_delimits : Delimits (stmt ts) ts fun s => Inside ts s.spans := by
  match ts with
  | [] => exact delimits_unexpected
  | l :: tail =>
    rw [stmt]
    split
    · rename_i hl
      have htail : Leaves (l :: tail) tail := leaves_cons (by simp [hl])
      refine Delimits.after htail ?_
      refine ident_delimits.bind fun name rest _ hrest hname => ?_
      refine expectMark_delimits.bind fun _ rest' _ hrest' _ => ?_
      have hequals : Leaves (l :: tail) rest' := (htail.trans hrest).trans hrest'
      refine expr_delimits.bind fun value rest'' _ hrest'' hvalue => ?_
      refine expectMark_delimits.bind fun close _ _ _ hclose => ?_
      refine delimits_ok ?_
      rw [Stmt.spans, inside_cons, inside_cons]
      exact ⟨(hclose.mono (hequals.trans hrest'').sublist).from_head, hname.mono htail.sublist,
        hvalue.mono hequals.sublist⟩
    · rename_i hl
      have htail : Leaves (l :: tail) tail := leaves_cons (by simp [hl])
      refine Delimits.after htail ?_
      refine expr_delimits.bind fun value rest _ hrest hvalue => ?_
      refine expectMark_delimits.bind fun close _ _ _ hclose => ?_
      refine delimits_ok ?_
      rw [Stmt.spans, inside_cons]
      exact ⟨(hclose.mono (htail.trans hrest).sublist).from_head, hvalue.mono htail.sublist⟩
    · exact delimits_unexpected

theorem stmts_delimits {ts : Tokens} :
    Delimits (stmts ts) ts fun ss => ∀ s ∈ ss, Inside ts s.spans := by
  rw [stmts]
  split
  · exact delimits_ok (List.forall_mem_nil _)
  · refine stmt_delimits.bind fun first rest hs hrest hfirst => ?_
    refine stmts_delimits.bind fun more _ _ _ hmore => ?_
    have hmore : ∀ s ∈ more, Inside ts s.spans := fun s hs => (hmore s hs).mono hrest.sublist
    exact delimits_ok (List.forall_mem_cons.mpr ⟨hfirst, hmore⟩)
termination_by ts.length

theorem attributeArg_delimits :
    Delimits (attributeArg ts) ts fun a => Inside ts a.spans := by
  match ts with
  | [] => exact delimits_unexpected
  | l :: tail =>
    rw [attributeArg]
    split
    · rename_i value hl
      refine Delimits.after (leaves_cons (by simp [hl])) (delimits_ok ?_)
      rw [AttributeArg.spans, inside_cons]
      exact ⟨spans_of_mem List.mem_cons_self, inside_nil⟩
    · exact typeExpr_delimits.map fun t ht => ht

theorem attributeArgs_delimits :
    Delimits (attributeArgs ts) ts fun as => ∀ a ∈ as, Inside ts a.spans := by
  rw [attributeArgs]
  split
  · refine expectMark_delimits.bind fun _ rest _ hrest _ => ?_
    refine (commaList_delimits (P := fun a => Inside ts a.spans)
      (fun us _ hus => attributeArg_delimits.imp fun a ha => ha.mono (hrest.trans hus).sublist)
      _).bind fun args _ _ _ hargs => ?_
    refine expectMark_delimits.bind fun _ _ _ _ _ => ?_
    exact delimits_ok hargs
  · exact delimits_ok (List.forall_mem_nil _)

/-- An attribute reaches from its hash to its bracket, over tokens that come before those of the
next. -/
theorem attributes_delimits {ts : Tokens} :
    Delimits (attributes ts) ts fun as => ∀ a ∈ as, Inside ts a.spans := by
  match ts with
  | [] =>
    rw [attributes]
    exact delimits_ok (List.forall_mem_nil _)
  | l :: tail =>
    rw [attributes]
    split
    · rename_i hl
      have htail : Leaves (l :: tail) tail := leaves_cons (by simp [hl])
      refine Delimits.after htail ?_
      refine expectMark_delimits.bind fun _ rest hs hrest _ => ?_
      have hopen : Leaves (l :: tail) rest := htail.trans hrest
      refine ident_delimits.bind fun name rest' hs' hrest' hname => ?_
      have hnamed : Leaves (l :: tail) rest' := hopen.trans hrest'
      refine attributeArgs_delimits.bind fun args rest'' hs'' hrest'' hargs => ?_
      refine expectMark_delimits.bind fun close rest''' hs''' hrest''' hclose => ?_
      have hclosed : Leaves (l :: tail) rest''' := (hnamed.trans hrest'').trans hrest'''
      have hlt : rest'''.length < tail.length :=
        Nat.lt_trans hs''' (Nat.lt_of_le_of_lt (Nat.le_of_lt_succ hs'') (Nat.lt_trans hs' hs))
      refine attributes_delimits.bind fun more _ _ _ hmore => ?_
      refine delimits_ok (List.forall_mem_cons.mpr ⟨?_, fun a ha => ?_⟩)
      · rw [Attribute.spans, inside_cons, inside_cons, inside_flatMap]
        exact ⟨(hclose.mono (hnamed.trans hrest'').sublist).from_head, hname.mono hopen.sublist,
          fun a ha => (hargs a ha).mono hnamed.sublist⟩
      · exact (hmore a ha).mono hclosed.sublist
    · exact delimits_ok (List.forall_mem_nil _)
termination_by ts.length
decreasing_by
  simp only [List.length_cons]
  omega

theorem typedName_delimits :
    Delimits (typedName ts) ts fun v => Inside ts (v.1.span :: v.2.spans) := by
  rw [typedName]
  refine ident_delimits.bind fun name rest _ hrest hname => ?_
  refine expectMark_delimits.bind fun _ rest' _ hrest' _ => ?_
  refine typeExpr_delimits.bind fun type _ _ _ htype => ?_
  exact delimits_ok (inside_cons.mpr ⟨hname, htype.mono (hrest.trans hrest').sublist⟩)

theorem fieldDecl_delimits : Delimits (fieldDecl ts) ts fun d => Inside ts d.spans :=
  typedName_delimits.map fun _ h => h

theorem paramDecl_delimits : Delimits (paramDecl ts) ts fun d => Inside ts d.spans := by
  rw [paramDecl]
  refine attributes_delimits.bind fun attrs rest _ hrest hattrs => ?_
  refine typedName_delimits.bind fun typed _ _ _ htyped => ?_
  obtain ⟨hname, htype⟩ := inside_cons.mp (htyped.mono hrest.sublist)
  refine delimits_ok ?_
  rw [ParamDecl.spans, List.cons_append, inside_cons, inside_append, inside_flatMap]
  exact ⟨hname, hattrs, htype⟩

variable {attrs : List Attribute}

/-- A declaration starts at a token before those that follow its keyword. -/
theorem shapeDecl_delimits (hsub : (l :: ts).Sublist whole)
    (hattrs : ∀ a ∈ attrs, Inside whole a.spans) :
    Delimits (shapeDecl attrs l.span.start ts) ts fun d => Inside whole d.spans := by
  have hts : ts.Sublist (l :: ts) := List.sublist_cons_self l ts
  rw [shapeDecl]
  refine ident_delimits.bind fun name rest _ hrest hname => ?_
  refine expectMark_delimits.bind fun _ rest' _ hrest' _ => ?_
  have hopen : Leaves ts rest' := hrest.trans hrest'
  refine (commaList_delimits (P := fun d => Inside ts d.spans)
    (fun us _ hus => fieldDecl_delimits.imp fun d hd => hd.mono (hopen.trans hus).sublist) _).bind
    fun fields rest'' _ hrest'' hfields => ?_
  refine expectMark_delimits.bind fun close _ _ _ hclose => ?_
  have hspan : Spans (l :: ts) close := (hclose.mono (hopen.trans hrest'').sublist).mono hts
  refine delimits_ok ?_
  rw [ShapeDecl.spans, List.cons_append, List.cons_append, inside_cons, inside_cons, inside_append,
    inside_flatMap, inside_flatMap]
  exact ⟨hspan.from_head.mono hsub, hname.mono (hts.trans hsub), hattrs,
    fun d hd => (hfields d hd).mono (hts.trans hsub)⟩

/-- What is over the tokens of a part is over those of the whole declaration, of which `l` is the
first. -/
theorem opDecl_delimits {isAsync : Bool} (hsub : (l :: ts).Sublist whole)
    (hattrs : ∀ a ∈ attrs, Inside whole a.spans) :
    Delimits (opDecl attrs isAsync l.span.start ts) ts fun d => Inside whole d.spans := by
  have hts : ts.Sublist (l :: ts) := List.sublist_cons_self l ts
  have hwhole : ts.Sublist whole := hts.trans hsub
  rw [opDecl]
  refine ident_delimits.bind fun name rest _ hrest hname => ?_
  refine expectMark_delimits.bind fun _ rest₁ _ hrest₁ _ => ?_
  have hopen : Leaves ts rest₁ := hrest.trans hrest₁
  refine (commaList_delimits (P := fun d => Inside ts d.spans)
    (fun us _ hus => paramDecl_delimits.imp fun d hd => hd.mono (hopen.trans hus).sublist) _).bind
    fun params rest₂ _ hrest₂ hparams => ?_
  refine expectMark_delimits.bind fun _ rest₃ _ hrest₃ _ => ?_
  refine expectMark_delimits.bind fun _ rest₄ _ hrest₄ _ => ?_
  have harrow : Leaves ts rest₄ := ((hopen.trans hrest₂).trans hrest₃).trans hrest₄
  refine typeExpr_delimits.bind fun result rest₅ _ hrest₅ hresult => ?_
  refine expectMark_delimits.bind fun _ rest₆ _ hrest₆ _ => ?_
  have hbrace : Leaves ts rest₆ := (harrow.trans hrest₅).trans hrest₆
  refine stmts_delimits.bind fun body rest₇ _ hrest₇ hbody => ?_
  refine expectMark_delimits.bind fun last _ _ _ hlast => ?_
  have hspan : Spans (l :: ts) last := (hlast.mono (hbrace.trans hrest₇).sublist).mono hts
  refine delimits_ok ?_
  rw [OpDecl.spans, List.cons_append, List.cons_append, List.cons_append, List.cons_append,
    List.cons_append, List.cons_append, inside_cons, inside_cons, inside_append, inside_append,
    inside_append, inside_flatMap, inside_flatMap, inside_flatMap]
  exact ⟨hspan.from_head.mono hsub, hname.mono hwhole,
    ⟨⟨hattrs, fun d hd => (hparams d hd).mono hwhole⟩,
      hresult.mono (harrow.sublist.trans hwhole)⟩,
    fun s hs => (hbody s hs).mono (hbrace.sublist.trans hwhole)⟩

/-- What is left begins after the first token, or with it. -/
theorem Leaves.head_sublist {tail : Tokens} (h : Leaves ts (l :: tail)) :
    ∃ k us, ts = k :: us ∧ (k :: tail).Sublist ts := by
  cases ts with
  | nil => simpa using h.suffix
  | cons k us =>
    refine ⟨k, us, rfl, List.Sublist.cons_cons k ?_⟩
    rcases List.suffix_cons_iff.mp h.suffix with heq | hsuffix
    · cases heq
      exact List.Sublist.refl _
    · exact (List.sublist_cons_self l tail).trans hsuffix.sublist

/-- A declaration starts with its first attribute, if it has any, and with its keyword if not. -/
theorem item_delimits : Delimits (item ts) ts fun i => Inside ts i.spans := by
  rw [item]
  refine attributes_delimits.bind fun attrs rest _ hrest hattrs => ?_
  cases rest with
  | nil => exact delimits_unexpected
  | cons l tail =>
    obtain ⟨k, us, rfl, hsub⟩ := hrest.head_sublist
    dsimp only
    split
    · rename_i hl
      refine Delimits.after (leaves_cons (by simp [hl])) ?_
      refine (shapeDecl_delimits hsub hattrs).bind fun d _ _ _ hd => ?_
      exact delimits_ok hd
    · rename_i hl
      refine Delimits.after (leaves_cons (by simp [hl])) ?_
      refine (opDecl_delimits hsub hattrs).bind fun d _ _ _ hd => ?_
      exact delimits_ok hd
    · rename_i hl
      refine Delimits.after (leaves_cons (by simp [hl])) ?_
      have hkeyword : Token.keyword .op ≠ .eof := nofun
      refine (expect_delimits hkeyword).bind fun _ rest' _ hrest' _ => ?_
      have hop : (k :: rest').Sublist (k :: us) := (hrest'.sublist.cons_cons k).trans hsub
      refine (opDecl_delimits hop hattrs).bind fun d _ _ _ hd => ?_
      exact delimits_ok hd
    · exact delimits_unexpected

theorem items_inside {ts : Tokens} {is : List Item} (h : items ts = .ok is) :
    ∀ i ∈ is, Inside ts i.spans := by
  rw [items] at h
  split at h
  · cases h
    exact nofun
  · cases hfirst : item ts with
    | error e =>
      rw [hfirst] at h
      cases h
    | ok first =>
      have hlt := first.short
      obtain ⟨hrest, hinside⟩ := item_delimits.ok first hfirst
      cases hmore : items first.rest with
      | error e =>
        simp only [hfirst, bind, Except.bind, hmore] at h
        cases h
      | ok more =>
        simp only [hfirst, bind, Except.bind, hmore] at h
        cases h
        have hlater := items_inside hmore
        exact List.forall_mem_cons.mpr ⟨hinside, fun i hi => (hlater i hi).mono hrest.sublist⟩
termination_by ts.length

/-- A file that is refused is refused at a token, which may be its end. -/
theorem items_error {ts : Tokens} {e : SourceError} (h : items ts = .error e)
    (hend : ∃ l ∈ ts, l.token = .eof) : ∃ l ∈ ts, e.span = l.span := by
  rw [items] at h
  split at h
  · cases h
  · cases hfirst : item ts with
    | error e' =>
      rw [hfirst] at h
      cases h
      exact item_delimits.error _ hfirst hend
    | ok first =>
      have hlt := first.short
      obtain ⟨hrest, -⟩ := item_delimits.ok first hfirst
      cases hmore : items first.rest with
      | ok more =>
        simp only [hfirst, bind, Except.bind, hmore] at h
        cases h
      | error e' =>
        simp only [hfirst, bind, Except.bind, hmore] at h
        cases h
        obtain ⟨k, hk, heof⟩ := hend
        obtain ⟨l, hl, hspan⟩ := items_error hmore ⟨k, hrest.ended k hk heof, heof⟩
        exact ⟨l, hrest.sublist.subset hl, hspan⟩
termination_by ts.length

end

/-- All spans in what a text is read into are ranges of the text. -/
theorem parseSource_points {text : String} {is : List Item} (h : parseSource text = .ok is) :
    ∀ i ∈ is, ∀ s ∈ i.spans, s.Points text.toList := by
  cases hls : tokenize text with
  | error e =>
    rw [parseSource, hls] at h
    cases h
  | ok ls =>
    have hitems : items ls = .ok is := by simpa [parseSource, hls, bind, Except.bind] using h
    obtain ⟨hpoints, horder⟩ := tokenize_points hls
    exact fun i hi s hs => (items_inside hitems i hi s hs).points hpoints horder

/-- A text that is not read is refused at a range of it. -/
theorem parseSource_error_points {text : String} {e : SourceError}
    (h : parseSource text = .error e) : e.span.Points text.toList := by
  cases hls : tokenize text with
  | error e' =>
    rw [parseSource, hls] at h
    cases h
    exact tokenize_error_points hls
  | ok ls =>
    have hitems : items ls = .error e := by simpa [parseSource, hls, bind, Except.bind] using h
    obtain ⟨hpoints, -⟩ := tokenize_points hls
    obtain ⟨ks, last, rfl, hlast, -⟩ := lexemesFrom_ends hls
    obtain ⟨l, hl, hspan⟩ := items_error hitems ⟨last, by simp, hlast⟩
    exact hspan ▸ hpoints l hl

end EndpointCompiler.Source
