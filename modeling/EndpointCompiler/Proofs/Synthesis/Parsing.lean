import EndpointCompiler.Proofs.Synthesis.Text

/-! Generated sources are read back: the text of a shape or an operation is one declaration, which
says what was written. -/

namespace EndpointCompiler

open Source

section

variable {typeTokens : TypeRef → List Token} {ts rest : Tokens}

/-- A text whose tokens are those of one declaration. -/
theorem parseSource_single {text : String} {t : Token} {us : List Token} {P : Item → Prop}
    (hscans : Scans text.toList (t :: us) []) (ht : t ≠ .eof)
    (hreads : ∀ ts rest, Begins (t :: us) ts rest → Reads (item ts) P rest) :
    ∃ i, parseSource text = .ok [i] ∧ P i := by
  obtain ⟨ls, hls, htokens⟩ := hscans.tokenize
  obtain ⟨ks, eof, rfl, hks, heof⟩ := List.map_eq_append_iff.mp htokens
  obtain ⟨l, rfl, hl⟩ := List.map_eq_singleton_iff.mp heof
  have hbegins : Begins (t :: us) (ks ++ [l]) [l] := ⟨ks, hks, rfl⟩
  obtain ⟨⟨i, _, hs⟩, hitem, hi, rfl⟩ := hreads _ _ hbegins
  have hlast : peek [l] = .eof := hl
  have hend : items [l] = .ok [] := by rw [items, if_pos hlast]
  have hfirst : peek (ks ++ [l]) ≠ .eof := hbegins.peek ▸ ht
  refine ⟨i, ?_, hi⟩
  simp only [parseSource, hls, bind, Except.bind]
  rw [items, if_neg hfirst]
  simp only [hitem, hend, bind, Except.bind, pure, Except.pure]

theorem parseSource_unscannable {text : String} (h : Unscannable text.toList) :
    ∃ e, parseSource text = .error e := by
  obtain ⟨e, he⟩ := h 0
  exact ⟨e, by simp only [parseSource, tokenize, he, bind, Except.bind]⟩

theorem WrittenShape.parse {s : WrittenShape} (hs : s.Scannable) :
    ∃ d, parseSource s.source = .ok [.shape d] ∧ s.Says d := by
  obtain ⟨typeTokens, htypes⟩ := exists_spellsTypes
  obtain ⟨_, hparse, d, rfl, hd⟩ := parseSource_single (WrittenShape.scans htypes hs) (by simp)
    fun ts rest hts => WrittenShape.reads htypes hs hts
  exact ⟨d, hparse, hd⟩

namespace WrittenOperation

theorem reads_params (htypes : SpellsTypes typeTokens) {ps : List WrittenParam}
    (hps : ∀ p ∈ ps, p.Scannable) {bound : Nat} {h : ts.length < bound}
    (hts : Begins (paramTokens typeTokens ps) ts rest) (hr : peek rest = .punct .rightParen) :
    Reads (commaList bound .rightParen (fun ts _ => paramDecl ts) ts h)
      (List.Forall₂ WrittenParam.Says ps) rest := by
  cases ps with
  | nil =>
    obtain rfl := begins_nil.mp hts
    refine (reads_commaList_nil hr).imp ?_
    rintro _ rfl
    exact .nil
  | cons p ps =>
    refine reads_commaList_between paramDecl_notAtClose (fun q hq ts rest _ hts hr => ?_) hts hr
      (by decide)
    refine WrittenParam.reads htypes (hps q hq) hts ?_
    rcases hr with hr | hr
    · simp [hr, EndsType]
    · simp [hr, EndsType]

theorem reads_body (htypes : SpellsTypes typeTokens) {o : WrittenOperation} (ho : o.Scannable)
    (hts : Begins (o.bodyTokens typeTokens) ts rest) (hr : peek rest = .punct .rightBrace) :
    Reads (stmts ts) o.SaysBody rest := by
  have hfirst : peek ts ≠ .punct .rightBrace := by
    rw [hts.peek]
    simp
  obtain ⟨l, ts, rfl, hl, hts⟩ := begins_cons.mp hts
  obtain ⟨v, ts, rfl, hv, hts⟩ := begins_cons.mp hts
  obtain ⟨q, ts, rfl, hq, hts⟩ := begins_cons.mp hts
  obtain ⟨mid, hnew, hts⟩ := begins_append.mp hts
  obtain ⟨c, mid, rfl, hc, hts⟩ := begins_cons.mp hts
  obtain ⟨r, mid, rfl, hresult, hts⟩ := begins_cons.mp hts
  obtain ⟨last, hcall, hlast⟩ := begins_append.mp hts
  obtain ⟨d, rfl, hd⟩ := begins_singleton.mp hlast
  -- Two statements: the request is bound, and what the call gives is returned.
  have hbind : Reads (stmt (l :: v :: q :: ts)) (fun s => ∃ x type inits span span',
      s = .bind x (.new type inits span) span' ∧ x.name = o.requestVar ∧
        type.toTypeRef = o.request ∧ List.Forall₂ Assignment.Says o.assignments inits)
      (r :: mid) := by
    unfold stmt
    simp only [hl]
    refine (reads_ident hv).bind fun x _ hx => ?_
    refine (reads_expect hq).bind fun _ _ _ => ?_
    refine (reads_new htypes ho.request hnew).bind ?_
    rintro _ _ ⟨type, inits, span, rfl, htype, hinits⟩
    refine (reads_expect hc).bind fun _ _ _ => ?_
    exact reads_ok ⟨x, type, inits, _, _, rfl, hx, htype, hinits⟩
  have hreturn : Reads (stmt (r :: mid)) (fun s => ∃ value span, s = .result value span ∧
      o.call.Says value) rest := by
    unfold stmt
    simp only [hresult]
    refine (WrittenCall.reads htypes ho.call hcall).bind fun value _ hvalue => ?_
    refine (reads_expect hd).bind fun _ _ _ => ?_
    exact reads_ok ⟨value, _, rfl, hvalue⟩
  have hnext : peek (r :: mid) ≠ .punct .rightBrace := by simp [peek, hresult]
  rw [stmts, if_neg hfirst]
  refine hbind.bind ?_
  rintro _ _ ⟨x, type, inits, span, span', rfl, hx, htype, hinits⟩
  have hmore : Reads (stmts (r :: mid)) (fun body => ∃ value span, body = [.result value span] ∧
      o.call.Says value) rest := by
    rw [stmts, if_neg hnext]
    refine hreturn.bind ?_
    rintro _ _ ⟨value, span, rfl, hvalue⟩
    have hend : Reads (stmts rest) (· = []) rest := by
      rw [stmts, if_pos hr]
      exact reads_ok rfl
    refine hend.bind ?_
    rintro _ _ rfl
    exact reads_ok ⟨value, span, rfl, hvalue⟩
  refine hmore.bind ?_
  rintro _ _ ⟨value, span'', rfl, hvalue⟩
  exact reads_ok ⟨x, type, inits, span, span', value, span'', rfl, hx, htype, hinits, hvalue⟩

/-- What is read of an operation after its keyword. -/
structure SaysRest (o : WrittenOperation) (attrs : List Attribute) (isAsync : Bool) (d : OpDecl) :
    Prop where
  attributes : d.attributes = attrs
  isAsync : d.isAsync = isAsync
  name : d.name.name = o.name
  params : List.Forall₂ WrittenParam.Says o.params d.params
  result : d.result.toTypeRef = o.response
  body : o.SaysBody d.body

theorem reads_opDecl (htypes : SpellsTypes typeTokens) {o : WrittenOperation} (ho : o.Scannable)
    (hps : ∀ p ∈ o.params, p.Scannable) (attrs : List Attribute) (isAsync : Bool) (start : Nat)
    (hts : Begins (.ident o.name :: .punct .leftParen ::
      (paramTokens typeTokens o.params ++ o.tailTokens typeTokens)) ts rest) :
    Reads (opDecl attrs isAsync start ts) (o.SaysRest attrs isAsync) rest := by
  obtain ⟨n, ts, rfl, hn, hts⟩ := begins_cons.mp hts
  obtain ⟨p, ts, rfl, hp, hts⟩ := begins_cons.mp hts
  obtain ⟨mid, hparams, hts⟩ := begins_append.mp hts
  obtain ⟨r, mid, rfl, hr, hts⟩ := begins_cons.mp hts
  obtain ⟨a, mid, rfl, ha, hts⟩ := begins_cons.mp hts
  obtain ⟨next, hresult, hts⟩ := begins_append.mp hts
  obtain ⟨b, next, rfl, hb, hts⟩ := begins_cons.mp hts
  obtain ⟨last, hbody, hlast⟩ := begins_append.mp hts
  obtain ⟨c, rfl, hc⟩ := begins_singleton.mp hlast
  rw [opDecl]
  refine (reads_ident hn).bind fun name _ hname => ?_
  refine (reads_expect hp).bind fun _ _ _ => ?_
  refine (reads_params htypes hps hparams hr).bind fun params _ hparams => ?_
  refine (reads_expect hr).bind fun _ _ _ => ?_
  refine (reads_expect ha).bind fun _ _ _ => ?_
  have hends := endsType_mark hb (by decide) next
  refine ((htypes o.response ho.response).reads _ _ hresult hends).bind fun result _ hresult => ?_
  refine (reads_expect hb).bind fun _ _ _ => ?_
  refine (reads_body htypes ho hbody hc).bind fun body _ hbody => ?_
  refine (reads_expect hc).bind fun _ _ _ => ?_
  exact reads_ok ⟨rfl, rfl, hname, hparams, hresult, hbody⟩

theorem reads (htypes : SpellsTypes typeTokens) {o : WrittenOperation} (ho : o.Scannable)
    (hps : ∀ p ∈ o.params, p.Scannable) (hts : Begins (o.tokens typeTokens) ts rest) :
    Reads (item ts) (fun i => ∃ d, i = .op d ∧ o.Says d) rest := by
  rw [tokens, headTokens, List.append_assoc, List.append_assoc] at hts
  obtain ⟨mid, hattrs, hts⟩ := begins_append.mp hts
  have hsays : ∀ {attrs d}, List.Forall₂ WrittenAttribute.Says o.attributes attrs →
      o.SaysRest attrs o.response.isAsync d → o.Says d := fun ha hd =>
    ⟨hd.attributes ▸ ha, hd.isAsync, hd.name, hd.params, hd.result, hd.body⟩
  rw [item]
  by_cases h : o.response.isAsync = true
  · rw [if_pos h] at hts
    obtain ⟨l, mid, rfl, hl, hts⟩ := begins_cons.mp hts
    obtain ⟨k, mid, rfl, hk, hts⟩ := begins_cons.mp hts
    have hread := reads_attributes htypes ho.attributes hattrs (by simp [peek, hl])
    refine hread.bind fun attrs _ ha => ?_
    simp only [hl]
    refine (reads_expect hk).bind fun _ _ _ => ?_
    refine (reads_opDecl htypes ho hps attrs true _ hts).bind fun d _ hd => ?_
    exact reads_ok ⟨d, rfl, hsays ha (h ▸ hd)⟩
  · rw [if_neg h] at hts
    obtain ⟨k, mid, rfl, hk, hts⟩ := begins_cons.mp hts
    have hread := reads_attributes htypes ho.attributes hattrs (by simp [peek, hk])
    refine hread.bind fun attrs _ ha => ?_
    simp only [hk]
    refine (reads_opDecl htypes ho hps attrs false _ hts).bind fun d _ hd => ?_
    exact reads_ok ⟨d, rfl, hsays ha (Bool.eq_false_iff.mpr h ▸ hd)⟩

/-- An operation without line breaks in its names on the wire is read back. -/
theorem parse {o : WrittenOperation} (ho : o.Scannable)
    (hps : ∀ p ∈ o.params, '\n' ∉ p.wireName.toList) :
    ∃ d, parseSource o.source = .ok [.op d] ∧ o.Says d := by
  obtain ⟨typeTokens, htypes⟩ := exists_spellsTypes
  have hps' : ∀ p ∈ o.params, p.Scannable := fun p hp =>
    ⟨hps p hp, (ho.params p hp).1, (ho.params p hp).2⟩
  obtain ⟨_, hparse, d, rfl, hd⟩ := parseSource_single (scans htypes ho hps) (by simp)
    fun ts rest hts => reads htypes ho hps' hts
  exact ⟨d, hparse, hd⟩

end WrittenOperation

end

end EndpointCompiler
