import EndpointCompiler.Proofs.Source.Lists

/-! Attributes and typed names as they are written, and what they are read to. -/

namespace EndpointCompiler.Source

/-- A choice of tokens for every type that can be written. -/
def SpellsTypes (tokens : TypeRef → List Token) : Prop :=
  ∀ t, t.Writable → TypeTokens t (tokens t)

theorem exists_spellsTypes : ∃ tokens, SpellsTypes tokens := by
  have h : ∀ t : TypeRef, ∃ us, t.Writable → TypeTokens t us := by
    intro t
    by_cases ht : t.Writable
    · obtain ⟨us, hus⟩ := ht.exists_tokens
      exact ⟨us, fun _ => hus⟩
    · exact ⟨[], fun h => absurd h ht⟩
  exact ⟨fun t => (h t).choose, fun t ht => (h t).choose_spec ht⟩

inductive WrittenArg where
  | text (value : String)
  | type (t : TypeRef)

namespace WrittenArg

def source : WrittenArg → String
  | .text w => "\"" ++ escapeText w ++ "\""
  | .type t => t.text

def Scannable : WrittenArg → Prop
  | .text w => '\n' ∉ w.toList
  | .type t => t.Writable

def tokens (typeTokens : TypeRef → List Token) : WrittenArg → List Token
  | .text w => [.text w]
  | .type t => typeTokens t

/-- The argument that a written one is read to. -/
def Says : WrittenArg → AttributeArg → Prop
  | .text w, a => ∃ span, a = .text w span
  | .type t, a => ∃ e, a = .type e ∧ e.toTypeRef = t

end WrittenArg

/-- An attribute, with its arguments in parentheses if it has any. -/
structure WrittenAttribute where
  name : String
  args : List WrittenArg

namespace WrittenAttribute

def source (a : WrittenAttribute) : String :=
  "#[" ++ a.name ++
    (match a.args with
      | [] => ""
      | args => "(" ++ ", ".intercalate (args.map (·.source)) ++ ")") ++ "]"

structure Scannable (a : WrittenAttribute) : Prop where
  name : isPropertyName a.name = true
  args : ∀ x ∈ a.args, x.Scannable

def argTokens (typeTokens : TypeRef → List Token) : List WrittenArg → List Token
  | [] => []
  | x :: xs => .punct .leftParen ::
      ((x.tokens typeTokens ++ xs.flatMap fun y => .punct .comma :: y.tokens typeTokens) ++
        [.punct .rightParen])

def tokens (typeTokens : TypeRef → List Token) (a : WrittenAttribute) : List Token :=
  .punct .hash :: .punct .leftBracket :: .ident a.name ::
    (argTokens typeTokens a.args ++ [.punct .rightBracket])

structure Says (a : WrittenAttribute) (b : Attribute) : Prop where
  name : b.name.name = a.name
  args : List.Forall₂ WrittenArg.Says a.args b.args

end WrittenAttribute

section

variable {typeTokens : TypeRef → List Token} {cs : List Char} {ts rest : Tokens}

theorem WrittenArg.scans (htypes : SpellsTypes typeTokens) {x : WrittenArg} (hx : x.Scannable)
    (hcs : EndsWord cs) : Scans (x.source.toList ++ cs) (x.tokens typeTokens) cs := by
  cases x with
  | text w =>
    have hs := scans_text (r := cs) hx
    rw [String.ofList_toList, ← escapeText_toList] at hs
    simpa [WrittenArg.source, WrittenArg.tokens] using hs
  | type t => exact (htypes t hx).scans cs hcs

theorem WrittenAttribute.scans_args (htypes : SpellsTypes typeTokens) {x : WrittenArg}
    {xs : List WrittenArg} (hxs : ∀ y ∈ x :: xs, y.Scannable) (cs : List Char) :
    Scans ('(' :: ((", ".intercalate ((x :: xs).map (·.source))).toList ++ ')' :: cs))
      (argTokens typeTokens (x :: xs)) cs := by
  have hopen : Scans ('(' :: ((", ".intercalate ((x :: xs).map (·.source))).toList ++ ')' :: cs))
      [.punct .leftParen] ((", ".intercalate ((x :: xs).map (·.source))).toList ++ ')' :: cs) :=
    scans_mark (p := .leftParen) (by simp)
  have hclose : Scans (')' :: cs) [.punct .rightParen] cs :=
    scans_mark (p := .rightParen) (by simp)
  have hargs := Scans.intercalate WrittenArg.source (WrittenArg.tokens typeTokens)
    (endsWord_cons (c := ')') rfl cs) fun y hy cs hcs => y.scans htypes (hxs y hy) hcs
  exact hopen.append (hargs.append hclose)

theorem WrittenAttribute.scans (htypes : SpellsTypes typeTokens) {a : WrittenAttribute}
    (ha : a.Scannable) (cs : List Char) : Scans (a.source.toList ++ cs) (a.tokens typeTokens) cs := by
  obtain ⟨name, args⟩ := a
  have hclose : Scans (']' :: cs) [.punct .rightBracket] cs :=
    scans_mark (p := .rightBracket) (by simp)
  have hopen : ∀ ds, Scans ('#' :: '[' :: ds) [.punct .hash, .punct .leftBracket] ds := fun ds =>
    (scans_mark (p := .hash) (r := '[' :: ds) (by simp)).append
      (scans_mark (p := .leftBracket) (by simp))
  cases args with
  | nil =>
    have hname := scans_ident ha.name (endsWord_cons (c := ']') rfl cs)
    have hall := (hopen _).append (hname.append hclose)
    simpa [source, tokens, argTokens] using hall
  | cons x xs =>
    have hargs := scans_args htypes ha.args (']' :: cs)
    have hname := scans_ident ha.name (endsWord_cons (c := '(') rfl
      ((", ".intercalate ((x :: xs).map (·.source))).toList ++ ')' :: ']' :: cs))
    have hall := (hopen _).append (hname.append (hargs.append hclose))
    simpa [source, tokens] using hall

theorem reads_typeExpr_first {P : TypeExpr → Prop} (h : Reads (typeExpr ts) P rest) :
    peek ts = .punct .leftBracket ∨ ∃ n, peek ts = .ident n := by
  obtain ⟨p, hp, -⟩ := h
  cases ts with
  | nil => simp [typeExpr] at hp
  | cons l tail =>
    by_cases hl : l.token = .punct .leftBracket
    · exact .inl hl
    · rw [typeExpr, if_neg hl, typeName, ident] at hp
      cases hk : l.token with
      | ident n => exact .inr ⟨n, hk⟩
      | _ =>
        rw [hk] at hp
        simp [bind, Except.bind] at hp

theorem reads_attributeArg (htypes : SpellsTypes typeTokens) {x : WrittenArg} (hx : x.Scannable)
    (hts : Begins (x.tokens typeTokens) ts rest) (hr : EndsType (peek rest)) :
    Reads (attributeArg ts) x.Says rest := by
  cases x with
  | text w =>
    obtain ⟨l, rfl, hl⟩ := begins_singleton.mp hts
    unfold attributeArg
    simp only [hl]
    exact reads_ok ⟨_, rfl⟩
  | type t =>
    have hread := (htypes t hx).reads ts rest hts hr
    cases ts with
    | nil =>
      have hfirst := reads_typeExpr_first hread
      simp [peek] at hfirst
    | cons l tail =>
      have hfirst : l.token = .punct .leftBracket ∨ ∃ n, l.token = .ident n :=
        reads_typeExpr_first hread
      have harg : attributeArg (l :: tail) = (typeExpr (l :: tail)).map (·.map .type) := by
        unfold attributeArg
        rcases hfirst with hl | ⟨n, hl⟩ <;> simp only [hl]
      rw [harg]
      exact hread.map fun e he => ⟨e, rfl, he⟩

theorem attributeArg_notAtClose {bound : Nat} :
    NotAtClose bound .rightParen fun ts _ => attributeArg ts := by
  intro ts _ rest h hp
  dsimp only at h
  cases ts with
  | nil => simp [peek] at hp
  | cons l tail =>
    have hl : l.token = .punct .rightParen := hp
    have harg : attributeArg (l :: tail) = (typeExpr (l :: tail)).map (·.map .type) := by
      unfold attributeArg
      simp only [hl]
    obtain ⟨p, hp, -⟩ := h
    rw [harg] at hp
    cases ht : typeExpr (l :: tail) with
    | error e =>
      rw [ht] at hp
      cases hp
    | ok q =>
      have hfirst := reads_typeExpr_first (P := fun _ => True) ⟨q, ht, trivial, rfl⟩
      simp [peek, hl] at hfirst

theorem reads_attributeArgs (htypes : SpellsTypes typeTokens) {xs : List WrittenArg}
    (hxs : ∀ x ∈ xs, x.Scannable) (hts : Begins (WrittenAttribute.argTokens typeTokens xs) ts rest)
    (hr : peek rest ≠ .punct .leftParen) :
    Reads (attributeArgs ts) (List.Forall₂ WrittenArg.Says xs) rest := by
  cases xs with
  | nil =>
    obtain rfl := begins_nil.mp hts
    rw [attributeArgs, if_neg hr]
    exact reads_ok .nil
  | cons x xs =>
    have hpeek := hts.peek
    obtain ⟨l, ts, rfl, hl, hts⟩ := begins_cons.mp hts
    obtain ⟨mid, hargs, hclose⟩ := begins_append.mp hts
    obtain ⟨m, rfl, hm⟩ := begins_singleton.mp hclose
    have hends := endsType_mark hm (by decide) rest
    rw [attributeArgs, if_pos hpeek]
    refine (reads_expect hl).bind fun _ _ _ => ?_
    have hread := reads_commaList_between (R := WrittenArg.Says)
      (h := Nat.lt_succ_self ts.length) attributeArg_notAtClose
      (fun y hy ts' rest' _ hts' hr' => reads_attributeArg htypes (hxs y hy) hts' (by
        rcases hr' with hr' | hr' <;> rw [hr'] <;> simp [EndsType])) hargs hm (by decide)
    refine hread.bind fun as _ has => ?_
    refine (reads_expect hm).bind fun _ _ _ => ?_
    exact reads_ok has

/-- Written attributes are read back, one after the other up to a token that is no hash. -/
theorem reads_attributes (htypes : SpellsTypes typeTokens) {as : List WrittenAttribute}
    (has : ∀ a ∈ as, a.Scannable)
    (hts : Begins (as.flatMap (·.tokens typeTokens)) ts rest) (hr : peek rest ≠ .punct .hash) :
    Reads (attributes ts) (List.Forall₂ WrittenAttribute.Says as) rest := by
  induction as generalizing ts with
  | nil =>
    obtain rfl := begins_nil.mp hts
    unfold attributes
    split
    · exact reads_ok .nil
    · rename_i l tail
      have hl : l.token ≠ .punct .hash := hr
      rw [if_neg hl]
      exact reads_ok .nil
  | cons a as ih =>
    rw [List.flatMap_cons] at hts
    obtain ⟨mid, ha, hmore⟩ := begins_append.mp hts
    obtain ⟨l, ts, rfl, hl, ha⟩ := begins_cons.mp ha
    obtain ⟨k, ts, rfl, hk, ha⟩ := begins_cons.mp ha
    obtain ⟨n, ts, rfl, hn, ha⟩ := begins_cons.mp ha
    obtain ⟨last, hargs, hclose⟩ := begins_append.mp ha
    obtain ⟨m, rfl, hm⟩ := begins_singleton.mp hclose
    -- An attribute without arguments is closed right after its name.
    have hparen : peek (m :: mid) ≠ .punct .leftParen := by
      have hp : peek (m :: mid) = .punct .rightBracket := hm
      simp [hp]
    have hmore := ih (fun b hb => has b (List.mem_cons_of_mem _ hb)) hmore
    rw [attributes, if_pos hl]
    refine (reads_expect hk).bind fun _ _ _ => ?_
    refine (reads_ident hn).bind fun name _ hname => ?_
    refine (reads_attributeArgs htypes (has a (by simp)).args hargs hparen).bind fun args _ h => ?_
    refine (reads_expect hm).bind fun _ _ _ => ?_
    refine hmore.bind fun more _ hmore => ?_
    exact reads_ok (.cons ⟨hname, h⟩ hmore)

/-- A name with its type. -/
def typedTokens (typeTokens : TypeRef → List Token) (name : String) (t : TypeRef) : List Token :=
  .ident name :: .punct .colon :: typeTokens t

theorem scans_typed (htypes : SpellsTypes typeTokens) {name : String} {t : TypeRef}
    (hname : isPropertyName name = true) (ht : t.Writable) (hcs : EndsWord cs) :
    Scans (name.toList ++ ':' :: ' ' :: (t.text.toList ++ cs)) (typedTokens typeTokens name t) cs := by
  have htype := (htypes t ht).scans cs hcs
  have hspace : Scans (' ' :: (t.text.toList ++ cs)) [] (t.text.toList ++ cs) := scans_space rfl
  have hcolon : Scans (':' :: ' ' :: (t.text.toList ++ cs)) [.punct .colon]
      (' ' :: (t.text.toList ++ cs)) := scans_mark (p := .colon) (by simp)
  exact (scans_ident hname (endsWord_cons rfl _)).append (hcolon.append (hspace.append htype))

theorem reads_typedName (htypes : SpellsTypes typeTokens) {name : String} {t : TypeRef}
    (ht : t.Writable) (hts : Begins (typedTokens typeTokens name t) ts rest)
    (hr : EndsType (peek rest)) :
    Reads (typedName ts) (fun v => v.1.name = name ∧ v.2.toTypeRef = t) rest := by
  obtain ⟨l, ts, rfl, hl, hts⟩ := begins_cons.mp hts
  obtain ⟨k, ts, rfl, hk, hts⟩ := begins_cons.mp hts
  rw [typedName]
  refine (reads_ident hl).bind fun i _ hi => ?_
  refine (reads_expect hk).bind fun _ _ _ => ?_
  refine ((htypes t ht).reads ts rest hts hr).bind fun e _ he => ?_
  exact reads_ok ⟨hi, he⟩

end

end EndpointCompiler.Source
