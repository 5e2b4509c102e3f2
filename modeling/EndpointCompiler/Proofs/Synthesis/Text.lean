import EndpointCompiler.Proofs.Source.Bodies

/-! The source texts of generated declarations. A text is read to one declaration, which says what
was written; a line break in a name on the wire makes it unreadable. -/

namespace EndpointCompiler

open Source

structure Field.Says (f : Field) (d : FieldDecl) : Prop where
  name : d.name.name = f.name
  type : d.type.toTypeRef = f.type

structure Field.Scannable (f : Field) : Prop where
  name : isPropertyName f.name = true
  type : f.type.Writable

structure WrittenShape.Says (s : WrittenShape) (d : ShapeDecl) : Prop where
  attributes : d.attributes = []
  name : d.name.name = s.name
  fields : List.Forall₂ Field.Says s.fields d.fields

structure WrittenShape.Scannable (s : WrittenShape) : Prop where
  name : isPropertyName s.name = true
  fields : ∀ f ∈ s.fields, f.Scannable

/-- The attribute that says where a parameter comes from. -/
def WrittenParam.sourceAttribute (p : WrittenParam) : WrittenAttribute :=
  ⟨p.source.keyword, if p.wireName = p.name then [] else [.text p.wireName]⟩

structure WrittenParam.Says (p : WrittenParam) (d : ParamDecl) : Prop where
  attributes : List.Forall₂ WrittenAttribute.Says [p.sourceAttribute] d.attributes
  name : d.name.name = p.name
  type : d.type.toTypeRef = p.type

structure WrittenParam.Scannable (p : WrittenParam) : Prop where
  wireName : '\n' ∉ p.wireName.toList
  name : isPropertyName p.name = true
  type : p.type.Writable

theorem TypeRef.Writable.unwrapAsync {t : TypeRef} (ht : t.Writable) : t.unwrapAsync.Writable := by
  cases t with
  | async t => exact ht
  | _ => exact ht

namespace WrittenOperation

def attributes (o : WrittenOperation) : List WrittenAttribute :=
  [⟨"http", [.type (.named none o.method.token []), .text o.route]⟩,
    ⟨"produces", [.type o.response.unwrapAsync]⟩]

def call (o : WrittenOperation) : WrittenCall :=
  ⟨o.response.isAsync, o.request, o.response.unwrapAsync, o.requestVar⟩

/-- The body of a declaration builds the request and hands it on. -/
def SaysBody (o : WrittenOperation) (body : List Stmt) : Prop :=
  ∃ x type inits span span' value span'',
    body = [.bind x (.new type inits span) span', .result value span''] ∧
      x.name = o.requestVar ∧ type.toTypeRef = o.request ∧
      List.Forall₂ Assignment.Says o.assignments inits ∧ o.call.Says value

structure Says (o : WrittenOperation) (d : OpDecl) : Prop where
  attributes : List.Forall₂ WrittenAttribute.Says o.attributes d.attributes
  isAsync : d.isAsync = o.response.isAsync
  name : d.name.name = o.name
  params : List.Forall₂ WrittenParam.Says o.params d.params
  result : d.result.toTypeRef = o.response
  body : o.SaysBody d.body

/-- What can be read back, but for line breaks in the names on the wire. -/
structure Scannable (o : WrittenOperation) : Prop where
  name : isPropertyName o.name = true
  method : isPropertyName o.method.token = true
  route : '\n' ∉ o.route.toList
  params : ∀ p ∈ o.params, isPropertyName p.name = true ∧ p.type.Writable
  request : o.request.Writable
  response : o.response.Writable
  requestVar : isPropertyName o.requestVar = true
  assignments : ∀ a ∈ o.assignments, a.Scannable

theorem Scannable.call {o : WrittenOperation} (ho : o.Scannable) : o.call.Scannable :=
  ⟨ho.request, ho.response.unwrapAsync, ho.requestVar⟩

end WrittenOperation

section

variable {typeTokens : TypeRef → List Token} {cs : List Char} {ts rest : Tokens}

def WrittenShape.tokens (typeTokens : TypeRef → List Token) (s : WrittenShape) : List Token :=
  .keyword .shape :: .ident s.name :: .punct .leftBrace ::
    (s.fields.flatMap (fun f => typedTokens typeTokens f.name f.type ++ [.punct .comma]) ++
      [.punct .rightBrace])

theorem WrittenShape.source_toList (s : WrittenShape) :
    s.source.toList = 's' :: 'h' :: 'a' :: 'p' :: 'e' :: ' ' :: (s.name.toList ++ ' ' :: '\x7b' ::
      (s.fields.flatMap (fun f => '\n' :: ' ' :: ' ' :: ' ' :: ' ' ::
        (f.name.toList ++ ':' :: ' ' :: (f.type.text.toList ++ [',']))) ++ ['\n', '\x7d', '\n'])) := by
  simp [source, String.toList_join, List.flatMap_map]

theorem scans_spaces {w : List Char} (hw : w.all isWhiteSpace = true) (cs : List Char) :
    Scans (w ++ cs) [] cs := by
  induction w with
  | nil => exact .done cs
  | cons c w ih =>
    rw [List.all_cons, Bool.and_eq_true] at hw
    have hc : Scans (c :: (w ++ cs)) [] (w ++ cs) := scans_space hw.1
    exact hc.append (ih hw.2)

theorem Field.scans (htypes : SpellsTypes typeTokens) {f : Field} (hf : f.Scannable)
    (cs : List Char) : Scans (('\n' :: ' ' :: ' ' :: ' ' :: ' ' ::
      (f.name.toList ++ ':' :: ' ' :: (f.type.text.toList ++ [',']))) ++ cs)
      (typedTokens typeTokens f.name f.type ++ [.punct .comma]) cs := by
  have hcomma : Scans (',' :: cs) [.punct .comma] cs := scans_mark (p := .comma) (by simp)
  have htyped := scans_typed htypes hf.name hf.type (endsWord_cons (c := ',') rfl cs)
  have hall := (scans_spaces (w := ['\n', ' ', ' ', ' ', ' ']) (by decide) _).append
    (htyped.append hcomma)
  simpa using hall

theorem WrittenShape.scans (htypes : SpellsTypes typeTokens) {s : WrittenShape}
    (hs : s.Scannable) : Scans s.source.toList (s.tokens typeTokens) [] := by
  have hshape : ∀ ds, Scans ('s' :: 'h' :: 'a' :: 'p' :: 'e' :: ' ' :: ds) [.keyword .shape] ds :=
    fun ds => (scans_word (w := ['s', 'h', 'a', 'p', 'e']) (by decide)
      (endsWord_cons (c := ' ') rfl ds)).append (scans_space rfl)
  have hopen : ∀ ds, Scans (' ' :: '\x7b' :: ds) [.punct .leftBrace] ds := fun ds =>
    (scans_space (c := ' ') rfl).append (scans_mark (p := .leftBrace) (by simp))
  have hname : ∀ ds, Scans (s.name.toList ++ ' ' :: ds) [.ident s.name] (' ' :: ds) :=
    fun ds => scans_ident hs.name (endsWord_cons rfl ds)
  have hclose : Scans ['\n', '\x7d', '\n'] [.punct .rightBrace] [] :=
    (scans_space (c := '\n') rfl).append ((scans_mark (p := .rightBrace) (by simp)).append
      (scans_space (c := '\n') rfl))
  have hfields := Scans.flatMap _ _ (fun f hf => Field.scans htypes (hs.fields f hf))
    ['\n', '\x7d', '\n']
  rw [s.source_toList]
  exact (hshape _).append ((hname _).append ((hopen _).append (hfields.append hclose)))

theorem fieldDecl_notAtClose {bound : Nat} {p : Punct} :
    NotAtClose bound p fun ts _ => fieldDecl ts := by
  refine notAtClose_of_ident fun ts _ q hq => ?_
  cases hi : ident ts with
  | ok i => exact ⟨i, rfl⟩
  | error e =>
    rw [fieldDecl, typedName, hi] at hq
    cases hq

theorem WrittenShape.reads (htypes : SpellsTypes typeTokens) {s : WrittenShape}
    (hs : s.Scannable) (hts : Begins (s.tokens typeTokens) ts rest) :
    Reads (item ts) (fun i => ∃ d, i = .shape d ∧ s.Says d) rest := by
  obtain ⟨l, ts, rfl, hl, hts⟩ := begins_cons.mp hts
  obtain ⟨n, ts, rfl, hn, hts⟩ := begins_cons.mp hts
  obtain ⟨k, ts, rfl, hk, hts⟩ := begins_cons.mp hts
  obtain ⟨last, hfields, hlast⟩ := begins_append.mp hts
  obtain ⟨m, rfl, hm⟩ := begins_singleton.mp hlast
  have hattrs : Reads (attributes (l :: n :: k :: ts)) (List.Forall₂ WrittenAttribute.Says [])
      (l :: n :: k :: ts) :=
    reads_attributes htypes (by simp) (begins_nil.mpr rfl) (by simp [peek, hl])
  have hread := reads_commaList_trailing (R := Field.Says) (h := Nat.lt_succ_self ts.length)
    fieldDecl_notAtClose (fun f hf ts rest _ hts hr =>
      (reads_typedName htypes (hs.fields f hf).type hts (by simp [hr, EndsType])).map
        fun v hv => ⟨hv.1, hv.2⟩) hfields hm
  rw [item]
  refine hattrs.bind fun as _ has => ?_
  simp only [hl]
  have hdecl : ∀ start, Reads (shapeDecl as start (n :: k :: ts)) s.Says rest := by
    intro start
    rw [shapeDecl]
    refine (reads_ident hn).bind fun name _ hname => ?_
    refine (reads_expect hk).bind fun _ _ _ => ?_
    refine hread.bind fun fields _ hfields => ?_
    refine (reads_expect hm).bind fun _ _ _ => ?_
    exact reads_ok ⟨List.forall₂_nil_left_iff.mp has, hname, hfields⟩
  refine (hdecl _).bind fun d _ hd => ?_
  exact reads_ok ⟨d, rfl, hd⟩

def WrittenParam.tokens (typeTokens : TypeRef → List Token) (p : WrittenParam) : List Token :=
  p.sourceAttribute.tokens typeTokens ++ typedTokens typeTokens p.name p.type

theorem WrittenParam.text_toList (p : WrittenParam) :
    p.text.toList =
      p.sourceAttribute.source.toList ++ ' ' :: (p.name.toList ++ ':' :: ' ' :: p.type.text.toList) := by
  by_cases h : p.wireName = p.name
  · simp [text, sourceAttribute, WrittenAttribute.source, h]
  · simp [text, sourceAttribute, WrittenAttribute.source, WrittenArg.source, h]

theorem ParamSource.isPropertyName_keyword (s : ParamSource) : isPropertyName s.keyword = true := by
  cases s <;> decide

theorem WrittenParam.Scannable.sourceAttribute {p : WrittenParam} (hp : p.Scannable) :
    p.sourceAttribute.Scannable := by
  refine ⟨p.source.isPropertyName_keyword, ?_⟩
  by_cases h : p.wireName = p.name
  · simp [WrittenParam.sourceAttribute, h]
  · simpa [WrittenParam.sourceAttribute, h, WrittenArg.Scannable] using hp.wireName

theorem WrittenParam.scans (htypes : SpellsTypes typeTokens) {p : WrittenParam} (hp : p.Scannable)
    (hcs : EndsWord cs) : Scans (p.text.toList ++ cs) (p.tokens typeTokens) cs := by
  have hattribute := WrittenAttribute.scans htypes hp.sourceAttribute
  have hspace : ∀ ds, Scans (' ' :: ds) [] ds := fun ds => scans_space rfl
  have htyped := scans_typed htypes hp.name hp.type hcs
  have hall := (hattribute _).append ((hspace _).append htyped)
  rw [p.text_toList]
  simpa [tokens] using hall

theorem WrittenParam.reads (htypes : SpellsTypes typeTokens) {p : WrittenParam} (hp : p.Scannable)
    (hts : Begins (p.tokens typeTokens) ts rest) (hr : EndsType (peek rest)) :
    Reads (paramDecl ts) p.Says rest := by
  obtain ⟨mid, hattr, htyped⟩ := begins_append.mp hts
  have hhash : peek mid ≠ .punct .hash := by
    rw [htyped.peek]
    simp
  have hattrs := reads_attributes htypes (List.forall_mem_singleton.mpr hp.sourceAttribute)
    (by simpa using hattr) hhash
  rw [paramDecl]
  refine hattrs.bind fun as _ has => ?_
  refine (reads_typedName htypes hp.type htyped hr).bind fun v _ hv => ?_
  exact reads_ok ⟨has, hv.1, hv.2⟩

theorem paramDecl_notAtClose {bound : Nat} :
    NotAtClose bound .rightParen fun ts _ => paramDecl ts := by
  intro ts _ rest h hp
  obtain ⟨q, hq, -⟩ := h
  cases ts with
  | nil => simp [peek] at hp
  | cons l tail =>
    have hl : l.token = .punct .rightParen := hp
    have hattrs : attributes (l :: tail) = .ok (.none [] (l :: tail)) := by
      rw [attributes, if_neg (by simp [hl])]
    dsimp only at hq
    simp [paramDecl, hattrs, Parsed.none, typedName, ident, hl, bind, Except.bind] at hq

namespace WrittenOperation

/-- The text of an operation up to its parameters. -/
def headText (o : WrittenOperation) : String :=
  "#[http(" ++ o.method.token ++ ", \"" ++ escapeText o.route ++ "\")]\n" ++
    "#[produces(" ++ o.response.unwrapAsync.text ++ ")]\n" ++
    (if o.response.isAsync then "async " else "") ++ "op " ++ o.name ++ "("

def paramText (o : WrittenOperation) : String :=
  ", ".intercalate (o.params.map (·.text))

def bodyText (o : WrittenOperation) : String :=
  "    let " ++ o.requestVar ++ " = new " ++ o.request.text ++ " \x7b" ++
    String.join (o.assignments.map (·.text)) ++ "\n    \x7d;\n" ++
    "    return " ++ (if o.response.isAsync then "await process_async" else "process") ++ "::<" ++
    o.request.text ++ ", " ++ o.response.unwrapAsync.text ++ ">(" ++ o.requestVar ++ ");\n\x7d\n"

theorem source_eq (o : WrittenOperation) :
    o.source =
      o.headText ++ (o.paramText ++ (") -> " ++ o.response.text ++ " \x7b\n" ++ o.bodyText)) := by
  unfold source
  dsimp only
  unfold headText paramText bodyText
  simp only [String.append_assoc]

theorem headText_toList (o : WrittenOperation) :
    o.headText.toList = o.attributes.flatMap (fun a => a.source.toList ++ ['\n']) ++
      ((if o.response.isAsync then ['a', 's', 'y', 'n', 'c', ' '] else []) ++
        ('o' :: 'p' :: ' ' :: (o.name.toList ++ ['(']))) := by
  unfold headText
  simp only [String.toList_append, attributes, List.flatMap_cons, List.flatMap_nil,
    WrittenAttribute.source, WrittenArg.source]
  by_cases h : o.response.isAsync = true
  · simp [TypeRef.text, h]
  · simp [TypeRef.text, h]

theorem bodyText_toList (o : WrittenOperation) :
    o.bodyText.toList = ' ' :: ' ' :: ' ' :: ' ' :: 'l' :: 'e' :: 't' :: ' ' ::
      (o.requestVar.toList ++ ' ' :: '=' :: ' ' :: 'n' :: 'e' :: 'w' :: ' ' ::
        (o.request.text.toList ++ ' ' :: '\x7b' ::
          (o.assignments.flatMap (·.text.toList) ++
            '\n' :: ' ' :: ' ' :: ' ' :: ' ' :: '\x7d' :: ';' ::
            '\n' :: ' ' :: ' ' :: ' ' :: ' ' :: 'r' :: 'e' :: 't' :: 'u' :: 'r' :: 'n' :: ' ' ::
              (o.call.source.toList ++ [';', '\n', '\x7d', '\n'])))) := by
  unfold bodyText
  simp only [call, WrittenCall.source, WrittenCall.function, String.toList_append,
    String.toList_join, List.flatMap_map]
  by_cases h : o.response.isAsync = true
  · simp [h]
  · simp [h]

def headTokens (typeTokens : TypeRef → List Token) (o : WrittenOperation) : List Token :=
  o.attributes.flatMap (·.tokens typeTokens) ++
    ((if o.response.isAsync then [.keyword .async] else []) ++
      [.keyword .op, .ident o.name, .punct .leftParen])

def paramTokens (typeTokens : TypeRef → List Token) : List WrittenParam → List Token
  | [] => []
  | p :: ps => p.tokens typeTokens ++ ps.flatMap fun q => .punct .comma :: q.tokens typeTokens

def bodyTokens (typeTokens : TypeRef → List Token) (o : WrittenOperation) : List Token :=
  .keyword .bind :: .ident o.requestVar :: .punct .equals ::
    ((.keyword .new :: (typeTokens o.request ++ .punct .leftBrace ::
      (o.assignments.flatMap (fun a => a.tokens ++ [.punct .comma]) ++ [.punct .rightBrace]))) ++
    (.punct .semicolon :: .keyword .result :: (o.call.tokens typeTokens ++ [.punct .semicolon])))

def tailTokens (typeTokens : TypeRef → List Token) (o : WrittenOperation) : List Token :=
  .punct .rightParen :: .punct .arrow :: (typeTokens o.response ++ .punct .leftBrace ::
    (o.bodyTokens typeTokens ++ [.punct .rightBrace]))

/-- What can be read back of a head alone. -/
theorem Scannable.attributes {o : WrittenOperation} (ho : o.Scannable) :
    ∀ a ∈ o.attributes, a.Scannable := by
  intro a ha
  simp only [WrittenOperation.attributes, List.mem_cons, List.not_mem_nil, or_false] at ha
  rcases ha with rfl | rfl
  · have hhttp : isPropertyName "http" = true := by decide
    refine ⟨hhttp, fun x hx => ?_⟩
    simp only [List.mem_cons, List.not_mem_nil, or_false] at hx
    rcases hx with rfl | rfl
    · exact ⟨by simp, ho.method, trivial, by simp⟩
    · exact ho.route
  · have hproduces : isPropertyName "produces" = true := by decide
    refine ⟨hproduces, fun x hx => ?_⟩
    obtain rfl := List.mem_singleton.mp hx
    exact ho.response.unwrapAsync

theorem scans_head (htypes : SpellsTypes typeTokens) {o : WrittenOperation} (ho : o.Scannable) :
    Scans (o.headText.toList ++ cs) (o.headTokens typeTokens) cs := by
  have hattributes : ∀ ds, Scans (o.attributes.flatMap (fun a => a.source.toList ++ ['\n']) ++ ds)
      (o.attributes.flatMap (·.tokens typeTokens)) ds := by
    refine Scans.flatMap _ _ fun a ha ds => ?_
    have hbreak : Scans ('\n' :: ds) [] ds := scans_space rfl
    have hall := (WrittenAttribute.scans htypes (ho.attributes a ha) _).append hbreak
    simpa using hall
  have hasync : ∀ ds, Scans ((if o.response.isAsync then ['a', 's', 'y', 'n', 'c', ' '] else []) ++ ds)
      (if o.response.isAsync then [.keyword .async] else []) ds := by
    intro ds
    by_cases h : o.response.isAsync = true
    · rw [if_pos h, if_pos h]
      exact (scans_word (w := ['a', 's', 'y', 'n', 'c']) (by decide)
        (endsWord_cons (c := ' ') rfl ds)).append (scans_space rfl)
    · rw [if_neg h, if_neg h]
      exact .done ds
  have hop : ∀ ds, Scans ('o' :: 'p' :: ' ' :: ds) [.keyword .op] ds := fun ds =>
    (scans_word (w := ['o', 'p']) (by decide) (endsWord_cons (c := ' ') rfl ds)).append
      (scans_space rfl)
  have hname := scans_ident ho.name (endsWord_cons (c := '(') rfl cs)
  have hopen : Scans ('(' :: cs) [.punct .leftParen] cs := scans_mark (p := .leftParen) (by simp)
  have hall := (hattributes _).append ((hasync _).append ((hop _).append (hname.append hopen)))
  rw [headText_toList]
  simpa [headTokens] using hall

theorem scans_params (htypes : SpellsTypes typeTokens) {ps : List WrittenParam}
    (hps : ∀ p ∈ ps, p.Scannable) (hcs : EndsWord cs) :
    Scans ((", ".intercalate (ps.map (·.text))).toList ++ cs) (paramTokens typeTokens ps) cs := by
  cases ps with
  | nil => exact .done cs
  | cons p ps =>
    exact Scans.intercalate _ _ hcs fun q hq ds hds => WrittenParam.scans htypes (hps q hq) hds

theorem scans_body (htypes : SpellsTypes typeTokens) {o : WrittenOperation} (ho : o.Scannable) :
    Scans o.bodyText.toList (o.bodyTokens typeTokens ++ [.punct .rightBrace]) [] := by
  have hlet : ∀ ds, Scans (' ' :: ' ' :: ' ' :: ' ' :: 'l' :: 'e' :: 't' :: ' ' :: ds)
      [.keyword .bind] ds := fun ds =>
    (scans_spaces (w := [' ', ' ', ' ', ' ']) (by decide) _).append
      ((scans_word (w := ['l', 'e', 't']) (by decide) (endsWord_cons (c := ' ') rfl ds)).append
        (scans_space rfl))
  have hnew : ∀ ds, Scans (' ' :: '=' :: ' ' :: 'n' :: 'e' :: 'w' :: ' ' :: ds)
      [.punct .equals, .keyword .new] ds := fun ds =>
    (scans_space (c := ' ') rfl).append ((scans_mark (p := .equals) (by simp)).append
      ((scans_space (c := ' ') rfl).append ((scans_word (w := ['n', 'e', 'w']) (by decide)
        (endsWord_cons (c := ' ') rfl ds)).append (scans_space rfl))))
  have hopen : ∀ ds, Scans (' ' :: '\x7b' :: ds) [.punct .leftBrace] ds := fun ds =>
    (scans_space (c := ' ') rfl).append (scans_mark (p := .leftBrace) (by simp))
  have hclose : ∀ ds, Scans ('\n' :: ' ' :: ' ' :: ' ' :: ' ' :: '\x7d' :: ';' :: ds)
      [.punct .rightBrace, .punct .semicolon] ds := fun ds =>
    (scans_spaces (w := ['\n', ' ', ' ', ' ', ' ']) (by decide) _).append
      ((scans_mark (p := .rightBrace) (r := ';' :: ds) (by simp)).append
        (scans_mark (p := .semicolon) (by simp)))
  have hreturn : ∀ ds, Scans ('\n' :: ' ' :: ' ' :: ' ' :: ' ' ::
      'r' :: 'e' :: 't' :: 'u' :: 'r' :: 'n' :: ' ' :: ds) [.keyword .result] ds := fun ds =>
    (scans_spaces (w := ['\n', ' ', ' ', ' ', ' ']) (by decide) _).append
      ((scans_word (w := ['r', 'e', 't', 'u', 'r', 'n']) (by decide)
        (endsWord_cons (c := ' ') rfl ds)).append (scans_space rfl))
  have hend : Scans [';', '\n', '\x7d', '\n'] [.punct .semicolon, .punct .rightBrace] [] :=
    (scans_mark (p := .semicolon) (by simp)).append ((scans_space (c := '\n') rfl).append
      ((scans_mark (p := .rightBrace) (by simp)).append (scans_space (c := '\n') rfl)))
  -- What is between the fixed pieces is scanned by the lemmas on its parts.
  have hcall := WrittenCall.scans htypes ho.call
  have hassignments := Scans.flatMap (fun a : Assignment => a.text.toList)
    (fun a => a.tokens ++ [.punct .comma])
    fun a ha => Assignment.scans (ho.assignments a ha)
  have hrequest := fun ds => (htypes o.request ho.request).scans (' ' :: ds)
    (endsWord_cons (c := ' ') rfl ds)
  have hvar := fun ds => scans_ident ho.requestVar (endsWord_cons (c := ' ') rfl ds)
  have hall := (hlet _).append ((hvar _).append ((hnew _).append ((hrequest _).append
    ((hopen _).append ((hassignments _).append ((hclose _).append ((hreturn _).append
      ((hcall _).append hend))))))))
  rw [bodyText_toList]
  simpa [bodyTokens] using hall

/-- The tokens of a whole operation. -/
def tokens (typeTokens : TypeRef → List Token) (o : WrittenOperation) : List Token :=
  o.headTokens typeTokens ++ (paramTokens typeTokens o.params ++ o.tailTokens typeTokens)

theorem scans (htypes : SpellsTypes typeTokens) {o : WrittenOperation} (ho : o.Scannable)
    (hps : ∀ p ∈ o.params, '\n' ∉ p.wireName.toList) :
    Scans o.source.toList (o.tokens typeTokens) [] := by
  have hps : ∀ p ∈ o.params, p.Scannable := fun p hp =>
    ⟨hps p hp, (ho.params p hp).1, (ho.params p hp).2⟩
  have hresult : ∀ ds, Scans (o.response.text.toList ++ ' ' :: ds) (typeTokens o.response)
      (' ' :: ds) := fun ds => (htypes o.response ho.response).scans _ (endsWord_cons rfl ds)
  have harrow : ∀ ds, Scans (')' :: ' ' :: '-' :: '>' :: ' ' :: ds)
      [.punct .rightParen, .punct .arrow] ds := fun ds =>
    (scans_mark (p := .rightParen) (by simp)).append ((scans_space (c := ' ') rfl).append
      ((scans_mark (p := .arrow) (by simp)).append (scans_space (c := ' ') rfl)))
  have hopen : ∀ ds, Scans (' ' :: '\x7b' :: '\n' :: ds) [.punct .leftBrace] ds := fun ds =>
    (scans_space (c := ' ') rfl).append ((scans_mark (p := .leftBrace) (by simp)).append
      (scans_space (c := '\n') rfl))
  have hparams := scans_params htypes hps (endsWord_cons (c := ')') rfl (' ' :: '-' :: '>' :: ' ' ::
    (o.response.text.toList ++ ' ' :: '\x7b' :: '\n' :: o.bodyText.toList)))
  have hall := (scans_head htypes ho).append (hparams.append ((harrow _).append
    ((hresult _).append ((hopen _).append (scans_body htypes ho)))))
  rw [o.source_eq]
  simpa [tokens, tailTokens, paramText] using hall

end WrittenOperation

theorem WrittenParam.unscannable {p : WrittenParam} (hname : isPropertyName p.name = true)
    (hp : '\n' ∈ p.wireName.toList) (cs : List Char) : Unscannable (p.text.toList ++ cs) := by
  have hne : p.wireName ≠ p.name := by
    intro h
    have hword : isWord p.name.toList = true := (Bool.and_eq_true_iff.mp hname).1
    rw [h] at hp
    cases hc : p.name.toList with
    | nil => simp [hc] at hp
    | cons c w =>
      rw [hc, isWord, Bool.and_eq_true, List.all_eq_true] at hword
      rw [hc] at hp
      rcases List.mem_cons.mp hp with rfl | hp
      · exact absurd hword.1 (by decide)
      · exact absurd (hword.2 _ hp) (by decide)
  have hopen : ∀ ds, Scans ('#' :: '[' :: (p.source.keyword.toList ++ '(' :: ds))
      [.punct .hash, .punct .leftBracket, .ident p.source.keyword, .punct .leftParen] ds := fun ds =>
    (scans_mark (p := .hash) (by simp)).append ((scans_mark (p := .leftBracket) (by simp)).append
      ((scans_ident p.source.isPropertyName_keyword (endsWord_cons (c := '(') rfl ds)).append
        (scans_mark (p := .leftParen) (by simp))))
  have hquote : ∀ ds, Unscannable ('"' :: (escaped p.wireName.toList ++ '"' :: ds)) :=
    fun ds offset => lexemesFrom_newline hp offset
  have hall := (hopen _).unscannable (hquote
    (')' :: ']' :: ' ' :: (p.name.toList ++ ':' :: ' ' :: (p.type.text.toList ++ cs))))
  rw [← escapeText_toList] at hall
  simpa [text, hne] using hall

theorem unscannable_params (htypes : SpellsTypes typeTokens) {ps : List WrittenParam}
    (hps : ∀ p ∈ ps, isPropertyName p.name = true ∧ p.type.Writable)
    (hp : ∃ p ∈ ps, '\n' ∈ p.wireName.toList) (cs : List Char) :
    Unscannable ((", ".intercalate (ps.map (·.text))).toList ++ cs) := by
  obtain ⟨p, hmem, hnew⟩ := hp
  cases ps with
  | nil => cases hmem
  | cons q ps =>
    rw [List.map_cons, intercalate_toList, List.flatMap_map, List.append_assoc]
    induction ps generalizing q with
    | nil =>
      obtain rfl := List.mem_singleton.mp hmem
      exact WrittenParam.unscannable (hps p hmem).1 hnew _
    | cons r ps ih =>
      by_cases hq : '\n' ∈ q.wireName.toList
      · exact WrittenParam.unscannable (hps q (by simp)).1 hq _
      · have hr : p ∈ r :: ps := by
          rcases List.mem_cons.mp hmem with rfl | h
          · exact absurd hnew hq
          · exact h
        have hrest := ih r (fun s hs => hps s (List.mem_cons_of_mem _ hs)) hr
        have hscans := WrittenParam.scans htypes ⟨hq, (hps q (by simp)).1, (hps q (by simp)).2⟩
          (endsWord_cons (c := ',') rfl (' ' :: (r.text.toList ++
            (ps.flatMap (fun t => ',' :: ' ' :: t.text.toList) ++ cs))))
        have hall := (hscans.append (scans_comma _)).unscannable hrest
        simpa using hall

theorem WrittenOperation.unscannable (htypes : SpellsTypes typeTokens) {o : WrittenOperation}
    (ho : o.Scannable) (hp : ∃ p ∈ o.params, '\n' ∈ p.wireName.toList) :
    Unscannable o.source.toList := by
  rw [o.source_eq, String.toList_append, String.toList_append]
  exact (scans_head htypes ho).unscannable (unscannable_params htypes ho.params hp _)

end

end EndpointCompiler
