import EndpointCompiler.Proofs.Checking.Body
import EndpointCompiler.Proofs.Source.Attributes

/-! The bodies of generated operations: a request built from parameters and their fields, and the
call of the bridge that hands it on. -/

namespace EndpointCompiler

open Source

def Assignment.tokens (a : Assignment) : List Token :=
  .ident a.property :: .punct .equals :: .ident a.param ::
    (match a.field with
      | none => []
      | some f => [.punct .dot, .ident f])

/-- The value that an assignment is read to: a name, or a field of one. -/
def Assignment.SaysValue (a : Assignment) (e : Expr) : Prop :=
  match a.field with
  | none => ∃ x, e = .var x ∧ x.name = a.param
  | some f => ∃ x y span, e = .field (.var x) y span ∧ x.name = a.param ∧ y.name = f

structure Assignment.Says (a : Assignment) (init : Ident × Expr) : Prop where
  property : init.1.name = a.property
  value : a.SaysValue init.2

structure Assignment.Scannable (a : Assignment) : Prop where
  property : isPropertyName a.property = true
  param : isPropertyName a.param = true
  field : ∀ f, a.field = some f → isPropertyName f = true

/-- The call that hands on a variable. -/
structure WrittenCall where
  isAsync : Bool
  request : TypeRef
  response : TypeRef
  arg : String

namespace WrittenCall

def function (c : WrittenCall) : String :=
  if c.isAsync then "process_async" else "process"

def source (c : WrittenCall) : String :=
  (if c.isAsync then "await " else "") ++ c.function ++ "::<" ++ c.request.text ++ ", " ++
    c.response.text ++ ">(" ++ c.arg ++ ")"

def tokens (typeTokens : TypeRef → List Token) (c : WrittenCall) : List Token :=
  (if c.isAsync then [.keyword .await] else []) ++ .ident c.function :: .punct .doubleColon ::
    .punct .less :: ((typeTokens c.request ++ .punct .comma :: typeTokens c.response) ++
      [.punct .greater, .punct .leftParen, .ident c.arg, .punct .rightParen])

def Says (c : WrittenCall) (e : Expr) : Prop :=
  ∃ request response x, CallsBridge c.isAsync request response (.var x) e ∧
    request.toTypeRef = c.request ∧ response.toTypeRef = c.response ∧ x.name = c.arg

structure Scannable (c : WrittenCall) : Prop where
  request : c.request.Writable
  response : c.response.Writable
  arg : isPropertyName c.arg = true

end WrittenCall

section

variable {typeTokens : TypeRef → List Token} {cs : List Char} {ts rest : Tokens}

theorem Assignment.scans {a : Assignment} (ha : a.Scannable) (cs : List Char) :
    Scans (a.text.toList ++ cs) (a.tokens ++ [.punct .comma]) cs := by
  obtain ⟨property, param, field⟩ := a
  have hspace : ∀ n ds, Scans ('\n' :: (List.replicate n ' ' ++ ds)) [] ds := by
    intro n ds
    have hbreak : Scans ('\n' :: (List.replicate n ' ' ++ ds)) [] (List.replicate n ' ' ++ ds) :=
      scans_space rfl
    refine hbreak.append ?_
    clear hbreak
    induction n with
    | zero => exact .done ds
    | succ n ih => exact (scans_space (c := ' ') rfl).append ih
  have hequals : ∀ ds, Scans (' ' :: '=' :: ' ' :: ds) [.punct .equals] ds := fun ds =>
    (scans_space (c := ' ') rfl).append
      ((scans_mark (p := .equals) (r := ' ' :: ds) (by simp)).append (scans_space (c := ' ') rfl))
  have hcomma : Scans (',' :: cs) [.punct .comma] cs := scans_mark (p := .comma) (by simp)
  have hproperty : ∀ ds, Scans (property.toList ++ ' ' :: ds) [.ident property] (' ' :: ds) :=
    fun ds => scans_ident ha.property (endsWord_cons rfl _)
  cases field with
  | none =>
    have hparam := scans_ident ha.param (endsWord_cons (c := ',') rfl cs)
    have hall := (hspace 8 _).append ((hproperty _).append ((hequals _).append
      (hparam.append hcomma)))
    simpa [text, tokens, List.replicate] using hall
  | some f =>
    have hparam := scans_ident ha.param (endsWord_cons (c := '.') rfl (f.toList ++ ',' :: cs))
    have hdot : Scans ('.' :: (f.toList ++ ',' :: cs)) [.punct .dot] (f.toList ++ ',' :: cs) :=
      scans_mark (p := .dot) (by simp)
    have hf := scans_ident (ha.field f rfl) (endsWord_cons (c := ',') rfl cs)
    have hall := (hspace 8 _).append ((hproperty _).append ((hequals _).append
      (hparam.append (hdot.append (hf.append hcomma)))))
    simpa [text, tokens, List.replicate] using hall

theorem WrittenCall.scans (htypes : SpellsTypes typeTokens) {c : WrittenCall} (hc : c.Scannable)
    (cs : List Char) : Scans (c.source.toList ++ cs) (c.tokens typeTokens) cs := by
  obtain ⟨isAsync, request, response, x⟩ := c
  have hx := scans_ident hc.arg (endsWord_cons (c := ')') rfl cs)
  have hclose : Scans (')' :: cs) [.punct .rightParen] cs := scans_mark (p := .rightParen) (by simp)
  have hmarks : ∀ ds, Scans ('>' :: '(' :: ds) [.punct .greater, .punct .leftParen] ds := fun ds =>
    (scans_mark (p := .greater) (r := '(' :: ds) (by simp)).append
      (scans_mark (p := .leftParen) (by simp))
  have hresponse := (htypes response hc.response).scans ('>' :: '(' :: (x.toList ++ ')' :: cs))
    (endsWord_cons rfl _)
  have hrequest := (htypes request hc.request).scans
    (',' :: ' ' :: (response.text.toList ++ '>' :: '(' :: (x.toList ++ ')' :: cs)))
    (endsWord_cons rfl _)
  have hcolons : ∀ ds, Scans (':' :: ':' :: '<' :: ds) [.punct .doubleColon, .punct .less] ds :=
    fun ds => (scans_mark (p := .doubleColon) (r := '<' :: ds) (by simp)).append
      (scans_mark (p := .less) (by simp))
  have hargs := (hcolons _).append (hrequest.append ((scans_comma _).append
    (hresponse.append ((hmarks _).append (hx.append hclose)))))
  have hname : ∀ n, isPropertyName n = true → ∀ ds,
      Scans (n.toList ++ ':' :: ds) [.ident n] (':' :: ds) :=
    fun n hn ds => scans_ident hn (endsWord_cons rfl ds)
  cases isAsync with
  | false =>
    have hall := (hname "process" (by decide) _).append hargs
    simpa [source, tokens, function] using hall
  | true =>
    have hawait : ∀ ds, Scans ('a' :: 'w' :: 'a' :: 'i' :: 't' :: ' ' :: ds) [.keyword .await] ds :=
      fun ds => (scans_word (w := ['a', 'w', 'a', 'i', 't']) (by decide)
        (endsWord_cons (c := ' ') rfl ds)).append (scans_space rfl)
    have hall := (hawait _).append ((hname "process_async" (by decide) _).append hargs)
    simpa [source, tokens, function] using hall

theorem reads_fieldChain_none {base : Expr} (hr : peek rest ≠ .punct .dot) :
    Reads (fieldChain base rest) (· = base) rest := by
  unfold fieldChain
  split
  · exact reads_ok rfl
  · rename_i l _
    have hl : l.token ≠ .punct .dot := hr
    rw [if_neg hl]
    exact reads_ok rfl

theorem reads_fieldChain_field {base : Expr} {f : String} {d m : Lexeme}
    (hd : d.token = .punct .dot) (hm : m.token = .ident f) (hr : peek rest ≠ .punct .dot) :
    Reads (fieldChain base (d :: m :: rest))
      (fun e => ∃ i span, e = .field base i span ∧ i.name = f) rest := by
  unfold fieldChain
  dsimp only
  rw [if_pos hd]
  refine (reads_ident hm).bind fun name _ hname => ?_
  refine (reads_fieldChain_none hr).bind fun e _ he => ?_
  exact reads_ok ⟨_, _, he, hname⟩

theorem expr_ident {x : String} {l : Lexeme} (hl : l.token = .ident x)
    (hr : peek ts ≠ .punct .doubleColon ∧ peek ts ≠ .punct .leftParen) :
    expr (l :: ts) =
      (fieldChain (.var ⟨x, l.span⟩) ts).map (·.weaken (Nat.le_refl (ts.length + 1))) := by
  have htypes : atTypeArgs ts = false := by
    unfold atTypeArgs
    split
    · rename_i m _ _
      have hm : m.token ≠ .punct .doubleColon := hr.1
      simp [hm]
    · rfl
  rw [expr]
  simp only [hl, htypes, Bool.false_eq_true, hr.2, or_self, if_false]

theorem reads_var {x : String} {l : Lexeme} (hl : l.token = .ident x)
    (hr : peek rest ≠ .punct .dot ∧ peek rest ≠ .punct .doubleColon ∧
      peek rest ≠ .punct .leftParen) :
    Reads (expr (l :: rest)) (fun e => ∃ i, e = .var i ∧ i.name = x) rest := by
  rw [expr_ident hl hr.2]
  exact ((reads_fieldChain_none hr.1).weaken _).imp fun e he => ⟨_, he, rfl⟩

theorem reads_field {x f : String} {l d m : Lexeme} (hl : l.token = .ident x)
    (hd : d.token = .punct .dot) (hm : m.token = .ident f) (hr : peek rest ≠ .punct .dot) :
    Reads (expr (l :: d :: m :: rest))
      (fun e => ∃ i j span, e = .field (.var i) j span ∧ i.name = x ∧ j.name = f) rest := by
  have hpeek : peek (d :: m :: rest) = .punct .dot := hd
  rw [expr_ident hl (by simp [hpeek])]
  refine ((reads_fieldChain_field hd hm hr).weaken _).imp ?_
  rintro _ ⟨j, span, rfl, hj⟩
  exact ⟨_, j, span, rfl, rfl, hj⟩

theorem Assignment.reads_value {a : Assignment}
    (hts : Begins (.ident a.param :: (match a.field with
      | none => []
      | some f => [.punct .dot, .ident f])) ts rest) (hr : peek rest = .punct .comma) :
    Reads (expr ts) a.SaysValue rest := by
  obtain ⟨property, param, field⟩ := a
  cases field with
  | none =>
    obtain ⟨l, rfl, hl⟩ := begins_singleton.mp hts
    exact reads_var hl (by simp [hr])
  | some f =>
    obtain ⟨l, ts, rfl, hl, hts⟩ := begins_cons.mp hts
    obtain ⟨d, ts, rfl, hd, hts⟩ := begins_cons.mp hts
    obtain ⟨m, rfl, hm⟩ := begins_singleton.mp hts
    exact reads_field hl hd hm (by simp [hr])

theorem ident_peek {p : Parsed Ident Lexeme ts.length} (h : ident ts = .ok p) :
    ∃ n, peek ts = .ident n := by
  cases ts with
  | nil => cases h
  | cons l tail =>
    cases hl : l.token with
    | ident n => exact ⟨n, hl⟩
    | _ =>
      unfold ident at h
      simp [hl] at h

/-- No thing that begins with an identifier begins with a mark. -/
theorem notAtClose_of_ident {α : Type} {bound : Nat} {close : Punct} {item : BoundedReader α bound}
    (h : ∀ ts hb p, item ts hb = .ok p → ∃ q, ident ts = .ok q) : NotAtClose bound close item := by
  intro ts hb rest hread hp
  obtain ⟨p, hitem, -⟩ := hread
  obtain ⟨q, hq⟩ := h ts hb p hitem
  obtain ⟨n, hn⟩ := ident_peek hq
  rw [hn] at hp
  cases hp

/-- A new object of a type, each of its fields assigned on a line of its own. -/
theorem reads_new (htypes : SpellsTypes typeTokens) {t : TypeRef} (ht : t.Writable)
    {as : List Assignment}
    (hts : Begins (.keyword .new :: (typeTokens t ++ .punct .leftBrace ::
      (as.flatMap (fun a => a.tokens ++ [.punct .comma]) ++ [.punct .rightBrace]))) ts rest) :
    Reads (expr ts) (fun e => ∃ type inits span, e = .new type inits span ∧ type.toTypeRef = t ∧
      List.Forall₂ Assignment.Says as inits) rest := by
  obtain ⟨l, ts, rfl, hl, hts⟩ := begins_cons.mp hts
  obtain ⟨mid, htype, hts⟩ := begins_append.mp hts
  obtain ⟨k, mid, rfl, hk, hts⟩ := begins_cons.mp hts
  obtain ⟨last, hinits, hlast⟩ := begins_append.mp hts
  obtain ⟨m, rfl, hm⟩ := begins_singleton.mp hlast
  have hends := endsType_mark hk (by decide) mid
  rw [expr]
  simp only [hl]
  refine ((htypes t ht).reads ts _ htype hends).bind fun type _ htype => ?_
  refine (reads_expect hk).bind fun _ _ _ => ?_
  have hread := reads_commaList_trailing (R := Assignment.Says) (h := Nat.lt_succ_self mid.length)
    (show NotAtClose (mid.length + 1) .rightBrace fun ts h => do
      let name ← ident ts
      let equals ← expectMark .equals name.rest
      have he : equals.rest.length < ts.length := by
        have := name.short
        have := equals.short
        omega
      let value ← expr equals.rest
      return ⟨(name.value, value.value), value.rest, Nat.lt_trans value.short he⟩
    from notAtClose_of_ident fun ts _ p hp => by
      cases hi : ident ts with
      | ok q => exact ⟨q, rfl⟩
      | error e =>
        rw [hi] at hp
        cases hp)
    (fun a _ ts rest _ hts hr => by
      obtain ⟨l, ts, rfl, hl, hts⟩ := begins_cons.mp hts
      obtain ⟨k, ts, rfl, hk, hts⟩ := begins_cons.mp hts
      refine (reads_ident hl).bind fun name _ hname => ?_
      refine (reads_expect hk).bind fun _ _ _ => ?_
      refine (Assignment.reads_value hts hr).bind fun value _ hvalue => ?_
      exact reads_ok ⟨hname, hvalue⟩) hinits hm
  refine hread.bind fun inits _ hinits => ?_
  refine (reads_expect hm).bind fun _ _ _ => ?_
  exact reads_ok ⟨_, _, _, rfl, htype, hinits⟩

/-- A call with two type arguments and one argument. -/
theorem reads_call (htypes : SpellsTypes typeTokens) {f x : String} {t u : TypeRef}
    (ht : t.Writable) (hu : u.Writable)
    (hts : Begins (.ident f :: .punct .doubleColon :: .punct .less ::
      ((typeTokens t ++ .punct .comma :: typeTokens u) ++
        [.punct .greater, .punct .leftParen, .ident x, .punct .rightParen])) ts rest) :
    Reads (expr ts) (fun e => ∃ i request response y span,
      e = .call i [request, response] [.var y] span ∧ i.name = f ∧ request.toTypeRef = t ∧
        response.toTypeRef = u ∧ y.name = x) rest := by
  obtain ⟨l, ts, rfl, hl, hts⟩ := begins_cons.mp hts
  obtain ⟨c, ts, rfl, hc, hts⟩ := begins_cons.mp hts
  obtain ⟨o, ts, rfl, ho, hts⟩ := begins_cons.mp hts
  obtain ⟨mid, hargs, hts⟩ := begins_append.mp hts
  obtain ⟨k, mid, rfl, hk, hts⟩ := begins_cons.mp hts
  obtain ⟨p, mid, rfl, hp, hts⟩ := begins_cons.mp hts
  obtain ⟨v, mid, rfl, hv, hts⟩ := begins_cons.mp hts
  obtain ⟨r, rfl, hr⟩ := begins_singleton.mp hts
  have hat : atTypeArgs (c :: o :: ts) = true := by simp [atTypeArgs, hc, ho]
  have hends := endsType_mark hk (by decide) (p :: v :: r :: rest)
  have hcomma : peek (k :: p :: v :: r :: rest) ≠ .punct .comma := by simp [peek, hk]
  have hpair := ((ArgsTokens.last (htypes u hu)).cons (htypes t ht)).reads ts _ hargs hends hcomma
  have htypeArgs : Reads (typeArgs (c :: o :: ts))
      (fun es => TypeExpr.toTypeRefs es = [t, u]) (p :: v :: r :: rest) := by
    rw [typeArgs, if_pos hat]
    refine (reads_expect hc).bind fun _ _ _ => ?_
    refine (reads_expect ho).bind fun _ _ _ => ?_
    refine (hpair _ _).bind fun es _ hes => ?_
    refine (reads_expect hk).bind fun _ _ _ => ?_
    exact reads_ok hes
  have hclose : peek (r :: rest) = .punct .rightParen := hr
  have harg : Reads (commaList ((v :: r :: rest).length + 1) .rightParen (fun ts _ => expr ts)
      (v :: r :: rest) (Nat.lt_succ_self _))
      (fun es => ∃ a, (∃ y, a = .var y ∧ y.name = x) ∧ es = [a]) (r :: rest) :=
    reads_commaList_last (by simp [peek, hv])
    (reads_var hv (by simp [hclose])) (by simp [hclose])
  rw [expr]
  simp only [hl, hat, true_or, if_true]
  refine htypeArgs.bind fun es _ hes => ?_
  refine (reads_expect hp).bind fun _ _ _ => ?_
  refine harg.bind ?_
  rintro _ _ ⟨_, ⟨y, rfl, hy⟩, rfl⟩
  refine (reads_expect hr).bind fun _ _ _ => ?_
  -- The reader returns a list of types; that there are two follows from what they stand for.
  have hlength : es.length = 2 := by rw [← toTypeRefs_length, hes]; rfl
  obtain ⟨request, response, rfl⟩ := List.length_eq_two.mp hlength
  simp only [TypeExpr.toTypeRefs, List.cons.injEq, and_true] at hes
  exact reads_ok ⟨_, request, response, y, _, rfl, rfl, hes.1, hes.2, hy⟩

theorem WrittenCall.reads (htypes : SpellsTypes typeTokens) {c : WrittenCall} (hc : c.Scannable)
    (hts : Begins (c.tokens typeTokens) ts rest) : Reads (expr ts) c.Says rest := by
  obtain ⟨isAsync, request, response, x⟩ := c
  cases isAsync with
  | false =>
    refine (reads_call htypes hc.request hc.response hts).imp ?_
    rintro _ ⟨i, request, response, y, span, rfl, hi, ht, hu, hy⟩
    exact ⟨request, response, y, .sync rfl hi, ht, hu, hy⟩
  | true =>
    obtain ⟨l, ts, rfl, hl, hts⟩ := begins_cons.mp hts
    rw [expr]
    simp only [hl]
    refine (reads_call htypes hc.request hc.response hts).bind ?_
    rintro _ _ ⟨i, request, response, y, span, rfl, hi, ht, hu, hy⟩
    exact reads_ok ⟨request, response, y, .async rfl hi, ht, hu, hy⟩

end

end EndpointCompiler
