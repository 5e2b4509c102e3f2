import EndpointCompiler.Handler.Definition
import EndpointCompiler.Source.TypeText
import EndpointCompiler.Proofs.Source.Scanning
import EndpointCompiler.Proofs.Source.Tokens
import EndpointCompiler.Proofs.Source.TypeExpr

/-! Types whose names can stand in a source text: their texts are read as the types themselves, with
whatever follows them. -/

namespace EndpointCompiler

open Source

/-- A module path: words that are no keywords, with points between them. -/
def IsModulePath (m : ModuleId) : Prop :=
  ∃ names : List String, names ≠ [] ∧ (∀ n ∈ names, isPropertyName n = true) ∧
    m = ".".intercalate names

mutual

/-- All names in a type are words that are no keywords, and only the asynchronous result is written
like one. -/
def TypeRef.Writable : TypeRef → Prop
  | .named module name args =>
    (∀ m, module = some m → IsModulePath m) ∧ isPropertyName name = true ∧
      TypeRef.WritableAll args ∧ ¬ (module = none ∧ name = "Async" ∧ args.length = 1)
  | .array t => t.Writable
  | .async t => t.Writable

def TypeRef.WritableAll : List TypeRef → Prop
  | [] => True
  | t :: ts => t.Writable ∧ TypeRef.WritableAll ts

end

theorem ofWord_of_isPropertyName {n : String} (hn : isPropertyName n = true) :
    Token.ofWord n = .ident n := by
  simp only [isPropertyName, Bool.and_eq_true, Option.isNone_iff_eq_none] at hn
  rw [Token.ofWord, hn.2]

theorem scans_ident {n : String} (hn : isPropertyName n = true) {rest : List Char}
    (hr : EndsWord rest) : Scans (n.toList ++ rest) [.ident n] rest := by
  have hw : isWord n.toList = true := by
    simp only [isPropertyName, Bool.and_eq_true] at hn
    exact hn.1
  have hs := scans_word hw hr
  rwa [String.ofList_toList, ofWord_of_isPropertyName hn] at hs

theorem endsWord_cons {c : Char} (h : isIdentContinue c = false) (cs : List Char) :
    EndsWord (c :: cs) := by
  rintro d ⟨⟩
  exact h

theorem endsWord_nil : EndsWord [] :=
  fun _ h => by cases h

/-- What may not follow a type: it would go on with it. -/
def EndsType (t : Token) : Prop :=
  t ≠ .punct .dot ∧ t ≠ .punct .doubleColon ∧ t ≠ .punct .less

theorem endsType_mark {p : Punct} {l : Lexeme} (hl : l.token = .punct p)
    (hp : p ≠ .dot ∧ p ≠ .doubleColon ∧ p ≠ .less) (ts : Tokens) : EndsType (peek (l :: ts)) := by
  have h : peek (l :: ts) = .punct p := hl
  simpa [EndsType, h] using hp

/-- Further names of a path, each after a point. -/
def pathTokens (names : List String) : List Token :=
  names.flatMap fun n => [.punct .dot, .ident n]

section

variable {ts rest : Tokens} {n : String} {names : List String}

theorem scans_path (h : ∀ m ∈ n :: names, isPropertyName m = true) {cs : List Char}
    (hr : EndsWord cs) :
    Scans ((".".intercalate (n :: names)).toList ++ cs) (.ident n :: pathTokens names) cs := by
  induction names generalizing n with
  | nil =>
    rw [String.intercalate_singleton]
    exact scans_ident (h n (by simp)) hr
  | cons m names ih =>
    have hrest := ih fun k hk => h k (List.mem_cons_of_mem _ hk)
    have hdot := (scans_mark (p := .dot) (by simp)).append hrest
    rw [String.intercalate_cons_cons]
    simp only [String.toList_append, List.append_assoc]
    exact (scans_ident (h n (by simp)) (endsWord_cons rfl _)).append hdot

theorem reads_pathRest (h : Begins (pathTokens names) ts rest) (hr : peek rest ≠ .punct .dot) :
    Reads (pathRest ts) (fun more => more.map (·.name) = names) rest := by
  induction names generalizing ts with
  | nil =>
    obtain rfl : ts = rest := begins_nil.mp h
    unfold pathRest
    split
    · exact reads_ok rfl
    · rename_i l ts
      have hl : l.token ≠ .punct .dot := hr
      rw [if_neg hl]
      exact reads_ok rfl
  | cons m names ih =>
    obtain ⟨l, ts, rfl, hl, h⟩ := begins_cons.mp h
    obtain ⟨l', ts, rfl, hl', h⟩ := begins_cons.mp h
    rw [pathRest, if_pos hl]
    refine (reads_ident hl').bind fun a hs ha => ?_
    refine (ih h).bind fun more hs' hmore => ?_
    exact reads_ok (by simp [ha, hmore])

theorem reads_typeName_plain {l : Lexeme} (hl : l.token = .ident n)
    (hr : peek rest ≠ .punct .dot ∧ peek rest ≠ .punct .doubleColon) :
    Reads (typeName (l :: rest)) (· = (none, ⟨n, l.span⟩)) rest := by
  rw [typeName]
  refine (reads_ident_eq hl).bind ?_
  rintro _ hs rfl
  have hpath : Reads (pathRest rest) (fun more => more.map (·.name) = []) rest :=
    reads_pathRest (begins_nil.mpr rfl) hr.1
  refine hpath.bind fun more hs' hmore => ?_
  have hskip := skip_of_ne hr.2
  dsimp only
  rw [if_neg (by simp [hskip.1]), List.map_eq_nil_iff.mp hmore,
    if_pos List.isEmpty_nil]
  exact reads_ok rfl

theorem reads_typeName_path {m : String} {l : Lexeme}
    (h : Begins (.ident m :: pathTokens names ++ [.punct .doubleColon]) ts (l :: rest))
    (hl : l.token = .ident n) :
    Reads (typeName ts) (· = (some (".".intercalate (m :: names)), ⟨n, l.span⟩)) rest := by
  rw [List.cons_append] at h
  obtain ⟨k, ts, rfl, hk, h⟩ := begins_cons.mp h
  obtain ⟨mid, hpath, hcolon⟩ := begins_append.mp h
  obtain ⟨d, rfl, hd⟩ := begins_singleton.mp hcolon
  rw [typeName]
  refine (reads_ident hk).bind fun a hs ha => ?_
  have hdot : peek (d :: l :: rest) ≠ .punct .dot := by
    have : peek (d :: l :: rest) = .punct .doubleColon := hd
    simp [this]
  refine (reads_pathRest hpath hdot).bind fun more hs' hmore => ?_
  have hskip : (skip (.punct .doubleColon) (d :: l :: rest)).value = true ∧
      (skip (.punct .doubleColon) (d :: l :: rest)).rest = l :: rest := skip_of_eq hd
  have hname : Reads (ident (skip (.punct .doubleColon) (d :: l :: rest)).rest)
      (· = ⟨n, l.span⟩) rest := by
    rw [hskip.2]
    exact reads_ident_eq hl
  dsimp only
  rw [if_pos hskip.1]
  refine hname.bind ?_
  rintro _ hs'' rfl
  exact reads_ok (by rw [List.map_cons, ha, hmore])

variable {N : Option ModuleId × Ident → Prop}

/-- A name without arguments. -/
theorem reads_typeExpr_name (hl : peek ts ≠ .punct .leftBracket) (hn : Reads (typeName ts) N rest)
    (hr : peek rest ≠ .punct .less) :
    Reads (typeExpr ts)
      (fun e => ∃ v, N v ∧ e = .path v.1 v.2.name [] ⟨(here ts).start, v.2.span.stop⟩) rest := by
  cases ts with
  | nil =>
    obtain ⟨p, hp, -⟩ := hn
    cases hp
  | cons l tail =>
    have hl : l.token ≠ .punct .leftBracket := hl
    rw [typeExpr, if_neg hl]
    refine hn.bind fun v hs hv => ?_
    have hskip := skip_of_ne hr
    dsimp only
    rw [dif_neg (by simp [hskip.1])]
    exact reads_ok ⟨v, hv, rfl⟩

/-- A name with arguments in angle brackets. -/
theorem reads_typeExpr_args {P : List TypeExpr → Prop} {l m : Lexeme} {inner : Tokens}
    (hb : peek ts ≠ .punct .leftBracket) (hn : Reads (typeName ts) N (l :: inner))
    (hl : l.token = .punct .less) (hm : m.token = .punct .greater)
    (hargs : ∀ bound h, Reads (commaSeparated bound (fun ts _ => typeExpr ts) inner h) P
      (m :: rest)) :
    Reads (typeExpr ts)
      (fun e => ∃ v es, N v ∧ P es ∧ e = .path v.1 v.2.name es ⟨(here ts).start, m.span.stop⟩)
      rest := by
  cases ts with
  | nil =>
    obtain ⟨p, hp, -⟩ := hn
    cases hp
  | cons k tail =>
    have hk : k.token ≠ .punct .leftBracket := hb
    rw [typeExpr, if_neg hk]
    refine hn.bind fun v hs hv => ?_
    have hskip : (skip (.punct .less) (l :: inner)).value = true ∧
      (skip (.punct .less) (l :: inner)).rest = inner := skip_of_eq hl
    have hinner : ∀ bound h, Reads (commaSeparated bound (fun ts _ => typeExpr ts)
        (skip (.punct .less) (l :: inner)).rest h) P (m :: rest) := by
      rw [hskip.2]
      exact hargs
    dsimp only
    rw [dif_pos hskip.1]
    refine (hinner _ _).bind fun es hs' hes => ?_
    refine (reads_expect hm).bind ?_
    rintro _ hs'' rfl
    exact reads_ok ⟨v, es, hv, hes, rfl⟩

theorem reads_typeExpr_array {P : TypeExpr → Prop} {l m : Lexeme} {inner : Tokens}
    (hl : l.token = .punct .leftBracket) (hm : m.token = .punct .rightBracket)
    (ht : Reads (typeExpr inner) P (m :: rest)) :
    Reads (typeExpr (l :: inner))
      (fun e => ∃ t, P t ∧ e = .array t ⟨l.span.start, m.span.stop⟩) rest := by
  rw [typeExpr, if_pos hl]
  refine ht.bind fun e hs he => ?_
  refine (reads_expect hm).bind ?_
  rintro _ hs' rfl
  exact reads_ok ⟨e, he, rfl⟩

section

variable {α : Type} {bound : Nat} {item : BoundedReader α bound} {P : α → Prop} {Q : List α → Prop}
  {h : ts.length < bound}

theorem reads_commaSeparated_last (hitem : Reads (item ts h) P rest)
    (hr : peek rest ≠ .punct .comma) :
    Reads (commaSeparated bound item ts h) (fun as => ∃ a, P a ∧ as = [a]) rest := by
  rw [commaSeparated]
  refine hitem.bind fun a hs ha => ?_
  cases rest with
  | nil => exact reads_ok ⟨a, ha, rfl⟩
  | cons l rest =>
    have hl : l.token ≠ .punct .comma := hr
    dsimp only
    rw [if_neg hl]
    exact reads_ok ⟨a, ha, rfl⟩

theorem reads_commaSeparated_cons {l : Lexeme} {mid : Tokens}
    (hitem : Reads (item ts h) P (l :: mid)) (hl : l.token = .punct .comma)
    (hmore : ∀ h, Reads (commaSeparated bound item mid h) Q rest) :
    Reads (commaSeparated bound item ts h) (fun as => ∃ a more, P a ∧ Q more ∧ as = a :: more)
      rest := by
  rw [commaSeparated]
  refine hitem.bind fun a hs ha => ?_
  dsimp only
  rw [if_pos hl]
  refine (hmore _).bind fun more hs' hmore => ?_
  exact reads_ok ⟨a, more, ha, hmore, rfl⟩

end

end

/-- Tokens that a type is written with. -/
structure TypeTokens (t : TypeRef) (us : List Token) : Prop where
  scans : ∀ cs, EndsWord cs → Scans (t.text.toList ++ cs) us cs
  reads : ∀ ts rest, Begins us ts rest → EndsType (peek rest) →
    Reads (typeExpr ts) (·.toTypeRef = t) rest

/-- Tokens that types are written with one after another, with commas between them. -/
structure ArgsTokens (t : TypeRef) (more : List TypeRef) (us : List Token) : Prop where
  scans : ∀ cs, EndsWord cs → Scans ((t.text ++ TypeRef.textMore more).toList ++ cs) us cs
  reads : ∀ ts rest, Begins us ts rest → EndsType (peek rest) → peek rest ≠ .punct .comma →
    ∀ bound h, Reads (commaSeparated bound (fun ts _ => typeExpr ts) ts h)
      (fun es => TypeExpr.toTypeRefs es = t :: more) rest

section

variable {t u : TypeRef} {more : List TypeRef} {us vs : List Token}

theorem ArgsTokens.last (h : TypeTokens t us) : ArgsTokens t [] us where
  scans := fun cs hcs => by
    rw [TypeRef.textMore, String.append_empty]
    exact h.scans cs hcs
  reads := fun ts rest hts hr hcomma _ _ => by
    refine (reads_commaSeparated_last (h.reads ts rest hts hr) hcomma).imp ?_
    rintro _ ⟨e, rfl, rfl⟩
    rfl

theorem ArgsTokens.cons (h : TypeTokens t us) (h' : ArgsTokens u more vs) :
    ArgsTokens t (u :: more) (us ++ .punct .comma :: vs) where
  scans := fun cs hcs => by
    have hcomma := (scans_mark (p := .comma) (by simp)).append
      ((scans_space (c := ' ') rfl).append (h'.scans cs hcs))
    have htext : (t.text ++ TypeRef.textMore (u :: more)).toList ++ cs = t.text.toList ++
        (Punct.comma.chars ++ ' ' :: ((u.text ++ TypeRef.textMore more).toList ++ cs)) := by
      simp [TypeRef.textMore, Punct.chars]
    rw [htext]
    exact (h.scans _ (endsWord_cons rfl _)).append hcomma
  reads := fun ts rest hts hr hcomma bound hb => by
    obtain ⟨mid, ht, hrest⟩ := begins_append.mp hts
    obtain ⟨l, mid, rfl, hl, hrest⟩ := begins_cons.mp hrest
    have hends := endsType_mark hl (by decide) mid
    have hmore := h'.reads mid rest hrest hr hcomma bound
    refine (reads_commaSeparated_cons (h.reads ts _ ht hends) hl hmore).imp ?_
    rintro _ ⟨e, es, rfl, hes, rfl⟩
    rw [TypeExpr.toTypeRefs, hes]

theorem TypeTokens.array (h : TypeTokens t us) :
    TypeTokens (.array t) (.punct .leftBracket :: (us ++ [.punct .rightBracket])) where
  scans := fun cs _ => by
    have htext : (TypeRef.array t).text.toList ++ cs = Punct.leftBracket.chars ++
        (t.text.toList ++ (Punct.rightBracket.chars ++ cs)) := by
      simp [TypeRef.text, Punct.chars]
    rw [htext]
    have hclose : Scans (Punct.rightBracket.chars ++ cs) [.punct .rightBracket] cs :=
      scans_mark (by simp)
    exact (scans_mark (p := .leftBracket) (by simp)).append
      ((h.scans _ (endsWord_cons rfl _)).append hclose)
  reads := fun ts rest hts _ => by
    obtain ⟨l, ts, rfl, hl, hts⟩ := begins_cons.mp hts
    obtain ⟨mid, ht, hlast⟩ := begins_append.mp hts
    obtain ⟨m, rfl, hm⟩ := begins_singleton.mp hlast
    have hends := endsType_mark hm (by decide) rest
    refine (reads_typeExpr_array hl hm (h.reads ts _ ht hends)).imp ?_
    rintro _ ⟨e, rfl, rfl⟩
    rw [TypeExpr.toTypeRef]

end

/-- What stands before a name that has a module. -/
def modulePrefix : Option ModuleId → String
  | some m => m ++ "::"
  | none => ""

theorem text_named_nil (module : Option ModuleId) (n : String) :
    (TypeRef.named module n []).text = modulePrefix module ++ n := by
  cases module <;> simp [TypeRef.text, modulePrefix]

theorem text_named_cons (module : Option ModuleId) (n : String) (t : TypeRef)
    (more : List TypeRef) :
    (TypeRef.named module n (t :: more)).text =
      modulePrefix module ++ n ++ ("<" ++ (t.text ++ TypeRef.textMore more) ++ ">") := by
  cases module <;> simp [TypeRef.text, modulePrefix, String.append_assoc]

/-- Tokens that the name of a type is written with, and its module. -/
structure NameTokens (module : Option ModuleId) (name : String) (us : List Token) : Prop where
  scans : ∀ cs, EndsWord cs → Scans ((modulePrefix module).toList ++ (name.toList ++ cs)) us cs
  first : ∀ ts rest, Begins us ts rest → peek ts ≠ .punct .leftBracket
  reads : ∀ ts rest, Begins us ts rest →
    peek rest ≠ .punct .dot ∧ peek rest ≠ .punct .doubleColon →
    Reads (typeName ts) (fun v => v.1 = module ∧ v.2.name = name) rest

section

variable {module : Option ModuleId} {n : String} {t : TypeRef} {more : List TypeRef}
  {us vs : List Token}

/-- A name may have a module in front, whose dotted words are tokens of their own. -/
theorem exists_nameTokens (hm : ∀ m, module = some m → IsModulePath m)
    (hn : isPropertyName n = true) : ∃ us, NameTokens module n us := by
  cases module with
  | none =>
    refine ⟨[.ident n], ?_, ?_, ?_⟩
    · intro cs hcs
      simpa [modulePrefix] using scans_ident hn hcs
    · intro ts rest h
      rw [h.peek]
      simp
    · intro ts rest h hr
      obtain ⟨l, rfl, hl⟩ := begins_singleton.mp h
      refine (reads_typeName_plain hl hr).imp ?_
      rintro _ rfl
      exact ⟨rfl, rfl⟩
  | some m =>
    obtain ⟨names, hne, hnames, rfl⟩ := hm m rfl
    obtain ⟨k, names, rfl⟩ := List.exists_cons_of_ne_nil hne
    refine ⟨.ident k :: pathTokens names ++ [.punct .doubleColon] ++ [.ident n], ?_, ?_, ?_⟩
    · intro cs hcs
      have hcolon := (scans_mark (p := .doubleColon) (by simp)).append (scans_ident hn hcs)
      have hpath := (scans_path hnames (endsWord_cons rfl _)).append hcolon
      simpa [modulePrefix, Punct.chars] using hpath
    · intro ts rest h
      rw [h.peek]
      simp
    · intro ts rest h _
      obtain ⟨mid, hpath, hname⟩ := begins_append.mp h
      obtain ⟨l, rfl, hl⟩ := begins_singleton.mp hname
      refine (reads_typeName_path hpath hl).imp ?_
      rintro _ rfl
      exact ⟨rfl, rfl⟩

theorem TypeTokens.named (h : NameTokens module n us) : TypeTokens (.named module n []) us where
  scans := fun cs hcs => by
    rw [text_named_nil, String.toList_append, List.append_assoc]
    exact h.scans cs hcs
  reads := fun ts rest hts hr => by
    have hname := h.reads ts rest hts ⟨hr.1, hr.2.1⟩
    refine (reads_typeExpr_name (h.first ts rest hts) hname hr.2.2).imp ?_
    rintro _ ⟨v, ⟨rfl, rfl⟩, rfl⟩
    exact toTypeRef_path (by simp) _

/-- A name with arguments is read to a path, whatever type that stands for. -/
theorem ArgsTokens.path (h : NameTokens module n us) (h' : ArgsTokens t more vs)
    {text : String}
    (htext : text = modulePrefix module ++ n ++ ("<" ++ (t.text ++ TypeRef.textMore more) ++ ">")) :
    (∀ cs, Scans (text.toList ++ cs) (us ++ .punct .less :: (vs ++ [.punct .greater])) cs) ∧
    ∀ ts rest, Begins (us ++ .punct .less :: (vs ++ [.punct .greater])) ts rest →
      Reads (typeExpr ts) (fun e => ∃ es span, e = .path module n es span ∧
        TypeExpr.toTypeRefs es = t :: more) rest := by
  constructor
  · intro cs
    have hclose : Scans (Punct.greater.chars ++ cs) [.punct .greater] cs := scans_mark (by simp)
    have hargs := (scans_mark (p := .less) (by simp)).append
      ((h'.scans _ (endsWord_cons rfl _)).append hclose)
    have hall := (h.scans _ (endsWord_cons rfl _)).append hargs
    rw [htext]
    simpa [Punct.chars] using hall
  · intro ts rest hts
    obtain ⟨mid, hname, hrest⟩ := begins_append.mp hts
    obtain ⟨l, inner, rfl, hl, hrest⟩ := begins_cons.mp hrest
    obtain ⟨last, hargs, hlast⟩ := begins_append.mp hrest
    obtain ⟨m, rfl, hm⟩ := begins_singleton.mp hlast
    have hp : peek (l :: inner) = .punct .less := hl
    have hends := endsType_mark hm (by decide) rest
    have hcomma : peek (m :: rest) ≠ .punct .comma := by
      have hp : peek (m :: rest) = .punct .greater := hm
      simp [hp]
    refine (reads_typeExpr_args (h.first _ _ hname) (h.reads ts _ hname (by simp [hp])) hl hm
      (h'.reads inner _ hargs hends hcomma)).imp ?_
    rintro _ ⟨v, es, ⟨rfl, rfl⟩, hes, rfl⟩
    exact ⟨es, _, rfl, hes⟩

mutual

/-- A type that can be written has tokens, by which it is scanned and read back. Induction on the
type needs both at once, as the tokens of arguments are part of those of the type. -/
theorem TypeRef.Writable.exists_tokens : ∀ {t : TypeRef}, t.Writable → ∃ us, TypeTokens t us
  | .named module n [], h => by
    obtain ⟨us, hus⟩ := exists_nameTokens h.1 h.2.1
    exact ⟨us, .named hus⟩
  | .named module n (t :: more), h => by
    obtain ⟨us, hus⟩ := exists_nameTokens h.1 h.2.1
    obtain ⟨vs, hvs⟩ := TypeRef.WritableAll.exists_tokens h.2.2.1 rfl
    obtain ⟨hscans, hreads⟩ := hvs.path hus (text_named_cons module n t more)
    refine ⟨_, fun cs _ => hscans cs, fun ts rest hts _ => (hreads ts rest hts).imp ?_⟩
    rintro _ ⟨es, span, rfl, hes⟩
    have hlength : es.length = (t :: more).length := by rw [← hes, toTypeRefs_length]
    rw [toTypeRef_path (by rw [hlength]; exact h.2.2.2), hes]
  | .array t, h => by
    obtain ⟨us, hus⟩ := TypeRef.Writable.exists_tokens (t := t) h
    exact ⟨_, hus.array⟩
  | .async t, h => by
    obtain ⟨us, hus⟩ : ∃ us, NameTokens none "Async" us := exists_nameTokens (by simp) (by decide)
    obtain ⟨vs, hvs⟩ := TypeRef.Writable.exists_tokens (t := t) h
    have htext : (TypeRef.async t).text =
        modulePrefix none ++ "Async" ++ ("<" ++ (t.text ++ TypeRef.textMore []) ++ ">") := by
      rw [← String.toList_inj]
      simp [TypeRef.text, TypeRef.textMore, modulePrefix]
    obtain ⟨hscans, hreads⟩ := (ArgsTokens.last hvs).path hus htext
    refine ⟨_, fun cs _ => hscans cs, fun ts rest hts _ => (hreads ts rest hts).imp ?_⟩
    rintro _ ⟨es, span, rfl, hes⟩
    exact toTypeRef_async hes span

theorem TypeRef.WritableAll.exists_tokens : ∀ {ts : List TypeRef}, TypeRef.WritableAll ts →
    ∀ {t : TypeRef} {more : List TypeRef}, ts = t :: more → ∃ us, ArgsTokens t more us
  | [], _, _, _, h => by cases h
  | t :: [], h, _, _, rfl => by
    obtain ⟨us, hus⟩ := TypeRef.Writable.exists_tokens (t := t) h.1
    exact ⟨us, .last hus⟩
  | t :: u :: more, h, _, _, rfl => by
    obtain ⟨us, hus⟩ := TypeRef.Writable.exists_tokens (t := t) h.1
    obtain ⟨vs, hvs⟩ := TypeRef.WritableAll.exists_tokens h.2 rfl
    exact ⟨_, .cons hus hvs⟩

end

/-- The text of a type is read as the type. -/
theorem TypeRef.Writable.ofText (h : t.Writable) : TypeRef.ofText t.text = .ok t := by
  obtain ⟨us, hus⟩ := h.exists_tokens
  have hscans := hus.scans [] endsWord_nil
  rw [List.append_nil] at hscans
  obtain ⟨ls, hls, htokens⟩ := hscans.tokenize
  obtain ⟨ks, eof, rfl, hks, heof⟩ := List.map_eq_append_iff.mp htokens
  obtain ⟨l, rfl, hl⟩ := List.map_eq_singleton_iff.mp heof
  have hends : EndsType (peek [l]) := by
    have hp : peek [l] = .eof := hl
    rw [hp]
    exact ⟨by simp, by simp, by simp⟩
  obtain ⟨⟨e, _, hs⟩, hp, he, rfl⟩ := hus.reads (ks ++ [l]) [l] ⟨ks, hks, rfl⟩ hends
  have hparse : parseTypeExpr t.text = .ok e := by
    simp only [parseTypeExpr, hls, bind, Except.bind, hp, expect, if_pos hl]
    rfl
  rw [TypeRef.ofText, hparse]
  exact congrArg Except.ok he

end

end EndpointCompiler
