import EndpointCompiler.Source.Lexer
import EndpointCompiler.Source.Tree
import EndpointCompiler.Text.Parsed

/-! Reading trees from tokens. A reader takes tokens from the front of a list that ends with the
end of input, and looks at most two tokens ahead. -/

namespace EndpointCompiler.Source

abbrev Tokens := List Lexeme

/-- The result of taking something from the front of a token list shorter than a bound. -/
abbrev Step (α : Type) (bound : Nat) := Except SourceError (Parsed α Lexeme bound)

def peek : Tokens → Token
  | [] => .eof
  | l :: _ => l.token

def here : Tokens → Span
  | [] => ⟨0, 0⟩
  | l :: _ => l.span

def unexpected (what : Expected) (ts : Tokens) : SourceError :=
  ⟨.expected what (peek ts), here ts⟩

def expect (t : Token) (ts : Tokens) : Step Span ts.length :=
  match ts with
  | [] => .error (unexpected (.token t) [])
  | l :: rest =>
    if l.token = t then .ok ⟨l.span, rest, by simp⟩
    else .error (unexpected (.token t) (l :: rest))

abbrev expectMark (p : Punct) (ts : Tokens) : Step Span ts.length :=
  expect (.punct p) ts

def ident (ts : Tokens) : Step Ident ts.length :=
  match ts with
  | [] => .error (unexpected .identifier [])
  | l :: rest =>
    match l.token with
    | .ident name => .ok ⟨⟨name, l.span⟩, rest, by simp⟩
    | _ => .error (unexpected .identifier (l :: rest))

def skip (t : Token) (ts : Tokens) : Parsed Bool Lexeme (ts.length + 1) :=
  match ts with
  | [] => .none false []
  | l :: rest =>
    if l.token = t then ⟨true, rest, Nat.lt_succ_of_lt (Nat.lt_succ_self _)⟩
    else .none false (l :: rest)

abbrev BoundedReader (α : Type) (bound : Nat) :=
  (ts : Tokens) → ts.length < bound → Step α ts.length

def commaSeparated {α : Type} (bound : Nat) (item : BoundedReader α bound) (ts : Tokens)
    (h : ts.length < bound) : Step (List α) ts.length := do
  let first ← item ts h
  match hr : first.rest with
  | [] => return ⟨[first.value], [], hr ▸ first.short⟩
  | l :: rest =>
    have hl : rest.length < ts.length := by
      have := first.short
      simp only [hr, List.length_cons] at this
      omega
    if l.token = .punct .comma then
      let more ← commaSeparated bound item rest (Nat.lt_trans hl h)
      return ⟨first.value :: more.value, more.rest, Nat.lt_trans more.short hl⟩
    else return ⟨[first.value], l :: rest, hr ▸ first.short⟩
termination_by ts.length

/-- Things with commas between them up to a closing mark, which stays; a comma may stand after
the last one. -/
def commaList {α : Type} (bound : Nat) (close : Punct) (item : BoundedReader α bound) (ts : Tokens)
    (h : ts.length < bound) : Step (List α) (ts.length + 1) :=
  if peek ts = .punct close then .ok (.none [] ts)
  else do
    let first ← item ts h
    match hr : first.rest with
    | [] => return ⟨[first.value], [], by simp⟩
    | l :: rest =>
      have hl : (l :: rest).length < ts.length := hr ▸ first.short
      have hl' : rest.length < ts.length := by
        simp only [List.length_cons] at hl
        omega
      if l.token = .punct .comma then
        let more ← commaList bound close item rest (Nat.lt_trans hl' h)
        return ⟨first.value :: more.value, more.rest, by
          have := more.short
          omega⟩
      else return ⟨[first.value], l :: rest, Nat.lt_succ_of_lt hl⟩
termination_by ts.length

def pathRest (ts : Tokens) : Step (List Ident) (ts.length + 1) :=
  match ts with
  | [] => .ok (.none [] [])
  | l :: rest =>
    if l.token = .punct .dot then do
      let segment ← ident rest
      have := segment.short
      let more ← pathRest segment.rest
      return ⟨segment.value :: more.value, more.rest, by
        have := more.short
        simp only [List.length_cons]
        omega⟩
    else .ok (.none [] (l :: rest))
termination_by ts.length
decreasing_by simp only [List.length_cons]; omega

def typeName (ts : Tokens) : Step (Option ModuleId × Ident) ts.length := do
  let first ← ident ts
  let more ← pathRest first.rest
  have hm : more.rest.length < ts.length := by
    have := first.short
    have := more.short
    omega
  let separator := skip (.punct .doubleColon) more.rest
  if separator.value then
    let name ← ident separator.rest
    let path := ".".intercalate ((first.value :: more.value).map (·.name))
    return ⟨(some path, name.value), name.rest, by
      have := name.short
      have := separator.short
      omega⟩
  else if more.value.isEmpty then return ⟨(none, first.value), more.rest, hm⟩
  else throw (unexpected .moduleSeparator more.rest)

def typeExpr (ts : Tokens) : Step TypeExpr ts.length :=
  match ts with
  | [] => .error (unexpected .identifier [])
  | l :: tail =>
    if l.token = .punct .leftBracket then do
      let element ← typeExpr tail
      let close ← expectMark .rightBracket element.rest
      return ⟨.array element.value ⟨l.span.start, close.value.stop⟩, close.rest, by
        have := element.short
        have := close.short
        simp only [List.length_cons]
        omega⟩
    else do
      let name ← typeName (l :: tail)
      have hn := name.short
      let (module, ident) := name.value
      let opening := skip (.punct .less) name.rest
      if hl : opening.value = true then
        have ho : opening.rest.length < (l :: tail).length := by
          have := opening.short
          omega
        let args ← commaSeparated (opening.rest.length + 1)
          (fun ts _ => typeExpr ts) opening.rest (Nat.lt_succ_self _)
        let close ← expectMark .greater args.rest
        return ⟨.path module ident.name args.value ⟨l.span.start, close.value.stop⟩,
          close.rest, by
            have := args.short
            have := close.short
            omega⟩
      else
        return ⟨.path module ident.name [] ⟨l.span.start, ident.span.stop⟩, name.rest, hn⟩
termination_by ts.length
decreasing_by
  · simp
  · omega

/-- Fields taken from a value one after another, each after a point. -/
def fieldChain (base : Expr) (ts : Tokens) : Step Expr (ts.length + 1) :=
  match ts with
  | [] => .ok (.none base [])
  | l :: rest =>
    if l.token = .punct .dot then do
      let name ← ident rest
      have := name.short
      let taken : Expr := .field base name.value ⟨base.span.start, name.value.span.stop⟩
      let chain ← fieldChain taken name.rest
      return chain.weaken (by simp only [List.length_cons]; omega)
    else .ok (.none base (l :: rest))
termination_by ts.length
decreasing_by simp only [List.length_cons]; omega

def atTypeArgs : Tokens → Bool
  | l :: m :: _ => l.token = .punct .doubleColon && m.token = .punct .less
  | _ => false

def typeArgs (ts : Tokens) : Step (List TypeExpr) (ts.length + 1) :=
  if atTypeArgs ts then do
    let separator ← expectMark .doubleColon ts
    let opening ← expectMark .less separator.rest
    let args ← commaSeparated (opening.rest.length + 1)
      (fun ts _ => typeExpr ts) opening.rest (Nat.lt_succ_self _)
    let close ← expectMark .greater args.rest
    return ⟨args.value, close.rest, by
      have := separator.short
      have := opening.short
      have := args.short
      have := close.short
      omega⟩
  else .ok (.none [] ts)

/-- An expression: a name with the fields taken from it, a call, a new object or an awaited
expression. -/
def expr (ts : Tokens) : Step Expr ts.length :=
  match ts with
  | [] => .error (unexpected .expression [])
  | l :: tail =>
    match l.token with
    | .keyword .await => do
      let inner ← expr tail
      return ⟨.await inner.value ⟨l.span.start, inner.value.span.stop⟩, inner.rest, by
        have := inner.short
        simp only [List.length_cons]
        omega⟩
    | .keyword .new => do
      let type ← typeExpr tail
      let opening ← expectMark .leftBrace type.rest
      have ho : opening.rest.length < tail.length := by
        have := type.short
        have := opening.short
        omega
      let fields ← commaList (opening.rest.length + 1) .rightBrace
        (fun ts h => do
          let name ← ident ts
          let equals ← expectMark .equals name.rest
          have he : equals.rest.length < ts.length := by
            have := name.short
            have := equals.short
            omega
          let value ← expr equals.rest
          return ⟨(name.value, value.value), value.rest, Nat.lt_trans value.short he⟩)
        opening.rest (Nat.lt_succ_self _)
      let close ← expectMark .rightBrace fields.rest
      return ⟨.new type.value fields.value ⟨l.span.start, close.value.stop⟩, close.rest, by
        have := fields.short
        have := close.short
        simp only [List.length_cons]
        omega⟩
    | .ident name =>
      if atTypeArgs tail ∨ peek tail = .punct .leftParen then do
        let types ← typeArgs tail
        let opening ← expectMark .leftParen types.rest
        have ho : opening.rest.length < tail.length := by
          have := types.short
          have := opening.short
          omega
        let args ← commaList (opening.rest.length + 1) .rightParen
          (fun ts h => expr ts) opening.rest (Nat.lt_succ_self _)
        let close ← expectMark .rightParen args.rest
        return ⟨.call ⟨name, l.span⟩ types.value args.value ⟨l.span.start, close.value.stop⟩,
          close.rest, by
            have := args.short
            have := close.short
            simp only [List.length_cons]
            omega⟩
      else (fieldChain (.var ⟨name, l.span⟩) tail).map (·.weaken (by simp))
    | _ => .error (unexpected .expression (l :: tail))
termination_by ts.length
decreasing_by
  · simp
  · simp only [List.length_cons]
    omega
  · simp only [List.length_cons]
    omega

def stmt (ts : Tokens) : Step Stmt ts.length :=
  match ts with
  | [] => .error (unexpected .statement [])
  | l :: tail =>
    match l.token with
    | .keyword .bind => do
      let name ← ident tail
      let equals ← expectMark .equals name.rest
      let value ← expr equals.rest
      let close ← expectMark .semicolon value.rest
      return ⟨.bind name.value value.value ⟨l.span.start, close.value.stop⟩, close.rest, by
        have := name.short
        have := equals.short
        have := value.short
        have := close.short
        simp only [List.length_cons]
        omega⟩
    | .keyword .result => do
      let value ← expr tail
      let close ← expectMark .semicolon value.rest
      return ⟨.result value.value ⟨l.span.start, close.value.stop⟩, close.rest, by
        have := value.short
        have := close.short
        simp only [List.length_cons]
        omega⟩
    | _ => .error (unexpected .statement (l :: tail))

/-- Statements up to a closing brace, which stays. -/
def stmts (ts : Tokens) : Step (List Stmt) (ts.length + 1) :=
  if peek ts = .punct .rightBrace then .ok (.none [] ts)
  else do
    let first ← stmt ts
    have := first.short
    let more ← stmts first.rest
    return ⟨first.value :: more.value, more.rest, by
      have := more.short
      omega⟩
termination_by ts.length

def attributeArg (ts : Tokens) : Step AttributeArg ts.length :=
  match ts with
  | [] => .error (unexpected .identifier [])
  | l :: tail =>
    match l.token with
    | .text value => .ok ⟨.text value l.span, tail, by simp⟩
    | _ => (typeExpr (l :: tail)).map (·.map .type)

def attributeArgs (ts : Tokens) : Step (List AttributeArg) (ts.length + 1) :=
  if peek ts = .punct .leftParen then do
    let opening ← expectMark .leftParen ts
    let args ← commaList (opening.rest.length + 1) .rightParen
      (fun ts _ => attributeArg ts) opening.rest (Nat.lt_succ_self _)
    let close ← expectMark .rightParen args.rest
    return ⟨args.value, close.rest, by
      have := opening.short
      have := args.short
      have := close.short
      omega⟩
  else .ok (.none [] ts)

def attributes (ts : Tokens) : Step (List Attribute) (ts.length + 1) :=
  match ts with
  | [] => .ok (.none [] [])
  | l :: tail =>
    if l.token = .punct .hash then do
      let opening ← expectMark .leftBracket tail
      let name ← ident opening.rest
      let args ← attributeArgs name.rest
      let close ← expectMark .rightBracket args.rest
      have hc : close.rest.length < tail.length := by
        have := opening.short
        have := name.short
        have := args.short
        have := close.short
        omega
      let more ← attributes close.rest
      let a : Attribute := ⟨name.value, args.value, ⟨l.span.start, close.value.stop⟩⟩
      return ⟨a :: more.value, more.rest, by
        have := more.short
        simp only [List.length_cons]
        omega⟩
    else .ok (.none [] (l :: tail))
termination_by ts.length
decreasing_by simp only [List.length_cons]; omega

def typedName (ts : Tokens) : Step (Ident × TypeExpr) ts.length := do
  let name ← ident ts
  let colon ← expectMark .colon name.rest
  let type ← typeExpr colon.rest
  return ⟨(name.value, type.value), type.rest, by
    have := name.short
    have := colon.short
    have := type.short
    omega⟩

def fieldDecl (ts : Tokens) : Step FieldDecl ts.length :=
  (typedName ts).map (·.map fun (name, type) => ⟨name, type⟩)

def paramDecl (ts : Tokens) : Step ParamDecl ts.length := do
  let attrs ← attributes ts
  let typed ← typedName attrs.rest
  return ⟨⟨attrs.value, typed.value.1, typed.value.2⟩, typed.rest, by
    have := attrs.short
    have := typed.short
    omega⟩

def shapeDecl (attrs : List Attribute) (start : Nat) (ts : Tokens) : Step ShapeDecl ts.length := do
  let name ← ident ts
  let opening ← expectMark .leftBrace name.rest
  let fields ← commaList (opening.rest.length + 1) .rightBrace
    (fun ts _ => fieldDecl ts) opening.rest (Nat.lt_succ_self _)
  let close ← expectMark .rightBrace fields.rest
  return ⟨⟨attrs, name.value, fields.value, ⟨start, close.value.stop⟩⟩, close.rest, by
    have := name.short
    have := opening.short
    have := fields.short
    have := close.short
    omega⟩

def opDecl (attrs : List Attribute) (isAsync : Bool) (start : Nat) (ts : Tokens) :
    Step OpDecl ts.length := do
  let name ← ident ts
  let opening ← expectMark .leftParen name.rest
  let params ← commaList (opening.rest.length + 1) .rightParen
    (fun ts _ => paramDecl ts) opening.rest (Nat.lt_succ_self _)
  let close ← expectMark .rightParen params.rest
  let arrow ← expectMark .arrow close.rest
  let result ← typeExpr arrow.rest
  let brace ← expectMark .leftBrace result.rest
  let body ← stmts brace.rest
  let last ← expectMark .rightBrace body.rest
  return ⟨⟨attrs, isAsync, name.value, params.value, result.value, body.value,
      ⟨start, last.value.stop⟩⟩, last.rest, by
    have := name.short
    have := opening.short
    have := params.short
    have := close.short
    have := arrow.short
    have := result.short
    have := brace.short
    have := body.short
    have := last.short
    omega⟩

/-- A declaration with its attributes. It starts where they start. -/
def item (ts : Tokens) : Step Item ts.length := do
  let start := (here ts).start
  let attrs ← attributes ts
  match hr : attrs.rest with
  | [] => throw (unexpected .item [])
  | l :: tail =>
    have ht : tail.length < ts.length := by
      have := attrs.short
      simp only [hr, List.length_cons] at this
      omega
    match l.token with
    | .keyword .shape =>
      let decl ← shapeDecl attrs.value start tail
      return (decl.map .shape).weaken (Nat.le_of_lt ht)
    | .keyword .op =>
      let decl ← opDecl attrs.value false start tail
      return (decl.map .op).weaken (Nat.le_of_lt ht)
    | .keyword .async =>
      let op ← expect (.keyword .op) tail
      let decl ← opDecl attrs.value true start op.rest
      return (decl.map .op).weaken (by
        have := op.short
        omega)
    | _ => throw (unexpected .item (l :: tail))

def items (ts : Tokens) : Except SourceError (List Item) :=
  if peek ts = .eof then .ok []
  else do
    let first ← item ts
    have := first.short
    let more ← items first.rest
    return first.value :: more
termination_by ts.length

def parseSource (text : String) : Except SourceError (List Item) := do
  items (← tokenize text)

def parseTypeExpr (text : String) : Except SourceError TypeExpr := do
  let type ← typeExpr (← tokenize text)
  let _ ← expect .eof type.rest
  return type.value

end EndpointCompiler.Source
