import EndpointCompiler.Proofs.Source.Bare
import EndpointCompiler.Proofs.Source.TypeText

/-! The grammar of the source language. A phrase relates the tokens that are written to the tree
that they stand for, without its ranges; the readers have no part in it. -/

namespace EndpointCompiler.Source

/-- Lists of tokens, each with a tree that it is written for. -/
abbrev Phrase (α : Type) := List Token → α → Prop

section

variable {α : Type}

/-- `x*` -/
inductive Repeated (P : Phrase α) : Phrase (List α)
  | nil : Repeated P [] []
  | cons {us vs : List Token} {a : α} {as : List α} :
      P us a → Repeated P vs as → Repeated P (us ++ vs) (a :: as)

/-- `x (',' x)*` -/
inductive Separated (P : Phrase α) : Phrase (List α)
  | last {us : List Token} {a : α} : P us a → Separated P us [a]
  | cons {us vs : List Token} {a : α} {as : List α} :
      P us a → Separated P vs as → Separated P (us ++ .punct .comma :: vs) (a :: as)

/-- `(x (',' x)* ','?)?` -/
inductive Listed (P : Phrase α) : Phrase (List α)
  | nil : Listed P [] []
  | plain {us : List Token} {as : List α} : Separated P us as → Listed P us as
  | trailing {us : List Token} {as : List α} :
      Separated P us as → Listed P (us ++ [.punct .comma]) as

end

/-- `(ID ('.' ID)* '::')? ID` -/
inductive NamePhrase : Phrase (Option ModuleId × String)
  | plain (n : String) : NamePhrase [.ident n] (none, n)
  | inModule (m : String) (more : List String) (n : String) :
      NamePhrase (.ident m :: pathTokens more ++ [.punct .doubleColon, .ident n])
        (some (".".intercalate (m :: more)), n)

/-- `'[' type ']' | name ('<' type (',' type)* '>')?` -/
inductive TypePhrase : Phrase TypeExpr
  | array {us : List Token} {t : TypeExpr} :
      TypePhrase us t →
      TypePhrase (.punct .leftBracket :: us ++ [.punct .rightBracket]) (.array t noSpan)
  | name {us : List Token} {module : Option ModuleId} {n : String} :
      NamePhrase us (module, n) → TypePhrase us (.path module n [] noSpan)
  | apply {us vs : List Token} {module : Option ModuleId} {n : String} {ts : List TypeExpr} :
      NamePhrase us (module, n) → Separated TypePhrase vs ts →
      TypePhrase (us ++ .punct .less :: vs ++ [.punct .greater]) (.path module n ts noSpan)

/-- `('::' '<' type (',' type)* '>')?` -/
inductive TypeArgsPhrase : Phrase (List TypeExpr)
  | none : TypeArgsPhrase [] []
  | some {us : List Token} {ts : List TypeExpr} :
      Separated TypePhrase us ts →
      TypeArgsPhrase (.punct .doubleColon :: .punct .less :: us ++ [.punct .greater]) ts

/-- `ID '=' expr` -/
inductive InitPhrase (P : Phrase Expr) : Phrase (Ident × Expr)
  | assign (n : String) {us : List Token} {e : Expr} :
      P us e → InitPhrase P (.ident n :: .punct .equals :: us) (⟨n, noSpan⟩, e)

/-- Fields taken one after another. -/
def chained (names : List String) (base : Expr) : Expr :=
  names.foldl (fun e n => .field e ⟨n, noSpan⟩ noSpan) base

/-- `'await' expr | 'new' type '{' list(init) '}' | ID ('.' ID)*` and
`ID ('::' '<' types '>')? '(' list(expr) ')'` -/
inductive ExprPhrase : Phrase Expr
  | await {us : List Token} {e : Expr} :
      ExprPhrase us e → ExprPhrase (.keyword .await :: us) (.await e noSpan)
  | new {us vs : List Token} {t : TypeExpr} {inits : List (Ident × Expr)} :
      TypePhrase us t → Listed (InitPhrase ExprPhrase) vs inits →
      ExprPhrase (.keyword .new :: us ++ .punct .leftBrace :: vs ++ [.punct .rightBrace])
        (.new t inits noSpan)
  | chain (n : String) (more : List String) :
      ExprPhrase (.ident n :: pathTokens more) (chained more (.var ⟨n, noSpan⟩))
  | call (n : String) {us vs : List Token} {ts : List TypeExpr} {es : List Expr} :
      TypeArgsPhrase us ts → Listed ExprPhrase vs es →
      ExprPhrase (.ident n :: us ++ .punct .leftParen :: vs ++ [.punct .rightParen])
        (.call ⟨n, noSpan⟩ ts es noSpan)

/-- `'let' ID '=' expr ';' | 'return' expr ';'` -/
inductive StmtPhrase : Phrase Stmt
  | bind (n : String) {us : List Token} {e : Expr} :
      ExprPhrase us e →
      StmtPhrase (.keyword .bind :: .ident n :: .punct .equals :: us ++ [.punct .semicolon])
        (.bind ⟨n, noSpan⟩ e noSpan)
  | result {us : List Token} {e : Expr} :
      ExprPhrase us e →
      StmtPhrase (.keyword .result :: us ++ [.punct .semicolon]) (.result e noSpan)

/-- `STR | type` -/
inductive ArgPhrase : Phrase AttributeArg
  | text (w : String) : ArgPhrase [.text w] (.text w noSpan)
  | type {us : List Token} {t : TypeExpr} : TypePhrase us t → ArgPhrase us (.type t)

/-- `('(' list(arg) ')')?` -/
inductive ArgsPhrase : Phrase (List AttributeArg)
  | none : ArgsPhrase [] []
  | some {us : List Token} {as : List AttributeArg} :
      Listed ArgPhrase us as →
      ArgsPhrase (.punct .leftParen :: us ++ [.punct .rightParen]) as

/-- `'#' '[' ID args ']'` -/
inductive AttributePhrase : Phrase Attribute
  | mk (n : String) {us : List Token} {as : List AttributeArg} :
      ArgsPhrase us as →
      AttributePhrase (.punct .hash :: .punct .leftBracket :: .ident n :: us ++
        [.punct .rightBracket]) ⟨⟨n, noSpan⟩, as, noSpan⟩

/-- `ID ':' type` -/
inductive TypedPhrase : Phrase (Ident × TypeExpr)
  | mk (n : String) {us : List Token} {t : TypeExpr} :
      TypePhrase us t → TypedPhrase (.ident n :: .punct .colon :: us) (⟨n, noSpan⟩, t)

/-- A field is a name with its type. -/
inductive FieldPhrase : Phrase FieldDecl
  | mk {us : List Token} {n : Ident} {t : TypeExpr} :
      TypedPhrase us (n, t) → FieldPhrase us ⟨n, t⟩

/-- `attr* ID ':' type` -/
inductive ParamPhrase : Phrase ParamDecl
  | mk {us vs : List Token} {as : List Attribute} {n : Ident} {t : TypeExpr} :
      Repeated AttributePhrase us as → TypedPhrase vs (n, t) → ParamPhrase (us ++ vs) ⟨as, n, t⟩

/-- `'shape' ID '{' list(field) '}'`, the attributes apart. -/
inductive ShapePhrase (as : List Attribute) : Phrase ShapeDecl
  | mk (n : String) {us : List Token} {fields : List FieldDecl} :
      Listed FieldPhrase us fields →
      ShapePhrase as (.keyword .shape :: .ident n :: .punct .leftBrace :: us ++
        [.punct .rightBrace]) ⟨as, ⟨n, noSpan⟩, fields, noSpan⟩

/-- `'op' ID '(' list(param) ')' '->' type '{' stmt* '}'`, the attributes apart. -/
inductive OpPhrase (as : List Attribute) (isAsync : Bool) : Phrase OpDecl
  | mk (n : String) {us vs ws : List Token} {params : List ParamDecl} {result : TypeExpr}
      {body : List Stmt} :
      Listed ParamPhrase us params → TypePhrase vs result → Repeated StmtPhrase ws body →
      OpPhrase as isAsync
        (.keyword .op :: .ident n :: .punct .leftParen :: us ++ .punct .rightParen ::
          .punct .arrow :: vs ++ .punct .leftBrace :: ws ++ [.punct .rightBrace])
        ⟨as, isAsync, ⟨n, noSpan⟩, params, result, body, noSpan⟩

/-- `attr* (shape | 'async'? op)` -/
inductive ItemPhrase : Phrase Item
  | shape {us vs : List Token} {as : List Attribute} {d : ShapeDecl} :
      Repeated AttributePhrase us as → ShapePhrase as vs d → ItemPhrase (us ++ vs) (.shape d)
  | op {us vs : List Token} {as : List Attribute} {d : OpDecl} :
      Repeated AttributePhrase us as → OpPhrase as false vs d → ItemPhrase (us ++ vs) (.op d)
  | asyncOp {us vs : List Token} {as : List Attribute} {d : OpDecl} :
      Repeated AttributePhrase us as → OpPhrase as true vs d →
      ItemPhrase (us ++ .keyword .async :: vs) (.op d)

/-- A file is any number of declarations. -/
abbrev FilePhrase : Phrase (List Item) :=
  Repeated ItemPhrase

end EndpointCompiler.Source
