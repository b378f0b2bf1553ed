/-
  PocketC.Proofs.Grammar.Unbounded

  Reading without bounds.  The loops and the recursion of these readings go on as long as
  the tokens tell them to, and no count of tokens stops them.  `Readings` are the readings
  that recur, `Readings.turn` says what each of them does in terms of all of them, and
  `within d` are the readings of which no recursion goes deeper than `d`: one that would
  gives nothing, as one without an end does at every depth.  What neither repeats nor
  recurs is the grammar's own step.
-/

import PocketC.Grammar.Program
import PocketC.Proofs.Grammar.Derivation

namespace PocketC

open Parse

/-- A reading that may come to no end: from a parser to a result or an error, and the parser after
    it. -/
abbrev Unbounded (α : Type) : Type := ExceptT ParseError (StateT Parser Option) α

/-- How a reading ended, and the parser after it. -/
def ended {α : Type} : EStateM.Result ParseError Parser α → Except ParseError α × Parser
  | .ok a q => (.ok a, q)
  | .error e q => (.error e, q)

/-- The grammar's own steps end. -/
instance : MonadLift Parse Unbounded where
  monadLift x := fun p => some (ended (x p))

/-- The readings that recur. -/
structure Readings where
  /-- whether an `=` is behind the bracket that closes the first of `depth` open ones, looked for
      from `offset` on; nothing inside is a depth below zero -/
  assignBehind (s : Cursor) (depth offset : Nat) : Option (Option Bool)
  expression : Unbounded Expr
  /-- a value with any number of minus signs in front -/
  unary : Unbounded Expr
  /-- the operators of a tier with their right operands, behind `left` -/
  chain (level : BinaryTier) (left : Expr) : Unbounded Expr
  /-- one or more expressions with commas between them -/
  expressions : Unbounded (List Expr)
  /-- one or more declarators with commas between them -/
  groups (type : String) : Unbounded (List (List Stmt))
  statement : Unbounded Stmt
  /-- statements up to a `}` -/
  statements : Unbounded (List Stmt)
  /-- one or more parameters with commas between them -/
  paramList : Unbounded (List Param)
  /-- the nodes of a program up to the end of the input -/
  nodes : Unbounded (List Stmt)

namespace Readings

/-! ## Repeating -/

/-- Reads an item, and goes on with `more` behind a comma. -/
def separated {α : Type} (item : Unbounded α) (more : Unbounded (List α)) :
    Unbounded (List α) := do
  let first ← item
  if ← accept .comma then return first :: (← more)
  else return [first]

/-- Reads nothing if a token of kind `stop` is next, else an item, and goes on with `more`. -/
def repeated {α : Type} (stop : Kind) (item : Unbounded α) (more : Unbounded (List α)) :
    Unbounded (List α) := do
  if ← sees stop 0 then return []
  else
    let first ← item
    return first :: (← more)

variable (r : Readings)

/-! ## Expressions -/

/-- Reads expressions with commas between them, or none if a token of kind `stop` is next. -/
def arguments (stop : Kind) : Unbounded (List Expr) := do
  if ← sees stop 0 then return []
  else r.expressions

/-- Reads `name(args)`. -/
def call : Unbounded Expr := do
  let l ← here
  let name ← identifier
  let _ ← expect .openParen
  let args ← r.arguments .closeParen
  let _ ← expect .closeParen
  return .call name args l

/-- Reads `name` or `name[index]`. -/
def nameOrElement : Unbounded Expr := do
  let l ← here
  let name ← identifier
  if ← accept .openBracket then
    let index ← r.expression
    let _ ← expect .closeBracket
    return .element name index l
  else return .var name l

/-- Reads `{elements}`. -/
def arrayLiteral : Unbounded Expr := do
  let token ← expect .openBrace
  let elements ← r.arguments .closeBrace
  let _ ← expect .closeBrace
  return .array elements token.location

/-- Reads `(expr)`. -/
def parenthesized : Unbounded Expr := do
  let _ ← expect .openParen
  let e ← r.expression
  let _ ← expect .closeParen
  return e

/-- Reads a value. -/
def value : Unbounded Expr := do
  match (← peek 0).kind with
  | .intLiteral => Grammar.literal .intLiteral Grammar.intMeaning .int
  | .stringLiteral => Grammar.literal .stringLiteral Grammar.stringMeaning .string
  | .charLiteral => Grammar.literal .charLiteral Grammar.charMeaning .char
  | .openBrace => r.arrayLiteral
  | .identifier =>
    if ← sees .openParen 1 then r.call
    else r.nameOrElement
  | _ => r.parenthesized

/-- Reads a tier: operands with operators of the tier between them. -/
def tier (level : BinaryTier) (operand : Unbounded Expr) : Unbounded Expr := do
  let left ← operand
  r.chain level left

/-- Reads an operand of a tier. -/
def operand : BinaryTier → Unbounded Expr
  | .multiplicative => r.unary
  | .additive => r.tier .multiplicative r.unary
  | .relational => r.tier .additive (r.tier .multiplicative r.unary)
  | .equality => r.tier .relational (r.tier .additive (r.tier .multiplicative r.unary))

/-- Whether `name [ ... ] =` is next: `some none` is a depth below zero. -/
def elementAssignmentNext (s : Cursor) : Option (Option Bool) :=
  if s.sees .identifier 0 && s.sees .openBracket 1 then r.assignBehind s 0 1
  else some (some false)

/-- Whether `name [ ... ] =` is next; a depth below zero gives nothing. -/
def atElementAssignment : Unbounded Bool := fun p => do
  let found ← r.elementAssignmentNext p.cursor
  return (.ok (← found), p)

/-- Reads `name = expr`. -/
def nameAssignment : Unbounded Expr := do
  let l ← here
  let name ← identifier
  let _ ← expect .assign
  let value ← r.expression
  return .assign name value l

/-- Reads `name[expr] = expr`. -/
def elementAssignment : Unbounded Expr := do
  let l ← here
  let name ← identifier
  let _ ← expect .openBracket
  let index ← r.expression
  let _ ← expect .closeBracket
  let _ ← expect .assign
  let value ← r.expression
  return .assignElement name index value l

/-! ## Variables -/

/-- Reads the `[size]` or `[]` behind a name, if it is there. -/
def arraySuffix (type : String) : Unbounded (String × Option Expr) := do
  if ← accept .openBracket then
    if ← accept .closeBracket then return (type ++ "[]", none)
    else
      let size ← r.expression
      let _ ← expect .closeBracket
      return (type ++ "[]", some size)
  else return (type, none)

/-- Reads one declarator. -/
def declarator (type : String) : Unbounded (List Stmt) := do
  let l ← here
  let name ← identifier
  let (type, size) ← r.arraySuffix type
  if ← accept .assign then
    let value ← r.expression
    return [.declareVar name type size l, .expression (.assign name value l)]
  else return [.declareVar name type size l]

/-- Reads the declarators that share one type. -/
def declarators : Unbounded Stmt := do
  let type ← identifier
  let groups ← r.groups type
  return .group groups.flatten

/-! ## Simple statements -/

/-- Reads `return`, with a value unless the statement ends there. -/
def returning : Unbounded Stmt := do
  let token ← expect .kwReturn
  if ← sees .semicolon 0 then return .returnValue none token.location
  else return .returnValue (some (← r.expression)) token.location

/-- Reads a built-in operation with its arguments. -/
def intrinsicCall : Unbounded Stmt := do
  let token ← expect .intrinsic
  let _ ← expect .openParen
  let args ← r.arguments .closeParen
  let _ ← expect .closeParen
  return .intrinsic token.text args token.location

/-- Reads a declaration of variables or an expression. -/
def variablesOrExpression : Unbounded Stmt := do
  if ← Grammar.atDeclaration then r.declarators
  else return .expression (← r.expression)

/-- Reads a statement that a `;` ends, up to the `;`. -/
def simple : Unbounded Stmt := do
  match (← peek 0).kind with
  | .kwBreak => Grammar.jump .kwBreak .breakLoop
  | .kwContinue => Grammar.jump .kwContinue .continueLoop
  | .kwReturn => r.returning
  | .intrinsic => r.intrinsicCall
  | _ => r.variablesOrExpression

/-! ## Compound statements -/

/-- Reads `{ statements }` and gives the statements. -/
def braces : Unbounded (List Stmt) := do
  let _ ← expect .openBrace
  let body ← r.statements
  let _ ← expect .closeBrace
  return body

/-- Reads a branch of a conditional. -/
def branch : Unbounded Stmt := do
  if ← Grammar.atDeclaration then
    let l ← here
    let declaration ← r.statement
    return .block [declaration] l
  else r.statement

/-- Reads an expression in parentheses. -/
def condition : Unbounded Expr := do
  let _ ← expect .openParen
  let e ← r.expression
  let _ ← expect .closeParen
  return e

/-- Reads the `else` branch if there is one. -/
def elseBranch : Unbounded Stmt := do
  if ← accept .kwElse then r.branch
  else return .group []

/-- Reads `if (condition) branch` and the `else` branch. -/
def conditional : Unbounded Stmt := do
  let token ← expect .kwIf
  let test ← r.condition
  let yes ← r.branch
  let no ← r.elseBranch
  return .ifElse test yes no token.location

/-- Reads the body of a loop: one more loop is open while it is read, whether that succeeds or
    fails. -/
def loopBody : Unbounded Stmt := fun p => do
  let (result, q) ← r.statement { p with openLoops := p.openLoops + 1 }
  return (result, { q with openLoops := q.openLoops - 1 })

/-- Reads `while (condition) statement`. -/
def whileStatement : Unbounded Stmt := do
  let token ← expect .kwWhile
  let test ← r.condition
  let body ← r.loopBody
  return .whileLoop test body token.location

/-- Reads `for (init; condition; step) statement`. -/
def forStatement : Unbounded Stmt := do
  let token ← expect .kwFor
  let _ ← expect .openParen
  let init ← r.variablesOrExpression
  let _ ← expect .semicolon
  let test ← r.expression
  let _ ← expect .semicolon
  let step ← r.expression
  let _ ← expect .closeParen
  let body ← r.loopBody
  return .forLoop init test step body token.location

/-! ## Programs -/

/-- Reads the parameters of a function; a lone `void` says that there are none. -/
def params : Unbounded (List Param) := do
  if ← sees .closeParen 0 then return []
  else if ← Grammar.atVoid then
    let _ ← expect .identifier
    return []
  else r.paramList

/-- Reads a function: its declaration, or its declaration and its body. -/
def function : Unbounded Stmt := do
  let l ← here
  let result ← identifier
  let name ← identifier
  let _ ← expect .openParen
  let ps ← r.params
  let _ ← expect .closeParen
  if ← sees .openBrace 0 then
    let body ← r.braces
    return .group [.declareFun name result ps l, .defineFun name result ps body l]
  else
    let _ ← expect .semicolon
    return .declareFun name result ps l

/-- Reads one node of a program. -/
def topLevel : Unbounded Stmt := do
  if ← sees .openParen 2 then r.function
  else
    let s ← r.declarators
    let _ ← expect .semicolon
    return s

/-- Reads a program from one end of the input to the other. -/
def program : Unbounded Program := do
  let _ ← expect .startOfInput
  let nodes ← r.nodes
  let _ ← expect .endOfInput
  return ⟨nodes⟩

/-! ## Recursion -/

/-- What the readings do that recur by `r`. -/
def turn : Readings where
  assignBehind s depth offset :=
    match (s.peek offset).kind, depth with
    | .openBracket, depth => r.assignBehind s (depth + 1) (offset + 1)
    | .closeBracket, 0 => some none
    | .closeBracket, 1 => some (some (s.sees .assign (offset + 1)))
    | .closeBracket, depth + 2 => r.assignBehind s (depth + 1) (offset + 1)
    | .endOfInput, _ => some (some false)
    | _, depth => r.assignBehind s depth (offset + 1)
  expression := do
    if ← Grammar.atAssignment then r.nameAssignment
    else if ← r.atElementAssignment then r.elementAssignment
    else r.tier .equality (r.operand .equality)
  unary := do
    let l ← here
    if ← accept .minus then
      let operand ← r.unary
      return .negate operand l
    else r.value
  chain level left := do
    let token ← peek 0
    match level.operator token.kind with
    | none => return left
    | some op =>
      let _ ← expect token.kind
      let right ← r.operand level
      r.chain level (.binary op left right token.location)
  expressions := separated r.expression r.expressions
  groups type := separated (r.declarator type) (r.groups type)
  statement := do
    match (← peek 0).kind with
    | .openBrace =>
      let l ← here
      let body ← r.braces
      return .block body l
    | .kwIf => r.conditional
    | .kwWhile => r.whileStatement
    | .kwFor => r.forStatement
    | _ =>
      let s ← r.simple
      let _ ← expect .semicolon
      return s
  statements := repeated .closeBrace r.statement r.statements
  paramList := separated (liftM Grammar.param) r.paramList
  nodes := repeated .endOfInput r.topLevel r.nodes

/-- The readings that give nothing. -/
def nothing : Readings where
  assignBehind _ _ _ := none
  expression _ := none
  unary _ := none
  chain _ _ _ := none
  expressions _ := none
  groups _ _ := none
  statement _ := none
  statements _ := none
  paramList _ := none
  nodes _ := none

/-- The readings of which no recursion goes deeper than that. -/
def within : (depth : Nat) → Readings
  | 0 => nothing
  | depth + 1 => (within depth).turn

end Readings

end PocketC
