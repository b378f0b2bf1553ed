/-
  PocketC.Grammar.Expr

  Reading expressions.  Tightest to loosest:

    value          ::= literal | "{" args "}" | name "(" args ")" | name "[" expr "]"
                     | name | "(" expr ")"
    unary          ::= "-" unary | value
    multiplicative ::= unary ( ("*" | "/" | "%") unary )*
    additive       ::= multiplicative ( ("+" | "-") multiplicative )*
    relational     ::= additive ( ("<" | ">" | "<=" | ">=") additive )*
    equality       ::= relational ( ("==" | "!=") relational )*
    expr           ::= name "=" expr | name "[" expr "]" "=" expr | equality

  Operators of one tier group to the left, assignments to the right.  The number
  that each reading takes bounds the tokens left, as in `PocketC.Grammar.Parser`.
-/

import PocketC.Grammar.Parser
import PocketC.Text.Escape
import PocketC.Text.Numeral
import PocketC.Tree.Expr

namespace PocketC
namespace Grammar

open Parse

/-! ## Literals -/

/-- The number that an int literal stands for. -/
def intMeaning (text : String) : Option Int := Text.readWord? text.toList

/-- The text that a string literal stands for. -/
def stringMeaning (text : String) : Option String :=
  (Text.decode text.toList).map String.ofList

/-- The character that a char literal stands for: it has to be exactly one. -/
def charMeaning (text : String) : Option Char :=
  match Text.decode text.toList with
  | some [c] => some c
  | _ => none

/-- Reads a literal of kind `k`, whose text has to have a meaning. -/
def literal {α : Type} (k : Kind) (meaning : String → Option α)
    (node : α → Location → Expr) : Parse Expr := do
  let token ← expect k
  match meaning token.text with
  | some a => return node a token.location
  | none => misfit (.unreadableLiteral token.kind token.text) token.location

/-! ## Values -/

/-- Reads `name(args)`. -/
def call (expr : Parse Expr) (bound : Nat) : Parse Expr := do
  let l ← here
  let name ← identifier
  let _ ← expect .openParen
  let args ← listUntil .closeParen expr bound
  let _ ← expect .closeParen
  return .call name args l

/-- Reads `name` or `name[index]`. -/
def nameOrElement (expr : Parse Expr) : Parse Expr := do
  let l ← here
  let name ← identifier
  if ← accept .openBracket then
    let index ← expr
    let _ ← expect .closeBracket
    return .element name index l
  else return .var name l

/-- Reads `{elements}`. -/
def arrayLiteral (expr : Parse Expr) (bound : Nat) : Parse Expr := do
  let token ← expect .openBrace
  let elements ← listUntil .closeBrace expr bound
  let _ ← expect .closeBrace
  return .array elements token.location

/-- Reads `(expr)`, which is the inner expression itself. -/
def parenthesized (expr : Parse Expr) : Parse Expr := do
  let _ ← expect .openParen
  let e ← expr
  let _ ← expect .closeParen
  return e

/-- Reads a value; whatever begins no other one has to be in parentheses. -/
def value (expr : Parse Expr) (bound : Nat) : Parse Expr := do
  match (← peek 0).kind with
  | .intLiteral => literal .intLiteral intMeaning .int
  | .stringLiteral => literal .stringLiteral stringMeaning .string
  | .charLiteral => literal .charLiteral charMeaning .char
  | .openBrace => arrayLiteral expr bound
  | .identifier =>
    if ← sees .openParen 1 then call expr bound
    else nameOrElement expr
  | _ => parenthesized expr

/-! ## Operators -/

/-- Reads a value with any number of minus signs in front. -/
def unary (value : Parse Expr) : (bound : Nat) → Parse Expr
  | 0 => value
  | bound + 1 => do
    let l ← here
    if ← accept .minus then
      let operand ← unary value bound
      return .negate operand l
    else value

/-- The operators that bind tightest. -/
def multiplicativeOp : Kind → Option BinaryOp
  | .star => some .mul
  | .slash => some .div
  | .percent => some .rem
  | _ => none

/-- The signs between terms. -/
def additiveOp : Kind → Option BinaryOp
  | .plus => some .add
  | .minus => some .sub
  | _ => none

/-- The comparisons by order. -/
def relationalOp : Kind → Option BinaryOp
  | .less => some .lt
  | .lessEq => some .le
  | .greater => some .gt
  | .greaterEq => some .ge
  | _ => none

/-- The comparisons for equality. -/
def equalityOp : Kind → Option BinaryOp
  | .equal => some .eq
  | .notEqual => some .ne
  | _ => none

/-- Reads on after `left`: as long as an operator of the tier is next, it and its
    right operand. -/
def chain (operator : Kind → Option BinaryOp) (operand : Parse Expr) :
    (bound : Nat) → (left : Expr) → Parse Expr
  | 0, left => pure left
  | bound + 1, left => do
    let token ← peek 0
    match operator token.kind with
    | none => return left
    | some op =>
      let _ ← expect token.kind
      let right ← operand
      chain operator operand bound (.binary op left right token.location)

/-- Reads a tier: operands with operators of the tier between them. -/
def tier (operator : Kind → Option BinaryOp) (bound : Nat) (operand : Parse Expr) :
    Parse Expr := do
  let left ← operand
  chain operator operand bound left

/-- Reads everything that binds tighter than an assignment. -/
def equality (bound : Nat) (unary : Parse Expr) : Parse Expr :=
  tier equalityOp bound <| tier relationalOp bound <| tier additiveOp bound <|
    tier multiplicativeOp bound unary

/-! ## Assignments -/

/-- Whether the bracket that is open in front of these tokens is closed right
    before an `=`; `depth` more have been opened since and are still open. -/
def assignFollows : (depth : Nat) → List Token → Bool
  | _, [] => false
  | depth, t :: ts =>
    match t.kind, depth with
    | .openBracket, depth => assignFollows (depth + 1) ts
    | .closeBracket, 0 => ts.head?.any (·.kind == .assign)
    | .closeBracket, depth + 1 => assignFollows depth ts
    | .endOfInput, _ => false
    | _, depth => assignFollows depth ts

/-- Whether `name [ ... ] =` is next, with balanced brackets. -/
def elementAssignmentNext (s : Cursor) : Bool :=
  s.sees .identifier 0 && s.sees .openBracket 1 && assignFollows 0 (s.rest.drop 2)

/-- Whether `name [ ... ] =` is next. -/
def atElementAssignment : Parse Bool := fun p => .ok (elementAssignmentNext p.cursor) p

/-- Whether `name =` is next. -/
def atAssignment : Parse Bool := fun p =>
  .ok (p.cursor.sees .identifier 0 && p.cursor.sees .assign 1) p

/-- Reads `name = expr`. -/
def nameAssignment (expr : Parse Expr) : Parse Expr := do
  let l ← here
  let name ← identifier
  let _ ← expect .assign
  let value ← expr
  return .assign name value l

/-- Reads `name[expr] = expr`. -/
def elementAssignment (expr : Parse Expr) : Parse Expr := do
  let l ← here
  let name ← identifier
  let _ ← expect .openBracket
  let index ← expr
  let _ ← expect .closeBracket
  let _ ← expect .assign
  let value ← expr
  return .assignElement name index value l

/-- Reads an expression whose inner expressions are read by `expr`. -/
def expressionWith (expr : Parse Expr) (bound : Nat) : Parse Expr := do
  if ← atAssignment then nameAssignment expr
  else if ← atElementAssignment then elementAssignment expr
  else equality bound (unary (value expr bound) bound)

/-- Reads an expression.  With no tokens left there is none to read, and what is
    missing is a value. -/
def expression : (bound : Nat) → Parse Expr
  | 0 => unexpected .openParen
  | bound + 1 => expressionWith (expression bound) (bound + 1)

end Grammar
end PocketC
