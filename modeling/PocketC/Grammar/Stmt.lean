/-
  PocketC.Grammar.Stmt

  Reading statements and declarations.

    statement   ::= "{" statement* "}" | if | while | for | simple ";"
    if          ::= "if" "(" expr ")" statement ( "else" statement )?
    while       ::= "while" "(" expr ")" statement
    for         ::= "for" "(" ( declarators | expr ) ";" expr ";" expr ")" statement
    simple      ::= "break" | "continue" | "return" expr? | intrinsic "(" args ")"
                  | declarators | expr
    declarators ::= type declarator ( "," declarator )*
    declarator  ::= name ( "[" expr? "]" )? ( "=" expr )?

  Two identifiers in a row begin a declaration.  A jump out of a loop has to have
  a loop around it.
-/

import PocketC.Grammar.Expr
import PocketC.Tree.Stmt

namespace PocketC
namespace Grammar

open Parse

/-! ## Variables -/

/-- Whether `type name` is next. -/
def atDeclaration : Parse Bool := fun p =>
  .ok (p.cursor.sees .identifier 0 && p.cursor.sees .identifier 1) p

/-- Reads the `[size]` or `[]` behind a name, if it is there: an array's type is
    that of its elements with `[]` behind it. -/
def arraySuffix (type : String) (bound : Nat) : Parse (String × Option Expr) := do
  if ← accept .openBracket then
    if ← accept .closeBracket then return (type ++ "[]", none)
    else
      let size ← expression bound
      let _ ← expect .closeBracket
      return (type ++ "[]", some size)
  else return (type, none)

/-- Reads one declarator: the declaration, and an assignment for its initializer. -/
def declarator (type : String) (bound : Nat) : Parse (List Stmt) := do
  let l ← here
  let name ← identifier
  let (type, size) ← arraySuffix type bound
  if ← accept .assign then
    let value ← expression bound
    return [.declareVar name type size l, .expression (.assign name value l)]
  else return [.declareVar name type size l]

/-- Reads the declarators that share one type. -/
def declarators (bound : Nat) : Parse Stmt := do
  let type ← identifier
  let groups ← sequence (declarator type bound) bound
  return .group groups.flatten

/-! ## Simple statements -/

/-- Reads `break` or `continue`, which has to be inside a loop. -/
def jump (keyword : Kind) (node : Location → Stmt) : Parse Stmt := do
  let token ← expect keyword
  if (← get).openLoops = 0 then misfit (.jumpOutsideLoop keyword) token.location
  else return node token.location

/-- Reads `return`, with a value unless the statement ends there. -/
def returning (bound : Nat) : Parse Stmt := do
  let token ← expect .kwReturn
  if ← sees .semicolon 0 then return .returnValue none token.location
  else return .returnValue (some (← expression bound)) token.location

/-- Reads a built-in operation with its arguments. -/
def intrinsicCall (bound : Nat) : Parse Stmt := do
  let token ← expect .intrinsic
  let _ ← expect .openParen
  let args ← listUntil .closeParen (expression bound) bound
  let _ ← expect .closeParen
  return .intrinsic token.text args token.location

/-- Reads a declaration of variables or an expression. -/
def variablesOrExpression (bound : Nat) : Parse Stmt := do
  if ← atDeclaration then declarators bound
  else return .expression (← expression bound)

/-- Reads a statement that a `;` ends, up to the `;`. -/
def simple (bound : Nat) : Parse Stmt := do
  match (← peek 0).kind with
  | .kwBreak => jump .kwBreak .breakLoop
  | .kwContinue => jump .kwContinue .continueLoop
  | .kwReturn => returning bound
  | .intrinsic => intrinsicCall bound
  | _ => variablesOrExpression bound

/-! ## Compound statements -/

/-- Reads `{ statements }` and gives the statements. -/
def braces (statement : Parse Stmt) (bound : Nat) : Parse (List Stmt) := do
  let _ ← expect .openBrace
  let body ← manyUntil .closeBrace statement bound
  let _ ← expect .closeBrace
  return body

/-- Reads a branch of a conditional.  A bare declaration gets a block of its own,
    so that the names it binds end with the branch. -/
def branch (statement : Parse Stmt) : Parse Stmt := do
  if ← atDeclaration then
    let l ← here
    let declaration ← statement
    return .block [declaration] l
  else statement

/-- Reads an expression in parentheses. -/
def condition (bound : Nat) : Parse Expr := do
  let _ ← expect .openParen
  let e ← expression bound
  let _ ← expect .closeParen
  return e

/-- Reads the `else` branch if there is one; a missing one is an empty group. -/
def elseBranch (statement : Parse Stmt) : Parse Stmt := do
  if ← accept .kwElse then branch statement
  else return .group []

/-- Reads `if (condition) branch` and the `else` branch. -/
def conditional (statement : Parse Stmt) (bound : Nat) : Parse Stmt := do
  let token ← expect .kwIf
  let test ← condition bound
  let yes ← branch statement
  let no ← elseBranch statement
  return .ifElse test yes no token.location

/-- Reads `while (condition) statement`. -/
def whileStatement (statement : Parse Stmt) (bound : Nat) : Parse Stmt := do
  let token ← expect .kwWhile
  let test ← condition bound
  let body ← insideLoop statement
  return .whileLoop test body token.location

/-- Reads `for (init; condition; step) statement`. -/
def forStatement (statement : Parse Stmt) (bound : Nat) : Parse Stmt := do
  let token ← expect .kwFor
  let _ ← expect .openParen
  let init ← variablesOrExpression bound
  let _ ← expect .semicolon
  let test ← expression bound
  let _ ← expect .semicolon
  let step ← expression bound
  let _ ← expect .closeParen
  let body ← insideLoop statement
  return .forLoop init test step body token.location

/-- Reads a statement whose inner statements are read by `statement`. -/
def statementWith (statement : Parse Stmt) (bound : Nat) : Parse Stmt := do
  match (← peek 0).kind with
  | .openBrace =>
    let l ← here
    let body ← braces statement bound
    return .block body l
  | .kwIf => conditional statement bound
  | .kwWhile => whileStatement statement bound
  | .kwFor => forStatement statement bound
  | _ =>
    let s ← simple bound
    let _ ← expect .semicolon
    return s

/-- Reads a statement.  With no tokens left there is none to read, and what is
    missing is a value. -/
def statement : (bound : Nat) → Parse Stmt
  | 0 => unexpected .openParen
  | bound + 1 => statementWith (statement bound) (bound + 1)

end Grammar
end PocketC
