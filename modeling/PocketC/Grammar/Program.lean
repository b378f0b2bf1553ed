/-
  PocketC.Grammar.Program

  Reading programs.

    program   ::= start ( function | declarators ";" )* end
    function  ::= type name "(" params ")" ( ";" | block )
    params    ::= nothing | "void" | param ( "," param )*
    param     ::= type name ( "[" "]" )?

  A definition gives two nodes, the declaration and the body, so that the
  signature is bound before the body is attached to it.
-/

import PocketC.Grammar.Stmt

namespace PocketC
namespace Grammar

open Parse

/-! ## Functions -/

/-- Reads one parameter. -/
def param : Parse Param := do
  let type ← identifier
  let name ← identifier
  if ← accept .openBracket then
    let _ ← expect .closeBracket
    return ⟨type ++ "[]", name⟩
  else return ⟨type, name⟩

/-- Whether `void )` is next. -/
def atVoid : Parse Bool := fun p =>
  .ok (p.cursor.sees .identifier 0 && (p.cursor.peek 0).text == "void" &&
    p.cursor.sees .closeParen 1) p

/-- Reads the parameters of a function; a lone `void` says that there are none. -/
def params (bound : Nat) : Parse (List Param) := do
  if ← sees .closeParen 0 then return []
  else if ← atVoid then
    let _ ← expect .identifier
    return []
  else sequence param bound

/-- Reads a function: its declaration, or its declaration and its body. -/
def function (bound : Nat) : Parse Stmt := do
  let l ← here
  let result ← identifier
  let name ← identifier
  let _ ← expect .openParen
  let ps ← params bound
  let _ ← expect .closeParen
  if ← sees .openBrace 0 then
    let body ← braces (statement bound) bound
    return .group [.declareFun name result ps l, .defineFun name result ps body l]
  else
    let _ ← expect .semicolon
    return .declareFun name result ps l

/-! ## Programs -/

/-- Reads one node of a program: with a parenthesis behind two tokens it is a
    function, else a declaration of variables. -/
def topLevel (bound : Nat) : Parse Stmt := do
  if ← sees .openParen 2 then function bound
  else
    let s ← declarators bound
    let _ ← expect .semicolon
    return s

/-- Reads a program from one end of the input to the other. -/
def program : Parse Program := do
  let _ ← expect .startOfInput
  let bound ← tokensLeft
  let nodes ← manyUntil .endOfInput (topLevel bound) bound
  let _ ← expect .endOfInput
  return ⟨nodes⟩

end Grammar

/-- Reads the next program, and gives the parser after it: also after an error
    that is where the reading stopped. -/
def Parser.parse (p : Parser) : Except ParseError Program × Parser :=
  match Grammar.program p with
  | .ok program p => (.ok program, p)
  | .error e p => (.error e, p)

end PocketC
