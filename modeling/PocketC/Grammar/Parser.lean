/-
  PocketC.Grammar.Parser

  The state of reading a program and the steps from which the grammar is built.
  A failed reading keeps the state in which it failed, so that the next reading
  goes on from there.

  The loops here and in the grammar are bounded by a number that is at least the
  number of tokens left.  Every turn of a loop reads a token, so with no tokens
  left there is nothing for a further turn to read, and the bound is never felt.
-/

import PocketC.Grammar.Cursor

namespace PocketC

/-- A row of tokens being read, and how many loops are open around the statement
    being read. -/
structure Parser where
  cursor : Cursor
  openLoops : Nat
deriving DecidableEq

/-- A parser at the front of a row of tokens. -/
def Parser.ofCursor (s : Cursor) : Parser := ⟨s, 0⟩

/-- A reading: from a parser to a result or an error, and the parser after it. -/
abbrev Parse (α : Type) : Type := EStateM ParseError Parser α

namespace Parse

/-! ## One step after another -/

theorem pure_apply {α : Type} (a : α) (p : Parser) : (pure a : Parse α) p = .ok a p := rfl

/-- The second reading begins where the first ended; where the first failed, both
    fail. -/
theorem bind_apply {α β : Type} (x : Parse α) (f : α → Parse β) (p : Parser) :
    (x >>= f) p = match x p with
      | .ok a q => f a q
      | .error e q => .error e q := by
  show EStateM.bind x f p = _
  unfold EStateM.bind
  cases x p <;> rfl

/-! ## Looking -/

/-- The token `offset` places ahead. -/
def peek (offset : Nat) : Parse Token := fun p => .ok (p.cursor.peek offset) p

/-- Whether the token `offset` places ahead is of kind `k`. -/
def sees (k : Kind) (offset : Nat) : Parse Bool := fun p => .ok (p.cursor.sees k offset) p

/-- The place of the next token. -/
def here : Parse Location := fun p => .ok (p.cursor.peek 0).location p

/-- How many tokens are left. -/
def tokensLeft : Parse Nat := fun p => .ok p.cursor.length p

/-! ## Failing -/

/-- Fails with a misfit at a place. -/
def misfit {α : Type} (cause : Misfit) (l : Location) : Parse α := fun p => .error ⟨cause, l⟩ p

/-- Fails because the next token is not of kind `k`. -/
def unexpected {α : Type} (k : Kind) : Parse α := fun p => .error (p.cursor.mismatch k) p

/-! ## Moving on -/

/-- Reads the next token, which has to be of kind `k`. -/
def expect (k : Kind) : Parse Token := fun p =>
  match p.cursor.take k with
  | .ok (t, s) => .ok t { p with cursor := s }
  | .error e => .error e p

/-- Reads the next token if it is of kind `k`, and tells whether it was. -/
def accept (k : Kind) : Parse Bool := fun p =>
  let (taken, s) := p.cursor.takeIf k
  .ok taken { p with cursor := s }

/-- Reads an identifier and gives its text. -/
def identifier : Parse String := do
  let token ← expect .identifier
  return token.text

/-- Reads the body of a loop: one more loop is open while it is read, whether
    that succeeds or fails. -/
def insideLoop {α : Type} (body : Parse α) : Parse α := fun p =>
  match body { p with openLoops := p.openLoops + 1 } with
  | .ok a q => .ok a { q with openLoops := q.openLoops - 1 }
  | .error e q => .error e { q with openLoops := q.openLoops - 1 }

/-! ## Repeating -/

/-- One or more items with commas between them. -/
def sequence {α : Type} (item : Parse α) : (bound : Nat) → Parse (List α)
  | 0 => do return [← item]
  | bound + 1 => do
    let first ← item
    if ← accept .comma then return first :: (← sequence item bound)
    else return [first]

/-- No items if a token of kind `stop` is next, else one or more with commas
    between them. -/
def listUntil {α : Type} (stop : Kind) (item : Parse α) (bound : Nat) : Parse (List α) := do
  if ← sees stop 0 then return []
  else sequence item bound

/-- Items one after the other until a token of kind `stop` is next. -/
def manyUntil {α : Type} (stop : Kind) (item : Parse α) : (bound : Nat) → Parse (List α)
  | 0 => do
    if ← sees stop 0 then return []
    else return [← item]
  | bound + 1 => do
    if ← sees stop 0 then return []
    else
      let first ← item
      return first :: (← manyUntil stop item bound)

end Parse

end PocketC
