/-
  PocketC.Grammar.Cursor

  A row of tokens being read.  Behind its last token a row goes on without
  end: every token there is the end of the input, at the place of the last
  token of the row.
-/

import PocketC.Grammar.Misfit

namespace PocketC

/-- The tokens not yet read, and the place where the row ends. -/
structure Cursor where
  rest : List Token
  endLocation : Location
deriving DecidableEq

namespace Cursor

/-- A row of tokens, none of them read. -/
def ofTokens (ts : List Token) : Cursor :=
  ⟨ts, (ts.getLast?.map (·.location)).getD .start⟩

/-- The token `offset` places ahead. -/
def peek (s : Cursor) (offset : Nat) : Token :=
  s.rest[offset]?.getD (.endAt s.endLocation)

/-- Whether the token `offset` places ahead is of kind `k`. -/
def sees (s : Cursor) (k : Kind) (offset : Nat) : Bool := (s.peek offset).kind == k

/-- The row behind its next token. -/
def skip (s : Cursor) : Cursor := { s with rest := s.rest.tail }

/-- The failure of a row whose next token is not of kind `k`. -/
def mismatch (s : Cursor) (k : Kind) : ParseError :=
  ⟨.unexpected k (s.peek 0).kind s.rest, (s.peek 0).location⟩

/-- The next token, which has to be of kind `k`, and the row behind it. -/
def take (s : Cursor) (k : Kind) : Except ParseError (Token × Cursor) :=
  if (s.peek 0).kind = k then .ok (s.peek 0, s.skip) else .error (s.mismatch k)

/-- The row behind its next token if that is of kind `k`, and whether it is. -/
def takeIf (s : Cursor) (k : Kind) : Bool × Cursor :=
  if (s.peek 0).kind = k then (true, s.skip) else (false, s)

/-- How many tokens of the row are not yet read. -/
def length (s : Cursor) : Nat := s.rest.length

/-- Whether every token of the row is read. -/
def atEnd (s : Cursor) : Bool := s.rest.isEmpty

/-- The tokens not yet read, as messages show them. -/
def restText (s : Cursor) : String := Token.describeAll s.rest

/-! ## Reading ahead and moving on -/

@[simp] theorem peek_skip (s : Cursor) (n : Nat) : s.skip.peek n = s.peek (n + 1) := by
  cases s with
  | mk rest l => cases rest <;> simp [peek, skip]

@[simp] theorem skip_nil (l : Location) : skip ⟨[], l⟩ = ⟨[], l⟩ := rfl

@[simp] theorem skip_cons (t : Token) (ts : List Token) (l : Location) :
    skip ⟨t :: ts, l⟩ = ⟨ts, l⟩ := rfl

theorem length_skip (s : Cursor) : s.skip.length = s.length - 1 := by
  simp [length, skip]

/-- Behind the row every token is the end of the input. -/
theorem peek_of_length_le {s : Cursor} {n : Nat} (h : s.length ≤ n) :
    s.peek n = .endAt s.endLocation := by
  simp [peek, List.getElem?_eq_none_iff.2 h]

end Cursor

end PocketC
