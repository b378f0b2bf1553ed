/-
  PocketC.Token.Scan

  The tokens of a source text.  The text is read character by character: blanks
  are passed over, and where a token begins, the table of shapes tells its
  kind and how many characters belong to it.
-/

import PocketC.Text.Blank
import PocketC.Token.Basic
import PocketC.Token.Shape

namespace PocketC

/-! ## Failure -/

/-- No token begins with this character here. -/
structure LexError where
  found : Char
  location : Location
deriving DecidableEq

/-- The text of the message. -/
def LexError.message (e : LexError) : String :=
  "Lexer error at " ++ e.location.text ++ ": unexpected character '" ++ e.found.toString ++ "'"

namespace Token

/-! ## Scanning -/

/-- What a token of kind `k` keeps of its source text `cs`: a number or a name
    all of it, a quoted literal what stands between the quotes. -/
def keep (k : Kind) (cs : List Char) : Option String :=
  match k with
  | .intLiteral | .identifier | .intrinsic => some (String.ofList cs)
  | .stringLiteral | .charLiteral => some (String.ofList (cs.drop 1).dropLast)
  | _ => none

/-- The tokens of the text that begins at `l`, of which the first `skip`
    characters belong to a token already seen; then the end of the input. -/
def scanFrom : (skip : Nat) → (l : Location) → List Char → Except LexError (List Token)
  | _, l, [] => .ok [endAt l]
  | skip + 1, l, c :: cs => scanFrom skip (l.advance c) cs
  | 0, l, c :: cs =>
    if Text.isBlank c then scanFrom 0 (l.advance c) cs
    else match Shape.first? (c :: cs) with
      | none => .error ⟨c, l⟩
      | some (k, n) =>
        match scanFrom (n - 1) (l.advance c) cs with
        | .ok ts => .ok (⟨k, keep k ((c :: cs).take n), l⟩ :: ts)
        | .error e => .error e

/-- The tokens of a source text, between the two ends of the input. -/
def scan (source : String) : Except LexError (List Token) :=
  (scanFrom 0 .start source.toList).map (first :: ·)

/-! ## Passing over a token -/

/-- The characters of a token already seen only move the place. -/
theorem scanFrom_skip (xs cs : List Char) (l : Location) :
    scanFrom xs.length l (xs ++ cs) = scanFrom 0 (l.after xs) cs := by
  induction xs generalizing l with
  | nil => rfl
  | cons x xs ih => simpa [scanFrom] using ih (l.advance x)

/-- Blanks in front of a text only move the place. -/
theorem scanFrom_blanks (xs cs : List Char) (l : Location)
    (h : ∀ x ∈ xs, Text.isBlank x = true) :
    scanFrom 0 l (xs ++ cs) = scanFrom 0 (l.after xs) cs := by
  induction xs generalizing l with
  | nil => rfl
  | cons x xs ih =>
    simp only [List.cons_append, scanFrom, h x (by simp), if_true, Location.after_cons]
    exact ih (l.advance x) fun y hy => h y (by simp [hy])

end Token

end PocketC
