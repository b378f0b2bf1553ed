/-
  PocketC.Token.Basic

  Tokens: a kind, the text kept with it if the kind alone does not tell it, and
  the place of its first character.
-/

import PocketC.Location
import PocketC.Token.Kind

namespace PocketC

/-- A located piece of a source text. -/
structure Token where
  kind : Kind
  /-- the text of a name or number, or what stands between the quotes -/
  kept : Option String
  location : Location
deriving DecidableEq, Inhabited

namespace Token

/-- The kept text, empty if there is none. -/
def text (t : Token) : String := t.kept.getD ""

/-- How messages name a token: its kind, and its kept text in quotes. -/
def describe (t : Token) : String :=
  match t.kept with
  | none => t.kind.describe
  | some s =>
    if t.kind = .stringLiteral then t.kind.describe ++ " \"" ++ s ++ "\""
    else t.kind.describe ++ " '" ++ s ++ "'"

/-- How messages show a row of tokens. -/
def describeAll (ts : List Token) : String :=
  "[" ++ ", ".intercalate (ts.map describe) ++ "]"

/-- The token that stands for the end of the input at `l`. -/
def endAt (l : Location) : Token := ⟨.endOfInput, none, l⟩

/-- The token that stands for the beginning of the input. -/
def first : Token := ⟨.startOfInput, none, .start⟩

end Token

end PocketC
