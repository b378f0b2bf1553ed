/-
  PocketC.Grammar.Misfit

  Why a row of tokens is not a program.
-/

import PocketC.Token.Basic

namespace PocketC

/-- What is wrong with the token where reading stopped. -/
inductive Misfit where
  /-- another kind of token had to stand here; with the tokens not yet read -/
  | unexpected (expected found : Kind) (remaining : List Token)
  /-- a jump out of a loop, with no loop around it -/
  | jumpOutsideLoop (keyword : Kind)
  /-- a literal whose text has no value -/
  | unreadableLiteral (kind : Kind) (text : String)
deriving DecidableEq

/-- A misfit and the place of its token. -/
structure ParseError where
  cause : Misfit
  location : Location
deriving DecidableEq

/-- The text of the message. -/
def ParseError.message (e : ParseError) : String :=
  "Parse error at " ++ e.location.text ++ ": " ++
  match e.cause with
  | .unexpected expected found remaining =>
    "expected " ++ expected.describe ++ ", found " ++ found.describe ++
      "\nRemaining tokens: " ++ Token.describeAll remaining
  | .jumpOutsideLoop keyword => keyword.describe ++ " outside of a loop"
  | .unreadableLiteral kind text => "invalid " ++ kind.describe ++ " '" ++ text ++ "'"

end PocketC
