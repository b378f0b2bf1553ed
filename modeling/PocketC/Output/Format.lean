/-
  PocketC.Output.Format

  Format texts: a text in which `{}` stands for the next argument, `{N}` for
  argument number N, and `{{` and `}}` for single braces.  A format is a row of
  segments; expanding it goes from left to right and stops at the first segment
  that has no expansion.
-/

import PocketC.Value

namespace PocketC

/-! ## Failures -/

/-- What is wrong with a format or its arguments. -/
inductive FormatError where
  /-- a character other than a digit between the braces -/
  | unexpected (c : Char)
  /-- no closing brace -/
  | unterminated
  /-- a closing brace that closes nothing -/
  | unmatched
  | indexTooLarge (digits : List Char)
  | missingArgument (index supplied : Nat)
deriving DecidableEq

/-- The text of the message. -/
def FormatError.message : FormatError → String
  | .unexpected c => "unexpected '" ++ c.toString ++ "' in placeholder"
  | .unterminated => "unterminated placeholder"
  | .unmatched => "unmatched '\x7d'"
  | .indexTooLarge digits => "argument index " ++ String.ofList digits ++ " is too large"
  | .missingArgument index supplied =>
    "missing argument " ++ index.repr ++ " (" ++ supplied.repr ++ " supplied)"

/-- Why a format has no expansion. -/
inductive ExpandError where
  | format (e : FormatError)
  /-- an argument with a part that has no printed form -/
  | unprintable (part : Value)
deriving DecidableEq

namespace Format

/-! ## Segments -/

/-- A segment of a format. -/
inductive Segment where
  | char (c : Char)
  /-- `{}` -/
  | next
  /-- `{N}` -/
  | numbered (digits : List Char)
  /-- the rest of the format from a mistake on -/
  | malformed (e : FormatError)
deriving DecidableEq

/-- The segment of a placeholder with these digits. -/
def placeholderOf (digits : List Char) : Segment :=
  if digits = [] then .next else .numbered digits

mutual

/-- The segments of a format. -/
def segments : List Char → List Segment
  | [] => []
  | '{' :: '{' :: cs => .char '{' :: segments cs
  | '{' :: cs => placeholder [] cs
  | '}' :: '}' :: cs => .char '}' :: segments cs
  | '}' :: _ => [.malformed .unmatched]
  | c :: cs => .char c :: segments cs

/-- The segments of a format from within a placeholder, of which `digits` are
    read. -/
def placeholder (digits : List Char) : List Char → List Segment
  | [] => [.malformed .unterminated]
  | c :: cs =>
    if c = '}' then placeholderOf digits :: segments cs
    else if Text.isDigit c then placeholder (digits ++ [c]) cs
    else [.malformed (.unexpected c)]

end

/-! ## Printed forms -/

mutual

/-- The printed form of a value: that of an array is its elements' in brackets.
    Nothing is printed of a value that was never assigned or that a call did not
    return. -/
def printed : Value → Except ExpandError (List Char)
  | .int n => .ok (Text.decimal n).toList
  | .char c => .ok [c]
  | .string s => .ok s.toList
  | .array [] => .ok ['[', ']']
  | .array (v :: vs) => do
    let front ← printed v
    let others ← printedBehind vs
    return '[' :: front ++ others
  | .void => .error (.unprintable .void)
  | .uninitialized => .error (.unprintable .uninitialized)

/-- The printed form of an array from behind one of its elements on. -/
def printedBehind : List Value → Except ExpandError (List Char)
  | [] => .ok [']']
  | v :: vs => do
    let front ← printed v
    let others ← printedBehind vs
    return ',' :: ' ' :: front ++ others

end

/-! ## Expanding -/

/-- The printed form of argument number `index`. -/
def argument (args : List Value) (index : Nat) : Except ExpandError (List Char) :=
  match args[index]? with
  | some v => printed v
  | none => .error (.format (.missingArgument index args.length))

/-- The number that a placeholder's digits name. -/
def indexOf (digits : List Char) : Except ExpandError Nat :=
  if Text.digitsValue digits < indexLimit then .ok (Text.digitsValue digits)
  else .error (.format (.indexTooLarge digits))

/-- The expansion of some segments, in front of which `used` segments `{}` took
    an argument. -/
def expandFrom (args : List Value) : (used : Nat) → List Segment → Except ExpandError (List Char)
  | _, [] => .ok []
  | used, .char c :: rest => do
    let others ← expandFrom args used rest
    return c :: others
  | used, .next :: rest => do
    let front ← argument args used
    let others ← expandFrom args (used + 1) rest
    return front ++ others
  | used, .numbered digits :: rest => do
    let index ← indexOf digits
    let front ← argument args index
    let others ← expandFrom args used rest
    return front ++ others
  | _, .malformed e :: _ => .error (.format e)

/-- The text that a format and its arguments stand for. -/
def expand (format : String) (args : List Value) : Except ExpandError String :=
  (expandFrom args 0 (segments format.toList)).map String.ofList

end Format

end PocketC
