/-
  PocketC.Run.Fault

  Why a run stopped before its end.  A fault is the program's own: it is reported
  with the place of the node that failed.  A defect is a state that no program
  read from a source can reach.
-/

import PocketC.Output.Format
import PocketC.Tree.Expr

namespace PocketC

/-! ## Parts of messages -/

/-- What a value had to be. -/
inductive Wanted where
  | condition | number | storable | array | format | printable
  | operand (op : String)
deriving DecidableEq

/-- How messages name it. -/
def Wanted.text : Wanted → String
  | .condition => "int or char"
  | .number => "int"
  | .storable => "value"
  | .array => "array"
  | .format => "format string"
  | .printable => "printable value"
  | .operand op => "int or char operand for '" ++ op ++ "'"

/-- An operation on numbers. -/
inductive Operation where
  | binary (op : BinaryOp) (left right : Int)
  | negate (operand : Int)
deriving DecidableEq

/-- How messages show it. -/
def Operation.text : Operation → String
  | .binary op a b => Text.decimal a ++ " " ++ op.symbol ++ " " ++ Text.decimal b
  | .negate a => "-(" ++ Text.decimal a ++ ")"

/-! ## Faults -/

/-- What went wrong. -/
inductive FaultCause where
  | unboundVariable (name : String)
  | unboundFunction (name : String) (arity : Nat)
  | missingBody (name : String) (arity : Nat)
  | missingDeclaration (name : String) (arity : Nat)
  | secondBody (name : String) (arity : Nat)
  | nameTaken (name : String)
  | noValueYet (name : String)
  | wrongType (wanted : Wanted) (got : String)
  | divisionByZero (operation : Operation)
  | overflow (operation : Operation)
  | outOfBounds (name : String) (index : Int) (length : Nat)
  | negativeSize (name : String) (size : Int)
  | arrayTooLong (name : String) (requested limit : Nat)
  | tooManyElements (name : String) (length got : Nat)
  | noArguments (name : String)
  | badFormat (error : FormatError)
  | tooManyCalls (name : String) (limit : Nat)
deriving DecidableEq

/-- What went wrong, and the place of the node that failed. -/
structure Fault where
  cause : FaultCause
  location : Location
deriving DecidableEq

/-- `NAME taking N argument(s)`, as messages name a function. -/
def describeFunction (name : String) (arity : Nat) : String :=
  "'" ++ name ++ "' taking " ++ arity.repr ++ " argument(s)"

/-- The text of the message. -/
def Fault.message (f : Fault) : String :=
  let place := " at " ++ f.location.text
  match f.cause with
  | .unboundVariable name => "Undefined variable '" ++ name ++ "'" ++ place
  | .unboundFunction name arity =>
    "Undefined function " ++ describeFunction name arity ++ place
  | .missingBody name arity =>
    "Function " ++ describeFunction name arity ++ " is declared but not defined" ++ place
  | .missingDeclaration name arity =>
    "Definition of " ++ describeFunction name arity ++ " has no matching declaration" ++ place
  | .secondBody name arity =>
    "Function " ++ describeFunction name arity ++ " is already defined" ++ place
  | .nameTaken name => "Redeclaration of '" ++ name ++ "'" ++ place
  | .noValueYet name =>
    "Read from uninitialized variable '" ++ name ++ "'" ++ place
  | .wrongType wanted got =>
    "Type error" ++ place ++ ": expected " ++ wanted.text ++ ", got " ++ got
  | .divisionByZero operation => "Division by zero in '" ++ operation.text ++ "'" ++ place
  | .overflow operation =>
    "Integer overflow in operation: " ++ operation.text ++ place
  | .outOfBounds name index length =>
    "Index " ++ Text.decimal index ++ " out of bounds for '" ++ name ++ "' of length " ++
      length.repr ++ place
  | .negativeSize name size =>
    "Invalid array size " ++ Text.decimal size ++ " for '" ++ name ++ "'" ++ place
  | .arrayTooLong name requested limit =>
    "Array '" ++ name ++ "' of " ++ requested.repr ++ " elements exceeds the limit of " ++
      limit.repr ++ place
  | .tooManyElements name length got =>
    "Cannot store " ++ got.repr ++ " elements in '" ++ name ++ "' of length " ++
      length.repr ++ place
  | .noArguments name =>
    "Intrinsic '" ++ name ++ "' requires at least one argument" ++ place
  | .badFormat error => "Invalid printf format" ++ place ++ ": " ++ error.message
  | .tooManyCalls name limit =>
    "Stack overflow calling '" ++ name ++ "' (limit " ++ limit.repr ++ ")" ++ place

/-! ## Defects -/

/-- The two jumps out of a loop's body. -/
inductive Jump where
  | leave | next
deriving DecidableEq

/-- How messages name a jump. -/
def Jump.text : Jump → String
  | .leave => "Break"
  | .next => "Continue"

/-- A broken promise of whoever made the tree or the state. -/
inductive Defect where
  /-- a jump without a loop around it ended the body of a function -/
  | jumpEscaped (jump : Jump) (function : String)
  /-- a scope was closed that is not the newest one -/
  | closedOutOfOrder (scope : Nat)
  /-- a scope was used that is not live -/
  | deadScope (scope : Nat)
deriving DecidableEq

/-- The text of the message. -/
def Defect.message : Defect → String
  | .jumpEscaped jump function =>
    "internal error: entered unreachable code: " ++ jump.text ++ " escaped function '" ++
      function ++ "'"
  | .closedOutOfOrder scope => "scope " ++ scope.repr ++ " popped out of order"
  | .deadScope scope => "scope " ++ scope.repr ++ " is not live"

/-- Why a run stopped. -/
inductive Stop where
  | fault (f : Fault)
  | defect (d : Defect)
  /-- the run was not given enough fuel to reach its end -/
  | outOfFuel
deriving DecidableEq

end PocketC
