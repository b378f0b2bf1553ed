/-
  PocketC.Tree.Expr

  Expressions.  Every node has a place: that of its operator token for a binary
  operation, that of its first token for all others.
-/

import PocketC.Location

namespace PocketC

/-! ## Operators -/

/-- The operators between two operands. -/
inductive BinaryOp where
  | add | sub | mul | div | rem
  | eq | ne | lt | le | gt | ge
deriving DecidableEq, Inhabited

/-- The operator as it is written. -/
def BinaryOp.symbol : BinaryOp → String
  | .add => "+"
  | .sub => "-"
  | .mul => "*"
  | .div => "/"
  | .rem => "%"
  | .eq => "=="
  | .ne => "!="
  | .lt => "<"
  | .le => "<="
  | .gt => ">"
  | .ge => ">="

/-! ## Expressions -/

/-- An expression. -/
inductive Expr where
  | int (value : Int) (location : Location)
  | char (value : Char) (location : Location)
  | string (value : String) (location : Location)
  /-- the value of a variable -/
  | var (name : String) (location : Location)
  | binary (op : BinaryOp) (left right : Expr) (location : Location)
  | negate (operand : Expr) (location : Location)
  /-- `name = value` -/
  | assign (name : String) (value : Expr) (location : Location)
  /-- `name[index] = value` -/
  | assignElement (name : String) (index value : Expr) (location : Location)
  | call (name : String) (args : List Expr) (location : Location)
  /-- `{a, b, c}` -/
  | array (elements : List Expr) (location : Location)
  /-- `name[index]` -/
  | element (name : String) (index : Expr) (location : Location)
deriving Inhabited

/-- The place of an expression. -/
def Expr.location : Expr → Location
  | .int _ l | .char _ l | .string _ l | .var _ l | .binary _ _ _ l | .negate _ l
  | .assign _ _ l | .assignElement _ _ _ l | .call _ _ l | .array _ l | .element _ _ l => l

end PocketC
