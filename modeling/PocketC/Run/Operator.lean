/-
  PocketC.Run.Operator

  What operators do with values.  Operands are numbers, a char standing for its
  code point.  A result that does not fit a word is a fault, never a wrapped
  number; division truncates toward zero.
-/

import PocketC.Run.Fault

namespace PocketC

/-- The number that a value is, where one is wanted. -/
def Value.toNumber (v : Value) (wanted : Wanted) : Except FaultCause Int :=
  match v.number? with
  | some n => .ok n
  | none => .error (.wrongType wanted v.typeName)

/-- A number as the result of an operation: it has to fit a word. -/
def Operation.result (operation : Operation) (n : Int) : Except FaultCause Value :=
  if FitsWord n then .ok (.int n) else .error (.overflow operation)

/-- The value of a comparison. -/
def Value.ofBool (b : Bool) : Value := .int (if b then 1 else 0)

namespace BinaryOp

/-- What an operator gives for two numbers.  A remainder is defined only where
    the quotient is: the quotient has to fit a word, too. -/
def compute (op : BinaryOp) (a b : Int) : Except FaultCause Value :=
  let operation := Operation.binary op a b
  match op with
  | .add => operation.result (a + b)
  | .sub => operation.result (a - b)
  | .mul => operation.result (a * b)
  | .div =>
    if b = 0 then .error (.divisionByZero operation) else operation.result (a.tdiv b)
  | .rem =>
    if b = 0 then .error (.divisionByZero operation)
    else if FitsWord (a.tdiv b) then .ok (.int (a.tmod b))
    else .error (.overflow operation)
  | .eq => .ok (.ofBool (a == b))
  | .ne => .ok (.ofBool (a != b))
  | .lt => .ok (.ofBool (decide (a < b)))
  | .le => .ok (.ofBool (decide (a ≤ b)))
  | .gt => .ok (.ofBool (decide (a > b)))
  | .ge => .ok (.ofBool (decide (a ≥ b)))

/-- What an operator gives for two values. -/
def apply (op : BinaryOp) (left right : Value) : Except FaultCause Value := do
  let a ← left.toNumber (.operand op.symbol)
  let b ← right.toNumber (.operand op.symbol)
  op.compute a b

end BinaryOp

/-- The negative of a value. -/
def Value.negate (v : Value) : Except FaultCause Value := do
  let a ← v.toNumber (.operand "-")
  (Operation.negate a).result (-a)

end PocketC
