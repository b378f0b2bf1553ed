/-
  PocketC.Run.Expr

  Evaluating expressions.  Operands, indices and arguments are evaluated from
  left to right, each before its operation is looked at.  How a function is
  entered is a parameter, so that evaluation follows the expression alone.
-/

import PocketC.Run.Operator
import PocketC.Run.Variable

namespace PocketC

/-! ## Calls -/

/-- A function that is ready to be entered. -/
structure Callee where
  name : String
  params : List Param
  body : List Stmt

/-- How a function is entered with the values of its arguments; the location is
    that of the call. -/
abbrev Enter : Type := Callee → List Value → Location → Exec Value

namespace Exec

/-- The function of a name that takes this many arguments; it has to have a
    body. -/
def findCallee (name : String) (arity : Nat) (l : Location) : Exec Callee := do
  match ← resolve (.fn name arity) with
  | some (.fn f) =>
    match f.body with
    | some body => return ⟨name, f.params, body⟩
    | none => fault (.missingBody name arity) l
  | _ => fault (.unboundFunction name arity) l

/-! ## Expressions -/

mutual

/-- The value of an expression. -/
def eval (enter : Enter) : Expr → Exec Value
  | .int n _ => pure (.int n)
  | .char c _ => pure (.char c)
  | .string s _ => pure (.string s)
  | .var name l => load name l
  | .binary op left right l => do
    let a ← eval enter left
    let b ← eval enter right
    ofExcept (op.apply a b) l
  | .negate operand l => do
    let a ← eval enter operand
    ofExcept a.negate l
  | .assign name value l => do
    let v ← eval enter value
    store name v l
  | .assignElement name index value l => do
    let i ← eval enter index
    let i ← ofExcept (i.toNumber .number) index.location
    let v ← eval enter value
    assignElement name i v l
  | .call name args l => do
    let callee ← findCallee name args.length l
    let values ← evalAll enter args
    enter callee values l
  | .array elements _ => do
    let values ← evalElements enter elements
    return .array values
  | .element name index l => do
    let i ← eval enter index
    let i ← ofExcept (i.toNumber .number) index.location
    loadElement name i l

/-- The values of arguments. -/
def evalAll (enter : Enter) : List Expr → Exec (List Value)
  | [] => pure []
  | e :: es => do
    let v ← eval enter e
    let vs ← evalAll enter es
    return v :: vs

/-- The values of the elements of an array, each of which has to be storable. -/
def evalElements (enter : Enter) : List Expr → Exec (List Value)
  | [] => pure []
  | e :: es => do
    let v ← eval enter e
    checkStorable v e.location
    let vs ← evalElements enter es
    return v :: vs

end

/-- The value of an expression that has to be a number. -/
def evalNumber (enter : Enter) (e : Expr) : Exec Int := do
  let v ← eval enter e
  ofExcept (v.toNumber .number) e.location

/-- Whether a condition holds: every number but zero does. -/
def evalCondition (enter : Enter) (e : Expr) : Exec Bool := do
  let v ← eval enter e
  let n ← ofExcept (v.toNumber .condition) e.location
  return n != 0

end Exec

end PocketC
