/-
  PocketC.Run.Stmt

  Running statements.  A statement ends in a flow: it is done, or it hands a jump
  or a returned value to whatever is around it.  A row of statements stops at the
  first that is not done; loops take the jumps, calls take the values.
-/

import PocketC.Run.Expr
import PocketC.Token.Shape

namespace PocketC

/-- How a statement ended. -/
inductive Flow where
  | done
  | jump (j : Jump)
  | returned (value : Value)
deriving Inhabited

/-- The name of the built-in operation that prints. -/
def printIntrinsic : String := String.ofList Shape.printfName

namespace Exec

/-! ## Declarations -/

/-- What an array holds that is declared with a size. -/
def newArray (limits : Limits) (name : String) (size : Int) : Except FaultCause Value :=
  if size < 0 then .error (.negativeSize name size)
  else if limits.elements < size.toNat then
    .error (.arrayTooLong name size.toNat limits.elements)
  else .ok (.array (List.replicate size.toNat .uninitialized))

/-- Declares a variable; with a size, an array of elements without a value. -/
def runVarDeclaration (limits : Limits) (enter : Enter) (name type : String)
    (size : Option Expr) (l : Location) : Exec Unit := do
  match size with
  | none => declareVariable name (.new type) l
  | some e =>
    let n ← evalNumber enter e
    let value ← ofExcept (newArray limits name n) l
    declareVariable name ⟨type, value⟩ l

/-- Declares a function; a repeated declaration changes nothing. -/
def runFunDeclaration (name result : String) (params : List Param) (l : Location) :
    Exec Unit := do
  if ← declare (.fn name params.length) (.fn (.declared result params)) then return ()
  else log (.redeclared name params.length l)

/-- Attaches a body to a function that is declared and has none. -/
def runFunDefinition (name : String) (params : List Param) (body : List Stmt) (l : Location) :
    Exec Unit := do
  match ← resolve (.fn name params.length) with
  | some (.fn f) =>
    match f.define params body with
    | some g => rebind (.fn name params.length) (.fn g)
    | none => fault (.secondBody name params.length) l
  | _ => fault (.missingDeclaration name params.length) l

/-! ## Printing -/

/-- The fault of a format that has no expansion. -/
def faultOf : ExpandError → FaultCause
  | .format e => .badFormat e
  | .unprintable part => .wrongType .printable part.typeName

/-- The text that a format and its arguments stand for. -/
def formatted : List Value → Except FaultCause String
  | .string format :: args =>
    match Format.expand format args with
    | .ok text => .ok text
    | .error e => .error (faultOf e)
  | v :: _ => .error (.wrongType .format v.typeName)
  | [] => .ok ""

/-- Runs a built-in operation.  All its arguments are evaluated before anything
    is printed. -/
def runIntrinsic (enter : Enter) (name : String) (args : List Expr) (l : Location) :
    Exec Unit := do
  if args.isEmpty then fault (.noArguments name) l
  else
    let values ← evalAll enter args
    if name = printIntrinsic then
      let text ← ofExcept (formatted values) l
      print text l
    else fault (.unboundFunction name args.length) l

/-! ## Loops -/

/-- Runs a loop: as long as the test holds, the body and then the step.  A body
    may leave the loop, go on to the next turn, or return.  `fuel` bounds the
    number of turns. -/
def loop (test : Exec Bool) (body : Exec Flow) (step : Exec Unit) : (fuel : Nat) → Exec Flow
  | 0 => outOfFuel
  | fuel + 1 => do
    if ← test then
      match ← body with
      | .done | .jump .next =>
        step
        loop test body step fuel
      | .jump .leave => return .done
      | .returned v => return .returned v
    else return .done

/-! ## Statements -/

mutual

/-- Runs a statement. -/
def run (limits : Limits) (fuel : Nat) (enter : Enter) : Stmt → Exec Flow
  | .declareVar name type size l => do
    runVarDeclaration limits enter name type size l
    return .done
  | .declareFun name result params l => do
    runFunDeclaration name result params l
    return .done
  | .defineFun name _ params body l => do
    runFunDefinition name params body l
    return .done
  | .block body _ => inInnerScope (runAll limits fuel enter body)
  | .group body => runAll limits fuel enter body
  | .ifElse condition yes no _ => do
    if ← evalCondition enter condition then run limits fuel enter yes
    else run limits fuel enter no
  | .whileLoop condition body _ =>
    loop (evalCondition enter condition) (inInnerScope (run limits fuel enter body)) (pure ()) fuel
  | .forLoop init condition step body _ => do
    let _ ← run limits fuel enter init
    loop (evalCondition enter condition) (inInnerScope (run limits fuel enter body))
      (do let _ ← eval enter step; return ()) fuel
  | .breakLoop _ => return .jump .leave
  | .continueLoop _ => return .jump .next
  | .returnValue none _ => return .returned .void
  | .returnValue (some e) _ => do
    let v ← eval enter e
    return .returned v
  | .intrinsic name args l => do
    runIntrinsic enter name args l
    return .done
  | .expression e => do
    let _ ← eval enter e
    return .done

/-- Runs statements up to the first that is not done. -/
def runAll (limits : Limits) (fuel : Nat) (enter : Enter) : List Stmt → Exec Flow
  | [] => return .done
  | s :: ss => do
    match ← run limits fuel enter s with
    | .done => runAll limits fuel enter ss
    | flow => return flow

end

end Exec

end PocketC
