/-
  PocketC.Run.Call

  Entering functions and running programs.  A body runs in a scope of its own
  inside the global one, wherever the call stands, so it sees nothing of its
  caller's names.  The fuel of a call bounds how deep calls are nested in it and
  how many turns each loop makes.
-/

import PocketC.Run.Stmt

namespace PocketC

namespace Exec

/-! ## Entering a function -/

/-- Binds the values of the arguments to the parameters. -/
def passArguments (l : Location) : List Param → List Value → Exec Unit
  | p :: ps, v :: vs => do
    declareVariable p.name ⟨p.type, v⟩ l
    passArguments l ps vs
  | _, _ => pure ()

/-- The value of a call whose body ended in a flow. -/
def callResult (name : String) : Flow → Exec Value
  | .returned v => return v
  | .done => return .void
  | .jump j => defect (.jumpEscaped j name)

/-- Lets a call through unless as many are in progress as there may be. -/
def checkDepth (limits : Limits) (name : String) (l : Location) : Exec Unit := do
  if limits.calls ≤ (← get).activeCalls then fault (.tooManyCalls name limits.calls) l
  else return ()

/-- Enters a function. -/
def enter (limits : Limits) : (fuel : Nat) → Enter
  | 0 => fun _ _ _ => outOfFuel
  | fuel + 1 => fun callee args l => do
    checkDepth limits callee.name l
    log (.called callee.name args.length l)
    let flow ← inCall (inNewScope ScopeTree.global do
      passArguments l callee.params args
      runAll limits fuel (enter limits fuel) callee.body)
    callResult callee.name flow

/-! ## Running a program -/

/-- Runs the nodes of a program, whatever flow they end in. -/
def bindNodes (limits : Limits) (fuel : Nat) : List Stmt → Exec Unit
  | [] => pure ()
  | s :: ss => do
    let _ ← run limits fuel (enter limits fuel) s
    bindNodes limits fuel ss

/-- Runs a program on a machine where nothing is bound: binds its variables and
    functions, then calls `main` and gives what that returns. -/
def runProgram (limits : Limits) (fuel : Nat) (p : Program) : Exec Value := do
  log (.binding p.nodes.length)
  bindNodes limits fuel p.nodes
  log .callingEntry
  let v ← eval (enter limits fuel) (.call entryPoint [] .start)
  log (.entryReturned v)
  return v

end Exec

end PocketC
