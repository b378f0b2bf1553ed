/-
  PocketC.Run.Machine

  The state of a run and the steps from which running a program is built.
  However a run ends, its state is kept: what was printed before a fault is
  printed.
-/

import PocketC.Output.Journal
import PocketC.Output.Transcript
import PocketC.Run.Fault
import PocketC.Names.ScopeTree

namespace PocketC

/-! ## Limits and state -/

/-- The limits of a run. -/
structure Limits where
  /-- how many calls may be in progress at once -/
  calls : Nat
  /-- how many elements a declared array may have -/
  elements : Nat
deriving DecidableEq

/-- The limits where none are asked for. -/
def Limits.standard : Limits := ⟨48, 1048576⟩

/-- The state of a run. -/
structure Machine where
  scopes : ScopeTree
  /-- the scope in which names are declared and from which they are looked up -/
  current : Nat
  /-- how many calls are in progress -/
  activeCalls : Nat
  transcript : Transcript
  journal : Journal
deriving Inhabited

namespace Machine

/-- A machine that has run nothing. -/
def new (j : Journal) : Machine := ⟨.new, ScopeTree.global, 0, .new, j⟩

/-- The machine with nothing bound and no call in progress; what was printed
    stays. -/
def reset (m : Machine) : Machine :=
  { m with scopes := .new, current := ScopeTree.global, activeCalls := 0 }

/-- The machine with one more event recorded. -/
def log (m : Machine) (e : Event) : Machine := { m with journal := m.journal.record e }

end Machine

/-- A step of a run: from a machine to a result or the reason why the run stopped,
    and the machine after it. -/
abbrev Exec (α : Type) : Type := EStateM Stop Machine α

namespace Exec

/-! ## One step after another -/

theorem pure_apply {α : Type} (a : α) (m : Machine) : (pure a : Exec α) m = .ok a m := rfl

/-- The second step begins where the first gave a result; where the first stopped,
    both stop. -/
theorem bind_apply {α β : Type} (x : Exec α) (f : α → Exec β) (m : Machine) :
    (x >>= f) m = match x m with
      | .ok a q => f a q
      | .error stop q => .error stop q := by
  show EStateM.bind x f m = _
  unfold EStateM.bind
  cases x m <;> rfl

/-! ## Stopping -/

/-- Stops with a fault. -/
def fault {α : Type} (cause : FaultCause) (l : Location) : Exec α :=
  fun m => .error (.fault ⟨cause, l⟩) m

/-- Stops with a defect. -/
def defect {α : Type} (d : Defect) : Exec α := fun m => .error (.defect d) m

/-- Stops because the fuel is spent. -/
def outOfFuel {α : Type} : Exec α := fun m => .error .outOfFuel m

/-- Goes on with a result, or stops with a fault at a place. -/
def ofExcept {α : Type} (r : Except FaultCause α) (l : Location) : Exec α :=
  match r with
  | .ok a => pure a
  | .error cause => fault cause l

/-- Runs `last` after `body`, whether `body` gave a result or faulted.  A defect or
    spent fuel stops the run where it is. -/
def afterwards {α : Type} (body : Exec α) (last : Exec Unit) : Exec α := fun m =>
  match body m with
  | .ok a q => (do last; return a : Exec α) q
  | .error (.fault f) q => (do last; fault f.cause f.location : Exec α) q
  | .error stop q => .error stop q

/-! ## Output -/

/-- Records an event. -/
def log (e : Event) : Exec Unit := fun m => .ok () (m.log e)

/-- Prints a text that the source prints at `l`. -/
def print (text : String) (l : Location) : Exec Unit := fun m =>
  .ok () { m.log (.printed text l) with transcript := m.transcript.print text l }

/-! ## Scopes -/

/-- The scope that names are declared in and looked up from. -/
def currentScope : Exec Nat := fun m =>
  if m.current < m.scopes.size then .ok m.current m
  else .error (.defect (.deadScope m.current)) m

/-- Opens a scope inside `parent`, which has to be live, makes it the current one and
    gives its index. -/
def openScope (parent : Nat) : Exec Nat := fun m =>
  if parent < m.scopes.size then
    let (scope, scopes) := m.scopes.nest parent
    .ok scope ({ m with scopes := scopes, current := scope }.log (.pushed scope parent))
  else .error (.defect (.deadScope parent)) m

/-- Makes `saved` the current scope again and closes `scope`. -/
def closeScope (scope saved : Nat) : Exec Unit := fun m =>
  match m.scopes.close scope with
  | some scopes => .ok () ({ m with scopes := scopes, current := saved }.log (.popped scope))
  | none => .error (.defect (.closedOutOfOrder scope)) { m with current := saved }

/-- Runs `body` in a new scope inside `parent`. -/
def inNewScope {α : Type} (parent : Nat) (body : Exec α) : Exec α := do
  let saved ← currentScope
  let scope ← openScope parent
  afterwards body (closeScope scope saved)

/-- Runs `body` in a new scope inside the current one. -/
def inInnerScope {α : Type} (body : Exec α) : Exec α := do
  let parent ← currentScope
  inNewScope parent body

/-- Runs `body` while one more call is in progress. -/
def inCall {α : Type} (body : Exec α) : Exec α := do
  modify fun m => { m with activeCalls := m.activeCalls + 1 }
  afterwards body (modify fun m => { m with activeCalls := m.activeCalls - 1 })

/-! ## Names -/

/-- Searches for a symbol from the current scope outward, through scopes that all have to
    be live. -/
def search (y : Symbol) : Exec Nat := do
  let scope ← currentScope
  fun m => match m.scopes.stranded scope y with
    | some dead => .error (.defect (.deadScope dead)) m
    | none => .ok scope m

/-- What a symbol is bound to as seen from the current scope. -/
def resolve (y : Symbol) : Exec (Option Binding) := do
  let scope ← search y
  return (← get).scopes.lookup scope y

/-- Binds a symbol in the current scope, and tells whether it was free there. -/
def declare (y : Symbol) (b : Binding) : Exec Bool := do
  let scope ← currentScope
  fun m => match m.scopes.declare scope y b with
    | some scopes => .ok true { m with scopes := scopes }
    | none => .ok false m

/-- Changes the binding that a symbol has as seen from the current scope. -/
def rebind (y : Symbol) (b : Binding) : Exec Unit := do
  let scope ← search y
  fun m => match m.scopes.rebind scope y b with
    | some scopes => .ok () { m with scopes := scopes }
    | none => .ok () m

/-- The variable that a name stands for. -/
def variableNamed (name : String) (l : Location) : Exec Variable := do
  match ← resolve (.var name) with
  | some (.var v) => return v
  | _ => fault (.unboundVariable name) l

/-- Binds a variable in the current scope, where the name has to be free. -/
def declareVariable (name : String) (v : Variable) (l : Location) : Exec Unit := do
  if ← declare (.var name) (.var v) then return ()
  else fault (.nameTaken name) l

end Exec

end PocketC
