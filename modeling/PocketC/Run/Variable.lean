/-
  PocketC.Run.Variable

  Reading and changing variables and array elements.  A variable that holds an
  array keeps its length: a shorter array fills the front and leaves the other
  elements without a value, a longer one is a fault.  Every check comes before
  the change, so a failed store changes nothing.
-/

import PocketC.Run.Machine

namespace PocketC

/-! ## Values that fit -/

/-- What a variable that holds `old` holds after `new` is stored in it. -/
def Value.fitting (name : String) (old new : Value) : Except FaultCause Value :=
  match old, new with
  | .array current, .array elements =>
    if elements.length ≤ current.length then
      .ok (.array (elements ++ List.replicate (current.length - elements.length) .uninitialized))
    else .error (.tooManyElements name current.length elements.length)
  | _, new => .ok new

/-- The elements of what the variable of a name holds. -/
def Value.elementsOf (name : String) : Value → Except FaultCause (List Value)
  | .array elements => .ok elements
  | .uninitialized => .error (.noValueYet name)
  | v => .error (.wrongType .array v.typeName)

/-- A number as a position in the array of a name, which has this length. -/
def positionIn (name : String) (length : Nat) (index : Int) : Except FaultCause Nat :=
  if 0 ≤ index ∧ index < length then .ok index.toNat
  else .error (.outOfBounds name index length)

namespace Exec

/-! ## Reading -/

/-- The value of a variable. -/
def load (name : String) (l : Location) : Exec Value := do
  let v ← variableNamed name l
  if v.value.isAssigned then return v.value
  else fault (.noValueYet name) l

/-- How messages name an element. -/
def elementName (name : String) (index : Int) : String :=
  name ++ "[" ++ Text.decimal index ++ "]"

/-- The value of an array element. -/
def loadElement (name : String) (index : Int) (l : Location) : Exec Value := do
  let v ← variableNamed name l
  let elements ← ofExcept (v.value.elementsOf name) l
  let i ← ofExcept (positionIn name elements.length index) l
  let element := elements.getD i .uninitialized
  if element.isAssigned then return element
  else fault (.noValueYet (elementName name index)) l

/-! ## Changing -/

/-- Lets only a value through that may be stored: what a call did not return may
    not. -/
def checkStorable (v : Value) (l : Location) : Exec Unit :=
  match v with
  | .void => fault (.wrongType .storable v.typeName) l
  | _ => pure ()

/-- Stores a value in a variable and gives what the variable then holds. -/
def store (name : String) (new : Value) (l : Location) : Exec Value := do
  checkStorable new l
  let v ← variableNamed name l
  let stored ← ofExcept (v.value.fitting name new) l
  rebind (.var name) (.var { v with value := stored })
  return stored

/-- Stores a value in an array element and gives the value. -/
def assignElement (name : String) (index : Int) (new : Value) (l : Location) : Exec Value := do
  checkStorable new l
  let v ← variableNamed name l
  let elements ← ofExcept (v.value.elementsOf name) l
  let i ← ofExcept (positionIn name elements.length index) l
  rebind (.var name) (.var { v with value := .array (elements.set i new) })
  return new

end Exec

end PocketC
