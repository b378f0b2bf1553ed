/-
  PocketC.Output.Journal

  A record of what happened while a program was read and run.  A journal keeps
  the events up to the level of detail that was asked for.
-/

import PocketC.Location
import PocketC.Value
import PocketC.Text.Escape

namespace PocketC

/-- How much detail an event is. -/
inductive Level where
  | debug | trace
deriving DecidableEq, Inhabited

/-- Something that happened. -/
inductive Event where
  | lexed (tokens : Nat)
  | parsed (nodes : Nat)
  | binding (nodes : Nat)
  | callingEntry
  | entryReturned (value : Value)
  | called (name : String) (arity : Nat) (location : Location)
  | redeclared (name : String) (arity : Nat) (location : Location)
  | pushed (scope parent : Nat)
  | popped (scope : Nat)
  | printed (text : String) (location : Location)
deriving DecidableEq

/-- The function that a run calls. -/
def entryPoint : String := "main"

namespace Event

/-- The level of an event: scopes and prints are details. -/
def level : Event → Level
  | .pushed .. | .popped .. | .printed .. => .trace
  | _ => .debug

/-- The text of an event. -/
def text : Event → String
  | .lexed n => "lexed " ++ n.repr ++ " tokens"
  | .parsed n => "parsed " ++ n.repr ++ " top-level statements"
  | .binding n => "binding " ++ n.repr ++ " top-level statements"
  | .callingEntry => "calling " ++ entryPoint ++ "()"
  | .entryReturned v => entryPoint ++ "() returned " ++ v.text
  | .called name arity l => "call " ++ name ++ "/" ++ arity.repr ++ " at " ++ l.text
  | .redeclared name arity l =>
    "repeated declaration of " ++ name ++ "/" ++ arity.repr ++ " at " ++ l.text
  | .pushed scope parent => "push scope " ++ scope.repr ++ " (parent " ++ parent.repr ++ ")"
  | .popped scope => "pop scope " ++ scope.repr
  | .printed s l => "print at " ++ l.text ++ ": " ++ Text.quote s

end Event

/-- The recorded events, the newest in front, and the level of detail asked for. -/
structure Journal where
  detail : Option Level
  newest : List Event
deriving DecidableEq, Inhabited

namespace Journal

/-- A journal that nothing is written in yet. -/
def new (detail : Option Level) : Journal := ⟨detail, []⟩

/-- Whether the journal keeps events of a level. -/
def keeps (j : Journal) (level : Level) : Bool :=
  match j.detail with
  | none => false
  | some .debug => level == .debug
  | some .trace => true

/-- Records an event, if the journal keeps such. -/
def record (j : Journal) (e : Event) : Journal :=
  if j.keeps e.level then { j with newest := e :: j.newest } else j

/-- The recorded events in order. -/
def events (j : Journal) : List Event := j.newest.reverse

/-- Recording adds an event at the end, or nothing. -/
theorem events_record (j : Journal) (e : Event) :
    (j.record e).events = j.events ++ if j.keeps e.level then [e] else [] := by
  by_cases h : j.keeps e.level <;> simp [record, events, h]

end Journal

end PocketC
