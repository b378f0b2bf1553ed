/-
  PocketC.Output.Transcript

  What a program has printed.  Nothing is written while the program runs: the
  printed texts are recorded, those that one source line prints in a row as one
  entry, and delivered to a writer when asked for.
-/

import PocketC.Location

namespace PocketC

/-- What one source line printed, and the place of the first print. -/
structure Entry where
  text : String
  location : Location
deriving DecidableEq, Inhabited

/-- The recorded entries, the newest in front. -/
structure Transcript where
  newest : List Entry
deriving DecidableEq, Inhabited

/-! ## Writers -/

/-- How many writes a writer still accepts before it fails; `none` if it never
    does. -/
abbrev Budget : Type := Option Nat

/-- What is left of a budget after a text is written; `none` if that fails.  An
    empty text needs no write. -/
def Budget.spend (b : Budget) (text : String) : Option Budget :=
  if text = "" then some b
  else match b with
    | none => some none
    | some 0 => none
    | some (n + 1) => some (some n)

/-- The entries that a writer takes, and those from the first that it refuses on. -/
def Budget.deliver : Budget → List Entry → List Entry × List Entry
  | _, [] => ([], [])
  | b, e :: es =>
    match b.spend e.text with
    | none => ([], e :: es)
    | some b =>
      let (taken, left) := deliver b es
      (e :: taken, left)

/-- A writer takes a front part of the entries. -/
theorem Budget.deliver_append (b : Budget) (es : List Entry) :
    (b.deliver es).1 ++ (b.deliver es).2 = es := by
  induction es generalizing b with
  | nil => rfl
  | cons e es ih =>
    cases h : b.spend e.text with
    | none => simp [deliver, h]
    | some b' => simpa [deliver, h] using ih b'

namespace Transcript

/-! ## Printing -/

/-- A transcript that recorded nothing. -/
def new : Transcript := ⟨[]⟩

/-- Records a text that the source prints at `l`. -/
def print (t : Transcript) (text : String) (l : Location) : Transcript :=
  match t.newest with
  | [] => ⟨[⟨text, l⟩]⟩
  | e :: es =>
    if e.location.line = l.line then ⟨⟨e.text ++ text, e.location⟩ :: es⟩
    else ⟨⟨text, l⟩ :: e :: es⟩

/-! ## Views -/

/-- The entries in the order in which they were printed. -/
def entries (t : Transcript) : List Entry := t.newest.reverse

/-- The text of some entries. -/
def textOf (es : List Entry) : String := String.join (es.map (·.text))

/-- Everything recorded. -/
def text (t : Transcript) : String := textOf t.entries

theorem textOf_append (es fs : List Entry) : textOf (es ++ fs) = textOf es ++ textOf fs := by
  simp [textOf, String.join_append]

/-- A print adds its text at the end of what is recorded, in a new entry or not. -/
theorem text_print (t : Transcript) (s : String) (l : Location) :
    (t.print s l).text = t.text ++ s := by
  obtain ⟨newest⟩ := t
  cases newest with
  | nil => simp [print, text, entries, textOf, String.join]
  | cons e es =>
    by_cases h : e.location.line = l.line <;>
      simp [print, text, entries, h, textOf, String.append_assoc]

/-- Whether nothing is recorded, not even an empty text. -/
def isEmpty (t : Transcript) : Bool := t.newest.isEmpty

/-- The pieces of a text between its line feeds. -/
def splitLines (cs : List Char) : List (List Char) :=
  cs.foldr
    (fun c pieces =>
      if c = '\n' then [] :: pieces
      else match pieces with
        | [] => [[c]]
        | p :: ps => (c :: p) :: ps)
    [[]]

/-- The lines of the recorded text; a line feed at the very end opens no line. -/
def textLines (t : Transcript) : List String :=
  let pieces := splitLines t.text.toList
  (if pieces.getLast? = some [] then pieces.dropLast else pieces).map String.ofList

/-! ## Delivering -/

/-- What became of a delivery. -/
structure Delivery where
  /-- whether the writer took everything -/
  ok : Bool
  written : String
  left : Transcript

/-- Delivers the recorded entries to a writer; those it took are forgotten. -/
def deliver (t : Transcript) (b : Budget) : Delivery :=
  let (taken, left) := b.deliver t.entries
  ⟨left.isEmpty, textOf taken, ⟨left.reverse⟩⟩

end Transcript

end PocketC
