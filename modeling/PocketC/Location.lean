/-
  PocketC.Location

  Places in a source text.  Lines and columns count from 1; a column is one
  character (one Unicode scalar value), and only a line feed starts a new line.
-/

namespace PocketC

/-- A place in a source text. -/
structure Location where
  line : Nat
  column : Nat
deriving DecidableEq, Inhabited

namespace Location

/-- The place of the first character of a text. -/
def start : Location := ⟨1, 1⟩

/-- The place right after the character `c` that stands at `l`. -/
def advance (l : Location) (c : Char) : Location :=
  if c = '\n' then ⟨l.line + 1, 1⟩ else ⟨l.line, l.column + 1⟩

/-- The place right after the characters `cs` that begin at `l`. -/
def after (l : Location) (cs : List Char) : Location := cs.foldl advance l

/-- How messages name a place. -/
def text (l : Location) : String :=
  "line " ++ l.line.repr ++ ", column " ++ l.column.repr

@[simp] theorem after_nil (l : Location) : l.after [] = l := rfl

@[simp] theorem after_cons (l : Location) (c : Char) (cs : List Char) :
    l.after (c :: cs) = (l.advance c).after cs := rfl

/-- Passing over two texts one after the other is passing over both at once. -/
theorem after_append (l : Location) (xs ys : List Char) :
    l.after (xs ++ ys) = (l.after xs).after ys := by
  simp [after, List.foldl_append]

end Location

end PocketC
