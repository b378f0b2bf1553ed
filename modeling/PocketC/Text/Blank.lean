/-
  PocketC.Text.Blank

  Blank characters: the characters with the Unicode property `White_Space`.
  Core's `Char.isWhitespace` knows only four of them, so the property's ranges
  are listed here.
-/

namespace PocketC.Text

/-- The code points of the property `White_Space`, as inclusive ranges. -/
def blankRanges : List (Nat × Nat) :=
  [(0x0009, 0x000d), (0x0020, 0x0020), (0x0085, 0x0085), (0x00a0, 0x00a0),
   (0x1680, 0x1680), (0x2000, 0x200a), (0x2028, 0x2029), (0x202f, 0x202f),
   (0x205f, 0x205f), (0x3000, 0x3000)]

/-- Whether a character separates tokens without being part of one. -/
def isBlank (c : Char) : Bool :=
  blankRanges.any fun (low, high) => decide (low ≤ c.toNat) && decide (c.toNat ≤ high)

/-- The characters that core counts as whitespace are blank. -/
theorem isBlank_of_isWhitespace {c : Char} (h : c.isWhitespace = true) : isBlank c = true := by
  simp only [Char.isWhitespace, Bool.or_eq_true, decide_eq_true_eq] at h
  rcases h with ((rfl | rfl) | rfl) | rfl <;> decide

/-- The property has 25 code points. -/
theorem size_blankRanges :
    blankRanges.foldl (fun n (low, high) => n + (high + 1 - low)) 0 = 25 := rfl

end PocketC.Text
