/-
  PocketC.Text.Numeral

  Decimal numbers as text, and the range of a machine word.
-/

namespace PocketC

/-! ## Words -/

/-- The least number that fits a 32-bit signed word. -/
def minWord : Int := -2147483648

/-- The greatest number that fits a 32-bit signed word. -/
def maxWord : Int := 2147483647

/-- The numbers that a program can compute with. -/
def FitsWord (n : Int) : Prop := minWord ≤ n ∧ n ≤ maxWord

instance (n : Int) : Decidable (FitsWord n) := inferInstanceAs (Decidable (_ ∧ _))

/-- The number itself if it fits a word. -/
def word? (n : Int) : Option Int := if FitsWord n then some n else none

/-- The least number beyond the indices of an address space of 64 bits. -/
def indexLimit : Nat := 18446744073709551616

namespace Text

/-! ## Writing -/

/-- A number in decimal, with a minus sign in front of a negative one. -/
def decimal : Int → String
  | .ofNat n => n.repr
  | .negSucc n => "-" ++ (n + 1).repr

/-! ## Reading -/

/-- One of the ten ASCII digits. -/
def isDigit (c : Char) : Bool := decide ('0' ≤ c) && decide (c ≤ '9')

/-- The number that a row of digits stands for. -/
def digitsValue (cs : List Char) : Nat :=
  cs.foldl (fun n c => 10 * n + (c.toNat - '0'.toNat)) 0

/-- The number written as a non-empty row of digits. -/
def readDigits? (cs : List Char) : Option Nat :=
  if cs ≠ [] ∧ cs.all isDigit then some (digitsValue cs) else none

/-- The word written as a row of digits with at most one sign in front. -/
def readWord? : List Char → Option Int
  | '-' :: cs => do word? (-(← readDigits? cs : Nat))
  | '+' :: cs => do word? (← readDigits? cs : Nat)
  | cs => do word? (← readDigits? cs : Nat)

end Text

end PocketC
