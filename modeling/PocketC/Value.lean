/-
  PocketC.Value

  What expressions evaluate to and variables hold.  Values carry their type with
  them; there is no memory to address.
-/

import PocketC.Text.Numeral

namespace PocketC

/-- A value. -/
inductive Value where
  | int (n : Int)
  | char (c : Char)
  | string (s : String)
  | array (elements : List Value)
  /-- what a call gives that returns nothing -/
  | void
  /-- what a variable or an array element holds before its first assignment -/
  | uninitialized
deriving Inhabited

namespace Value

/-! ## Views -/

/-- The value as a number: an int is one, and a char stands for its code point. -/
def number? : Value → Option Int
  | .int n => some n
  | .char c => some c.toNat
  | _ => none

/-- The name of the value's type in messages. -/
def typeName : Value → String
  | .int _ => "int"
  | .char _ => "char"
  | .string _ => "string"
  | .array _ => "array"
  | .void => "void"
  | .uninitialized => "uninitialized"

/-- Whether a value was ever assigned. -/
def isAssigned : Value → Bool
  | .uninitialized => false
  | _ => true

/-! ## Text -/

mutual

/-- The text of a value. -/
def text : Value → String
  | .int n => Text.decimal n
  | .char c => c.toString
  | .string s => s
  | .array es => "[" ++ ", ".intercalate (textAll es) ++ "]"
  | .void => "void"
  | .uninitialized => "<uninitialized>"

/-- The texts of some values. -/
def textAll : List Value → List String
  | [] => []
  | v :: vs => text v :: textAll vs

end

/-- The texts of some values are the text of each. -/
theorem textAll_eq_map (vs : List Value) : textAll vs = vs.map text := by
  induction vs with
  | nil => rfl
  | cons v vs ih => simp [textAll, ih]

/-! ## Equality -/

mutual

/-- Whether two values are the same. -/
def same : Value → Value → Bool
  | .int m, .int n => m == n
  | .char c, .char d => c == d
  | .string s, .string t => s == t
  | .array es, .array fs => sameAll es fs
  | .void, .void => true
  | .uninitialized, .uninitialized => true
  | _, _ => false

/-- Whether two rows hold the same values. -/
def sameAll : List Value → List Value → Bool
  | [], [] => true
  | v :: vs, w :: ws => same v w && sameAll vs ws
  | _, _ => false

end

mutual

theorem eq_of_same : ∀ (v w : Value), same v w = true → v = w
  | .int _, w, h | .char _, w, h | .string _, w, h | .void, w, h | .uninitialized, w, h => by
    cases w <;> simp_all [same]
  | .array es, w, h => by
    cases w with
    | array fs => rw [eq_of_sameAll es fs (by simpa [same] using h)]
    | _ => simp [same] at h

theorem eq_of_sameAll : ∀ vs ws : List Value, sameAll vs ws = true → vs = ws
  | [], ws, h => by cases ws <;> simp_all [sameAll]
  | v :: vs, ws, h => by
    cases ws with
    | nil => simp [sameAll] at h
    | cons w ws =>
      simp only [sameAll, Bool.and_eq_true] at h
      rw [eq_of_same v w h.1, eq_of_sameAll vs ws h.2]

end

mutual

theorem same_refl : ∀ v : Value, same v v = true
  | .int _ | .char _ | .string _ | .void | .uninitialized => by simp [same]
  | .array es => by simpa [same] using sameAll_refl es

theorem sameAll_refl : ∀ vs : List Value, sameAll vs vs = true
  | [] => rfl
  | v :: vs => by simp [sameAll, same_refl v, sameAll_refl vs]

end

instance : DecidableEq Value := fun v w =>
  if h : same v w = true then isTrue (eq_of_same v w h)
  else isFalse fun e => h (e ▸ same_refl v)

end Value

end PocketC
