/-
  PocketC.Proofs.Output.Printed

  The printed form of a value is its text.  The text shows all of a value, also what was never
  assigned and what a call did not return.  A value with such a part, however deep, has no
  printed form, and the first such part from the left is what is reported.
-/

import PocketC.Output.Format

namespace PocketC
namespace Value

/-! ## Parts of values -/

mutual

/-- The parts of a value that are no arrays, at any depth, from left to right. -/
def leaves : Value → List Value
  | .array es => leavesAll es
  | v => [v]

/-- The parts of some values that are no arrays. -/
def leavesAll : List Value → List Value
  | [] => []
  | v :: vs => leaves v ++ leavesAll vs

end

/-- Whether there is nothing to print: the value was never assigned, or a call did not return it. -/
def isHole : Value → Bool
  | .void | .uninitialized => true
  | _ => false

/-- The value contains neither Void nor anything that was never assigned, at any depth. -/
def Printable (v : Value) : Prop := .void ∉ v.leaves ∧ .uninitialized ∉ v.leaves

instance (v : Value) : Decidable v.Printable := inferInstanceAs (Decidable (_ ∧ _))

theorem isHole_iff {v : Value} : v.isHole = true ↔ v = .void ∨ v = .uninitialized := by
  cases v <;> simp [isHole]

theorem printable_iff {v : Value} : v.Printable ↔ v.leaves.find? isHole = none := by
  rw [List.find?_eq_none]
  constructor
  · intro h part hpart hhole
    rcases isHole_iff.mp hhole with rfl | rfl
    · exact h.1 hpart
    · exact h.2 hpart
  · intro h
    have hvoid := fun hpart => h .void hpart rfl
    have huninitialized := fun hpart => h .uninitialized hpart rfl
    exact ⟨hvoid, huninitialized⟩

/-! ## Printed forms -/

/-- The text of an array from behind its first element on. -/
def textBehind (vs : List Value) : List Char :=
  vs.flatMap (fun v => ',' :: ' ' :: v.text.toList) ++ [']']

theorem text_array (v : Value) (vs : List Value) :
    (array (v :: vs)).text.toList = '[' :: v.text.toList ++ textBehind vs := by
  -- the separators of a row of texts stand in front of all of them but the first
  have hrow : ∀ (vs : List Value) (v : Value), (", ".intercalate (textAll (v :: vs))).toList =
      v.text.toList ++ vs.flatMap fun v => ',' :: ' ' :: v.text.toList := by
    intro vs
    induction vs with
    | nil => simp [textAll]
    | cons w vs ih =>
      intro v
      have htail := ih w
      simp only [textAll] at htail ⊢
      rw [String.intercalate_cons_cons]
      simp [htail]
  rw [text, String.toList_append, String.toList_append, hrow vs v]
  simp [textBehind]

end Value

namespace Format

open Value

mutual

/-- A value is printed as its text, up to its first part that cannot be printed. -/
theorem printed_eq : ∀ v : Value, printed v = match v.leaves.find? isHole with
    | none => .ok v.text.toList
    | some part => .error (.unprintable part)
  | .int _ | .char _ | .string _ => by simp [printed, leaves, isHole, Value.text]
  | .void | .uninitialized => rfl
  | .array [] => by simp [printed, leaves, leavesAll, Value.text, textAll]
  | .array (v :: vs) => by
    rw [printed, leaves, leavesAll, List.find?_append, printed_eq v, printedBehind_eq vs]
    cases v.leaves.find? isHole with
    | some part => rfl
    | none =>
      cases (leavesAll vs).find? isHole with
      | some part => rfl
      | none =>
        rw [text_array]
        rfl

theorem printedBehind_eq : ∀ vs : List Value,
    printedBehind vs = match (leavesAll vs).find? isHole with
      | none => .ok (textBehind vs)
      | some part => .error (.unprintable part)
  | [] => rfl
  | v :: vs => by
    rw [printedBehind, leavesAll, List.find?_append, printed_eq v, printedBehind_eq vs]
    cases v.leaves.find? isHole with
    | some part => rfl
    | none =>
      cases (leavesAll vs).find? isHole with
      | some part => rfl
      | none => simp [textBehind, bind, Except.bind, pure, Except.pure]

end

theorem printed_of_printable {v : Value} (h : v.Printable) : printed v = .ok v.text.toList := by
  rw [printed_eq, printable_iff.mp h]

theorem printed_of_hole {v part : Value} (h : v.leaves.find? isHole = some part) :
    printed v = .error (.unprintable part) := by
  rw [printed_eq, h]

end Format
end PocketC
