/-
  PocketC.Names.Scope

  One scope: the symbols bound in it, and the scope around it.
-/

import PocketC.Names.Binding

namespace PocketC

/-- A scope.  `parent` is the index of the scope around it; the global scope has
    none. -/
structure Scope where
  bindings : List (Symbol × Binding)
  parent : Option Nat
deriving Inhabited

namespace Scope

/-- A scope that binds nothing. -/
def empty (parent : Option Nat) : Scope := ⟨[], parent⟩

/-- What a symbol is bound to in a scope. -/
def lookup (s : Scope) (y : Symbol) : Option Binding := s.bindings.lookup y

/-- Whether a scope binds a symbol. -/
def binds (s : Scope) (y : Symbol) : Bool := (s.lookup y).isSome

/-- The scope with one more binding. -/
def insert (s : Scope) (y : Symbol) (b : Binding) : Scope :=
  { s with bindings := (y, b) :: s.bindings }

/-- The bindings with another one for a symbol that is bound. -/
def replaceIn (y : Symbol) (b : Binding) : List (Symbol × Binding) → List (Symbol × Binding)
  | [] => []
  | (z, c) :: rest => if y = z then (z, b) :: rest else (z, c) :: replaceIn y b rest

/-- The scope with another binding for a symbol that it binds. -/
def replace (s : Scope) (y : Symbol) (b : Binding) : Scope :=
  { s with bindings := replaceIn y b s.bindings }

/-! ## Looking up after a change -/

@[simp] theorem lookup_empty (p : Option Nat) (y : Symbol) : (empty p).lookup y = none := rfl

theorem lookup_insert (s : Scope) (y z : Symbol) (b : Binding) :
    (s.insert y b).lookup z = if z = y then some b else s.lookup z := by
  by_cases h : z = y
  · simp [lookup, insert, h]
  · have hzy : (z == y) = false := by simpa using h
    simp [lookup, insert, List.lookup_cons, h, hzy]

theorem lookup_replaceIn (y z : Symbol) (b : Binding) (l : List (Symbol × Binding)) :
    (replaceIn y b l).lookup z = if z = y then (l.lookup z).map fun _ => b else l.lookup z := by
  induction l with
  | nil => simp [replaceIn]
  | cons e l ih =>
    obtain ⟨w, c⟩ := e
    by_cases hw : y = w
    · subst hw
      by_cases hz : z = y
      · simp [replaceIn, hz]
      · have hzy : (z == y) = false := by simpa using hz
        simp [replaceIn, List.lookup_cons, hz, hzy]
    · by_cases hz : z = w
      · subst hz
        simp [replaceIn, hw, Ne.symm hw]
      · have hzw : (z == w) = false := by simpa using hz
        simp [replaceIn, List.lookup_cons, hw, hzw, ih]

/-- A changed binding is found; all others are as before. -/
theorem lookup_replace (s : Scope) (y z : Symbol) (b : Binding) :
    (s.replace y b).lookup z = if z = y then (s.lookup z).map fun _ => b else s.lookup z :=
  lookup_replaceIn y z b s.bindings

end Scope

end PocketC
