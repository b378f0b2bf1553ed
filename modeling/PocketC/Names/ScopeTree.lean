/-
  PocketC.Names.ScopeTree

  The live scopes.  Each is known by its index, the global one by 0.  Scopes are
  opened and closed like a stack, but a new scope may stand inside any live one:
  the body of a function stands inside the global scope, wherever it is called.
-/

import PocketC.Names.Scope

namespace PocketC

/-- The live scopes, in the order in which they were opened. -/
structure ScopeTree where
  live : List Scope
deriving Inhabited

namespace ScopeTree

/-- The index of the global scope. -/
def global : Nat := 0

/-- A tree with the global scope alone. -/
def new : ScopeTree := ⟨[.empty none]⟩

/-- How many scopes are live. -/
def size (t : ScopeTree) : Nat := t.live.length

/-! ## Opening and closing -/

/-- Opens a scope inside `parent` and gives its index. -/
def nest (t : ScopeTree) (parent : Nat) : Nat × ScopeTree :=
  (t.size, ⟨t.live ++ [.empty (some parent)]⟩)

/-- Closes a scope; `none` unless it is the newest one and not the global one. -/
def close (t : ScopeTree) (scope : Nat) : Option ScopeTree :=
  if scope ≠ global ∧ scope + 1 = t.size then some ⟨t.live.dropLast⟩ else none

theorem size_nest (t : ScopeTree) (parent : Nat) : (t.nest parent).2.size = t.size + 1 := by
  simp [nest, size]

theorem size_close {t u : ScopeTree} {scope : Nat} (h : t.close scope = some u) :
    u.size + 1 = t.size := by
  simp only [close] at h
  split at h
  · rename_i hc
    cases h
    simp only [size, List.length_dropLast] at hc ⊢
    omega
  · cases h

/-- Closing the scope that was just opened undoes the opening. -/
theorem close_nest {t : ScopeTree} (parent : Nat) (h : 0 < t.size) :
    (t.nest parent).2.close (t.nest parent).1 = some t := by
  have hg : t.size ≠ global := Nat.ne_of_gt h
  simp [close, nest, size] at hg ⊢
  exact hg

/-! ## Finding -/

/-- The indices of at most `bound` scopes from `scope` outward. -/
def outwardWithin (t : ScopeTree) : (bound scope : Nat) → List Nat
  | 0, _ => []
  | bound + 1, scope =>
    match t.live[scope]? with
    | none => []
    | some s =>
      scope :: match s.parent with
        | none => []
        | some parent => outwardWithin t bound parent

/-- The indices of the scopes from `scope` outward.  A scope has a greater index
    than the one around it, so there are at most `scope + 1` of them. -/
def outward (t : ScopeTree) (scope : Nat) : List Nat := t.outwardWithin (scope + 1) scope

/-- Whether the scope of an index binds a symbol. -/
def bindsAt (t : ScopeTree) (y : Symbol) (scope : Nat) : Bool := t.live[scope]?.any (·.binds y)

/-- The innermost scope from `scope` outward that binds a symbol. -/
def holder (t : ScopeTree) (scope : Nat) (y : Symbol) : Option Nat :=
  (t.outward scope).find? (t.bindsAt y)

/-- The index of the scope that is not live at which a search for a symbol ends that
    passes at most `bound` scopes from `scope` outward; `none` if it ends in a live one. -/
def strandedWithin (t : ScopeTree) (y : Symbol) : (bound scope : Nat) → Option Nat
  | 0, _ => none
  | bound + 1, scope =>
    match t.live[scope]? with
    | none => some scope
    | some s =>
      if s.binds y then none
      else match s.parent with
        | none => none
        | some parent => strandedWithin t y bound parent

/-- The index of the scope that is not live at which a search for a symbol from `scope`
    outward ends; `none` if it ends in a live one. -/
def stranded (t : ScopeTree) (scope : Nat) (y : Symbol) : Option Nat :=
  t.strandedWithin y (scope + 1) scope

/-- What a symbol is bound to as seen from `scope`. -/
def lookup (t : ScopeTree) (scope : Nat) (y : Symbol) : Option Binding := do
  let i ← t.holder scope y
  let s ← t.live[i]?
  s.lookup y

/-! ## Binding -/

/-- Binds a symbol in a scope; `none` if that scope binds it already, whatever
    the scopes around it do. -/
def declare (t : ScopeTree) (scope : Nat) (y : Symbol) (b : Binding) : Option ScopeTree :=
  if t.bindsAt y scope then none else some ⟨t.live.modify scope (·.insert y b)⟩

/-- Changes the binding that a symbol has as seen from `scope`; `none` if it has
    none. -/
def rebind (t : ScopeTree) (scope : Nat) (y : Symbol) (b : Binding) : Option ScopeTree := do
  let i ← t.holder scope y
  return ⟨t.live.modify i (·.replace y b)⟩

end ScopeTree

end PocketC
