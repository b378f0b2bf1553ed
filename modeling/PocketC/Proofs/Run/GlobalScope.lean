/-
  PocketC.Proofs.Run.GlobalScope

  Binding the variables of a program.  All of it happens in the global scope, and where no
  function is called none is looked at, so it goes the same way on machines that bind the
  same variables, whatever functions they bind.
-/

import PocketC.Proofs.Parallel
import PocketC.Proofs.Run.Changes
import PocketC.Proofs.Run.Comparison

namespace PocketC

open ScopeTree

/-! ## Functions and variables -/

/-- Functions by their names and their numbers of parameters. -/
abbrev FunctionMap : Type := String → Nat → Option Function

/-- The functions with `f` in place of what was found by its name and its number of parameters. -/
def FunctionMap.set (T : FunctionMap) (name : String) (arity : Nat) (f : Function) : FunctionMap :=
  fun name' arity' => if name' = name ∧ arity' = arity then some f else T name' arity'

namespace Machine

/-- No scope but the global one is open. -/
structure AtGlobal (m : Machine) : Prop where
  current : m.current = global
  parents : m.scopes.parents = [none]

variable {m m' : Machine} {y : Symbol}

theorem atGlobal_reset (m : Machine) : m.reset.AtGlobal := ⟨rfl, rfl⟩

namespace AtGlobal

theorem size (h : m.AtGlobal) : m.scopes.size = 1 := by
  rw [size_eq_length_parents, h.parents]
  rfl

theorem wellFormed (h : m.AtGlobal) : m.WellFormed where
  current_live := by
    rw [h.current, h.size]
    exact Nat.zero_lt_one
  nested := by
    intro i p hi
    rw [h.parents] at hi
    cases i <;> cases hi

theorem holder (h : m.AtGlobal) (y : Symbol) :
    m.scopes.holder m.current y =
      if (m.scopes.boundAt global y).isSome then some global else none := by
  have hlive : global < m.scopes.size := h.wellFormed.global_live
  rw [ScopeTree.holder, h.current, outward_global h.wellFormed.nested hlive, List.find?_singleton,
    bindsAt_eq_isSome]

/-- What is bound in the global scope is all that a search finds. -/
theorem lookup (h : m.AtGlobal) (y : Symbol) :
    m.scopes.lookup m.current y = m.scopes.boundAt global y := by
  rw [ScopeTree.lookup, h.holder]
  cases hy : m.scopes.boundAt global y with
  | none => rfl
  | some b => exact hy

theorem resolve (h : m.AtGlobal) (y : Symbol) :
    Exec.resolve y m = .ok (m.scopes.boundAt global y) m := by
  rw [Exec.resolve_eq h.wellFormed, h.lookup]

theorem rebind_of_none (h : m.AtGlobal) (hy : m.scopes.boundAt global y = none) (b : Binding) :
    Exec.rebind y b m = .ok () m := by
  have hnone : m.scopes.rebind m.current y b = none := by
    rw [ScopeTree.rebind, h.holder, hy]
    rfl
  rw [Exec.rebind_eq h.wellFormed, hnone]

theorem setScopes (h : m.AtGlobal) {u : ScopeTree} (hu : u.parents = m.scopes.parents) :
    AtGlobal { m with scopes := u } :=
  ⟨h.current, hu.trans h.parents⟩

theorem log (h : m.AtGlobal) (e : Event) : (m.log e).AtGlobal := ⟨h.current, h.parents⟩

theorem rebinds (h : m.AtGlobal) {b c : Binding} {u : ScopeTree}
    (hu : m.scopes.Rebinds m.current y b c u) :
    m.scopes.boundAt global y = some b ∧ m.scopes.Sets u global y c := by
  obtain ⟨i, hi, hb, hsets⟩ := hu
  rw [h.holder] at hi
  split at hi
  · cases hi
    exact ⟨hb, hsets⟩
  · cases hi

theorem declares (h : m.AtGlobal) {b : Binding} {u : ScopeTree}
    (hu : m.scopes.Declares m.current y b u) :
    m.scopes.boundAt global y = none ∧ m.scopes.Sets u global y b := by
  rw [← h.current]
  exact hu

/-- Machines on which all symbols are bound to what stands for each other have trees that are
    alike. -/
theorem alike (h : m.AtGlobal) (h' : m'.AtGlobal) {Fn : Function → Function → Prop}
    (hbound : ∀ y, Option.Rel (Binding.Alike Fn) (m.scopes.boundAt global y)
      (m'.scopes.boundAt global y)) : m.scopes.Alike Fn m'.scopes := by
  have hlive : ∀ {n : Machine}, n.AtGlobal →
      ∃ s : Scope, n.scopes.live = [s] ∧ s.parent = none := by
    intro n hn
    have hsize : n.scopes.live.length = 1 := hn.size
    obtain ⟨s, hs⟩ := List.length_eq_one_iff.mp hsize
    have hparents := hn.parents
    rw [ScopeTree.parents, hs] at hparents
    exact ⟨s, hs, List.head_eq_of_cons_eq hparents⟩
  obtain ⟨s, hs, hparent⟩ := hlive h
  obtain ⟨s', hs', hparent'⟩ := hlive h'
  unfold ScopeTree.boundAt at hbound
  intro i
  rw [hs, hs'] at hbound ⊢
  cases i with
  | zero => exact .some ⟨hparent.trans hparent'.symm, hbound⟩
  | succ i => exact .none

end AtGlobal

/-- Both machines bind the same variables, and `m'` binds the functions `T`; the same text was
    printed. -/
structure Shares (T : FunctionMap) (m m' : Machine) : Prop where
  left : m.AtGlobal
  right : m'.AtGlobal
  sameVariables : ∀ name,
    m.scopes.boundAt global (.var name) = m'.scopes.boundAt global (.var name)
  functions : ∀ name arity, m'.scopes.boundAt global (.fn name arity) = (T name arity).map .fn
  activeCalls : m.activeCalls = m'.activeCalls
  text : m.transcript.text = m'.transcript.text

namespace Shares

variable {T : FunctionMap} {u u' : ScopeTree}

theorem log (h : Shares T m m') (e : Event) : Shares T m (m'.log e) :=
  ⟨h.left, h.right.log e, h.sameVariables, h.functions, h.activeCalls, h.text⟩

theorem setVariable (h : Shares T m m') {name : String} {b : Binding}
    (hu : m.scopes.Sets u global (.var name) b) (hu' : m'.scopes.Sets u' global (.var name) b) :
    Shares T { m with scopes := u } { m' with scopes := u' } where
  left := h.left.setScopes hu.parents
  right := h.right.setScopes hu'.parents
  sameVariables name' := by
    show u.boundAt _ _ = u'.boundAt _ _
    rw [hu.boundAt, hu'.boundAt, h.sameVariables]
  functions name' arity := by
    show u'.boundAt _ _ = _
    rw [hu'.boundAt, if_neg (fun hy => by cases hy.2), h.functions]
  activeCalls := h.activeCalls
  text := h.text

theorem setFunction (h : Shares T m m') {name : String} {arity : Nat} {f : Function}
    (hu : m'.scopes.Sets u' global (.fn name arity) (.fn f)) :
    Shares (T.set name arity f) m { m' with scopes := u' } where
  left := h.left
  right := h.right.setScopes hu.parents
  sameVariables name' := by
    show _ = u'.boundAt _ _
    rw [hu.boundAt, if_neg (fun hy => by cases hy.2), h.sameVariables]
  functions name' arity' := by
    show u'.boundAt _ _ = _
    rw [hu.boundAt, h.functions, FunctionMap.set]
    by_cases hsame : name' = name ∧ arity' = arity
    · rw [if_pos hsame, if_pos ⟨rfl, by rw [hsame.1, hsame.2]⟩]
      rfl
    · rw [if_neg hsame, if_neg]
      rintro ⟨_, hy⟩
      cases hy
      exact hsame ⟨rfl, rfl⟩
  activeCalls := h.activeCalls
  text := h.text

end Shares
end Machine

/-! ## Variables alone -/

namespace Exec

open Machine

/-- On machines that bind the same variables, what looks at variables alone goes the same way and
    leaves the functions as they are. -/
def sharing (T : FunctionMap) (limits : Limits) : VariableComparison limits limits where
  At := Eq
  Holds x y Q := Parallel Eq (Shares T) x y Q
  pure := .pure
  bind := .bind
  fault cause hl m m' h := by
    rw [hl]
    exact .error rfl h
  newArray name size hl m m' h := by
    rw [hl]
    cases newArray limits name size with
    | ok v => exact .ok rfl h
    | error cause => exact .error rfl h
  variableNamed name hl m m' h := by
    unfold Exec.variableNamed
    rw [bind_ok (h.left.resolve _), bind_ok (h.right.resolve _), h.sameVariables name, hl]
    match m'.scopes.boundAt global (.var name) with
    | some (.var v) => exact .ok rfl h
    | some (.fn f) => exact .error rfl h
    | none => exact .error rfl h
  declareVariable name v hl m m' h := by
    rw [hl]
    -- the name is free on both machines or bound on both
    rcases declareVariable_cases h.left.wellFormed name v _ with ⟨u, hu, hok⟩ | ⟨hbound, herror⟩
    · obtain ⟨hfree, hsets⟩ := h.left.declares hu
      rcases declareVariable_cases h.right.wellFormed name v _ with ⟨u', hu', hok'⟩ | ⟨hbound', _⟩
      · rw [hok, hok']
        exact .ok rfl (h.setVariable hsets (h.right.declares hu').2)
      · rw [h.right.current, ← h.sameVariables, hfree] at hbound'
        cases hbound'
    · rcases declareVariable_cases h.right.wellFormed name v _ with ⟨u', hu', _⟩ | ⟨_, herror'⟩
      · rw [h.left.current, h.sameVariables, (h.right.declares hu').1] at hbound
        cases hbound
      · rw [herror, herror']
        exact .error rfl h
  rebindVariable name v m m' h := by
    have hsame := h.sameVariables name
    cases hbound : m.scopes.boundAt global (.var name) with
    | none =>
        rw [hbound] at hsame
        rw [h.left.rebind_of_none hbound, h.right.rebind_of_none hsame.symm]
        exact .ok rfl h
    | some b =>
        rw [hbound] at hsame
        rw [← h.left.lookup] at hbound
        rw [← h.right.lookup] at hsame
        obtain ⟨u, hu, hok⟩ := rebind_of_lookup h.left.wellFormed hbound (.var v)
        obtain ⟨u', hu', hok'⟩ := rebind_of_lookup h.right.wellFormed hsame.symm (.var v)
        rw [hok, hok']
        exact .ok rfl (h.setVariable (h.left.rebinds hu).2 (h.right.rebinds hu').2)

end Exec
end PocketC
