/-
  PocketC.Proofs.Run.Steps

  What the steps on names and scopes do on a well-formed machine, one equation for
  each: the current scope is live and every scope stands inside an older one, so that
  no step meets a scope that is not live.
-/

import PocketC.Proofs.Names.Outward
import PocketC.Run.Call

namespace PocketC

/-! ## Well-formed machines -/

namespace Machine

/-- The current scope is live, and every scope stands inside an older one. -/
structure WellFormed (m : Machine) : Prop where
  current_live : m.current < m.scopes.size
  nested : m.scopes.Nested

theorem WellFormed.global_live {m : Machine} (hm : m.WellFormed) :
    ScopeTree.global < m.scopes.size :=
  Nat.lt_of_le_of_lt (Nat.zero_le _) hm.current_live

theorem wellFormed_reset (m : Machine) : m.reset.WellFormed :=
  ⟨Nat.zero_lt_one, ScopeTree.nested_new⟩

theorem WellFormed.log {m : Machine} (hm : m.WellFormed) (e : Event) : (m.log e).WellFormed :=
  ⟨hm.current_live, hm.nested⟩

/-- The machine after a scope is opened inside `parent`. -/
def opened (m : Machine) (parent : Nat) : Machine :=
  { m with scopes := (m.scopes.nest parent).2, current := m.scopes.size }.log
    (.pushed m.scopes.size parent)

/-- The machine after `scope` is closed, which leaves the scopes `rest`, and `saved` is the
    current scope again. -/
def closed (m : Machine) (rest : ScopeTree) (scope saved : Nat) : Machine :=
  { m with scopes := rest, current := saved }.log (.popped scope)

theorem WellFormed.opened {m : Machine} (hm : m.WellFormed) {parent : Nat}
    (hp : parent < m.scopes.size) : (m.opened parent).WellFormed where
  current_live := by
    show m.scopes.size < (m.scopes.nest parent).2.size
    rw [ScopeTree.size_nest]
    exact Nat.lt_succ_self _
  nested := ScopeTree.nested_nest hm.nested hp

end Machine

namespace Exec

/-! ## Endings -/

/-- How a run ended, apart from its machine. -/
def outcome {α : Type} : EStateM.Result Stop Machine α → Except Stop α
  | .ok a _ => .ok a
  | .error stop _ => .error stop

/-- The machine that a run left. -/
def final {α : Type} : EStateM.Result Stop Machine α → Machine
  | .ok _ q => q
  | .error _ q => q

variable {α β : Type} {m : Machine}

/-! ## One step after another -/

/-- The second step begins where the first gave its result. -/
theorem bind_ok {x : Exec α} {f : α → Exec β} {a : α} {q : Machine} (h : x m = .ok a q) :
    (x >>= f) m = f a q := by
  rw [bind_apply, h]

/-- Where the first step stopped, both stop. -/
theorem bind_error {x : Exec α} {f : α → Exec β} {stop : Stop} {q : Machine}
    (h : x m = .error stop q) : (x >>= f) m = .error stop q := by
  rw [bind_apply, h]

/-- Two steps give a result where the first does and the second behind it. -/
theorem bind_eq_ok {x : Exec α} {f : α → Exec β} {b : β} {q : Machine} :
    (x >>= f) m = .ok b q ↔ ∃ a r, x m = .ok a r ∧ f a r = .ok b q := by
  constructor
  · intro h
    cases hx : x m with
    | ok a r =>
        rw [bind_ok hx] at h
        exact ⟨a, r, rfl, h⟩
    | error stop r =>
        rw [bind_error hx] at h
        cases h
  · rintro ⟨a, r, hx, h⟩
    rw [bind_ok hx]
    exact h

/-! ## Names -/

theorem currentScope_eq (hlive : m.current < m.scopes.size) :
    currentScope m = .ok m.current m := by
  unfold currentScope
  rw [if_pos hlive]

/-- A search that ends in a live scope changes nothing. -/
theorem search_of_stranded {y : Symbol} (hlive : m.current < m.scopes.size)
    (hy : m.scopes.stranded m.current y = none) : search y m = .ok m.current m := by
  refine (bind_ok (currentScope_eq hlive)).trans ?_
  rw [hy]

theorem search_eq (hm : m.WellFormed) (y : Symbol) : search y m = .ok m.current m :=
  search_of_stranded hm.current_live (ScopeTree.stranded_eq_none hm.nested hm.current_live y)

theorem resolve_of_search {y : Symbol} (h : search y m = .ok m.current m) :
    resolve y m = .ok (m.scopes.lookup m.current y) m :=
  bind_ok h

theorem resolve_eq (hm : m.WellFormed) (y : Symbol) :
    resolve y m = .ok (m.scopes.lookup m.current y) m :=
  resolve_of_search (search_eq hm y)

theorem declare_eq (hlive : m.current < m.scopes.size) (y : Symbol) (b : Binding) :
    declare y b m = match m.scopes.declare m.current y b with
      | some scopes => .ok true { m with scopes := scopes }
      | none => .ok false m :=
  bind_ok (currentScope_eq hlive)

theorem rebind_eq (hm : m.WellFormed) (y : Symbol) (b : Binding) :
    rebind y b m = match m.scopes.rebind m.current y b with
      | some scopes => .ok () { m with scopes := scopes }
      | none => .ok () m :=
  bind_ok (search_eq hm y)

/-! ## Scopes -/

theorem openScope_eq {parent : Nat} (hp : parent < m.scopes.size) :
    openScope parent m = .ok m.scopes.size (m.opened parent) := by
  unfold openScope
  rw [if_pos hp]
  rfl

theorem closeScope_eq {rest : ScopeTree} {scope saved : Nat}
    (h : m.scopes.close scope = some rest) :
    closeScope scope saved m = .ok () (m.closed rest scope saved) := by
  unfold closeScope
  rw [h]
  rfl

theorem inNewScope_eq (hm : m.WellFormed) {parent : Nat} (hp : parent < m.scopes.size)
    (body : Exec α) :
    inNewScope parent body m =
      afterwards body (closeScope m.scopes.size m.current) (m.opened parent) := by
  rw [inNewScope, bind_ok (currentScope_eq hm.current_live), bind_ok (openScope_eq hp)]

theorem inInnerScope_eq (hm : m.WellFormed) (body : Exec α) :
    inInnerScope body m = inNewScope m.current body m := by
  rw [inInnerScope, bind_ok (currentScope_eq hm.current_live)]

theorem inCall_eq (body : Exec α) :
    inCall body m =
      afterwards body (modify fun m => { m with activeCalls := m.activeCalls - 1 })
        { m with activeCalls := m.activeCalls + 1 } := by
  rw [inCall, bind_apply]
  rfl

theorem checkDepth_eq (limits : Limits) (name : String) (l : Location) (m : Machine) :
    checkDepth limits name l m =
      if limits.calls ≤ m.activeCalls then .error (.fault ⟨.tooManyCalls name limits.calls, l⟩) m
      else .ok () m := by
  rw [checkDepth, bind_apply]
  show (if limits.calls ≤ m.activeCalls then _ else _ : Exec Unit) m = _
  split <;> rfl

/-- A call faults where as many are in progress as there may be. -/
theorem enter_of_le {limits : Limits} {callee : Callee} (h : limits.calls ≤ m.activeCalls)
    (fuel : Nat) (args : List Value) (l : Location) :
    enter limits (fuel + 1) callee args l m =
      .error (.fault ⟨.tooManyCalls callee.name limits.calls, l⟩) m := by
  have hfault : checkDepth limits callee.name l m =
      .error (.fault ⟨.tooManyCalls callee.name limits.calls, l⟩) m := by
    rw [checkDepth_eq, if_pos h]
  exact bind_error hfault

/-- Where one more call may be in progress, the arguments are passed and the body is run in a
    scope of its own. -/
theorem enter_of_lt {limits : Limits} (h : m.activeCalls < limits.calls) (fuel : Nat)
    (callee : Callee) (args : List Value) (l : Location) :
    enter limits (fuel + 1) callee args l m = (do
      let flow ← inCall (inNewScope ScopeTree.global do
        passArguments l callee.params args
        runAll limits fuel (enter limits fuel) callee.body)
      callResult callee.name flow : Exec Value) (m.log (.called callee.name args.length l)) := by
  have hok : checkDepth limits callee.name l m = .ok () m := by
    rw [checkDepth_eq, if_neg (Nat.not_le_of_lt h)]
  exact (bind_ok hok).trans (bind_ok rfl)

theorem modify_eq (f : Machine → Machine) : (modify f : Exec Unit) m = .ok () (f m) := rfl

/-! ## What is run after a body -/

section
variable {body : Exec α} {last : Exec Unit} {q r : Machine}

theorem afterwards_ok {a : α} (h : body m = .ok a q) (hl : last q = .ok () r) :
    afterwards body last m = .ok a r := by
  unfold afterwards
  rw [h]
  exact bind_ok hl

theorem afterwards_fault {f : Fault} (h : body m = .error (.fault f) q) (hl : last q = .ok () r) :
    afterwards body last m = .error (.fault f) r := by
  unfold afterwards
  rw [h]
  exact bind_ok hl

theorem afterwards_defect {d : Defect} (h : body m = .error (.defect d) q) :
    afterwards body last m = .error (.defect d) q := by
  unfold afterwards
  rw [h]

theorem afterwards_outOfFuel (h : body m = .error .outOfFuel q) :
    afterwards body last m = .error .outOfFuel q := by
  unfold afterwards
  rw [h]

end

end Exec
end PocketC
