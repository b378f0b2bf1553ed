/-
  PocketC.Proofs.Run.FunctionTable

  What functions are bound to during a run.  A function is bound to a symbol with as many
  parameters as the symbol tells, and one with a body is bound to the parameters and the
  body of one definition as long as its scope is live.  So a call that enters a function
  gives as many values as it has parameters, and passing them drops none.
-/

import Mathlib.Data.List.Duplicate
import PocketC.Proofs.Run.Effects

namespace PocketC

open Exec

/-! ## The table -/

/-- What a symbol may be bound to: a function with as many parameters as it tells, which are those
    of a definition that the run came to if the function has a body. -/
def Part.Tabled (limits : Limits) (root : Part) : Symbol → Binding → Prop
  | .var _, .var _ => True
  | .fn name arity, .fn f => f.params.length = arity ∧ ∀ body, f.body = some body →
    ∃ fuel l m, Part.Within limits root ⟨fuel, .defineFun name f.params body l, m⟩
  | _, _ => False

namespace Exec

/-- During a run every symbol is bound to what it may be, in scopes inside the global one. -/
def tableInvariant (limits : Limits) (root : Part) : Invariant limits root where
  Holds m := m.scopes.Binds (root.Tabled limits) ∧ m.scopes.Rooted
  store _ _ h _ _ _ hu := ⟨⟨hu.binds h.1 fun _ => trivial, h.2.congr hu.parents⟩, trivial⟩
  assignElement _ _ h _ _ _ _ hu := ⟨hu.binds h.1 fun _ => trivial, h.2.congr hu.parents⟩
  declareVar _ _ h _ hu := ⟨hu.binds h.1 trivial, h.2.congr hu.parents⟩
  declareFun _ _ h hu := ⟨hu.binds h.1 ⟨rfl, nofun⟩, h.2.congr hu.parents⟩
  defineFun hp _ _ h hg hu := by
    obtain ⟨_, rfl⟩ := Function.body_of_define hg
    refine ⟨hu.binds h.1 fun _ => ⟨rfl, ?_⟩, h.2.congr hu.parents⟩
    rintro _ ⟨⟩
    exact ⟨_, _, _, hp⟩
  opens _ _ h _ := ⟨h.1.nest _, h.2.nest _⟩
  closes _ h hq hclose hparents := ⟨hq.1.close hclose, h.2.congr hparents⟩
  quiet hq h := by
    rw [hq.scopes]
    exact h

end Exec

/-! ## Passing arguments -/

/-- The current scope binds these parameters to these values, and nothing else. -/
def Machine.BindsJust (m : Machine) (args : List (Param × Value)) : Prop :=
  ∀ y b, m.scopes.boundAt m.current y = some b ↔
    ∃ a ∈ args, y = .var a.1.name ∧ b = .var ⟨a.1.type, a.2⟩

namespace Machine

variable {m : Machine} {args : List (Param × Value)}

theorem BindsJust.declares (h : m.BindsJust args) {p : Param} {v : Value} {u : ScopeTree}
    (hu : m.scopes.Declares m.current (.var p.name) (.var ⟨p.type, v⟩) u) :
    Machine.BindsJust { m with scopes := u } (args ++ [(p, v)]) := by
  obtain ⟨hfree, hsets⟩ := hu
  intro y b
  show u.boundAt m.current y = some b ↔ _
  rw [hsets.boundAt]
  constructor
  · intro hb
    split at hb
    · rename_i hy
      cases hb
      exact ⟨(p, v), List.mem_append_right args List.mem_cons_self, hy.2, rfl⟩
    · obtain ⟨a, ha, hab⟩ := (h y b).mp hb
      exact ⟨a, List.mem_append_left _ ha, hab⟩
  · rintro ⟨a, ha, rfl, rfl⟩
    rcases List.mem_append.mp ha with ha | ha
    · -- a name that is bound is not the one that was free
      have hbound := (h _ _).mpr ⟨a, ha, rfl, rfl⟩
      rw [if_neg]
      · exact hbound
      · rintro ⟨_, hname⟩
        rw [hname, hfree] at hbound
        cases hbound
    · cases List.mem_singleton.mp ha
      rw [if_pos ⟨rfl, rfl⟩]

end Machine

namespace Exec

variable {limits : Limits} {fuel : Nat} {m : Machine} {l : Location}

end Exec

/-! ## Runs of programs -/

namespace Part

variable {limits : Limits} {root : Part}

theorem at_ofProgram (limits : Limits) (fuel : Nat) (p : Program) (m : Machine) :
    (tableInvariant limits (ofProgram fuel p m)).At (ofProgram fuel p m) :=
  (tableInvariant limits _).at_root (fun _ => trivial) (Machine.wellFormed_reset m)
    ⟨ScopeTree.binds_new, ScopeTree.rooted_new⟩

end Part

end PocketC
