/-
  PocketC.Proofs.Run.Conditionals

  Which symbols running a conditional leaves bound.  What a part of a run declares in the
  scope that it begins in is written in it, unless it is the counter of a loop: a loop is
  run in no scope of its own, and its initializer declares in the scope around it.  Since
  no branch of a program that was read declares anything else around itself, the counters
  of the loops that are branches are all that a conditional adds to any scope.
-/

import PocketC.Proofs.Grammar.Branches
import PocketC.Proofs.Run.FunctionTable
import PocketC.Proofs.Run.Places
import PocketC.Proofs.Run.WrittenParts
import PocketC.Proofs.Tree.Equality

namespace PocketC

open Exec

namespace Part

variable {limits : Limits} {root r : Part} {y : Symbol}

/-! ## Declarations in one scope -/

/-- A loop that is run within the part, in the scope that the part begins in, has an initializer
    that declares the symbol. -/
def Counts (limits : Limits) (p : Part) (y : Symbol) : Prop :=
  ∃ fuel init e step body l m, Within limits p ⟨fuel, .run (.forLoop init e step body l), m⟩ ∧
    m.current = p.start.current ∧ y ∈ init.declares

/-- The symbol is declared in the scope of the part by what is written in it, or it is counted. -/
def MayDeclare (limits : Limits) (p : Part) (y : Symbol) : Prop :=
  y ∈ p.task.declares ∨ p.Counts limits y

/-- Where a part stands that is within `root`: in a scope opened since, or in the one of `root`,
    where it declares what `root` may declare. -/
structure StandsIn (limits : Limits) (root r : Part) : Prop where
  size : root.start.scopes.size ≤ r.start.scopes.size
  scope : root.start.scopes.size ≤ r.start.current ∨
    r.start.current = root.start.current ∧ ∀ y ∈ r.task.declares, root.MayDeclare limits y

theorem Within.standsIn (h : Within limits root r) (hm : root.start.WellFormed) :
    StandsIn limits root r := by
  induction h with
  | refl => exact ⟨Nat.le_refl _, .inr ⟨rfl, fun _ hy => .inl hy⟩⟩
  | @tail s r hs hb ih =>
      cases hb.place (Within.wellFormed hs hm) with
      | same hrestored _ hdeclares =>
          refine ⟨hrestored.size ▸ ih.size, ?_⟩
          rw [hrestored.current]
          refine ih.scope.imp_right fun ⟨hcurrent, hmay⟩ => ⟨hcurrent, fun y hy => ?_⟩
          rcases hdeclares with hsubset | hinit
          · exact hmay y (hsubset hy)
          · obtain ⟨fuel, task, m⟩ := s
            obtain ⟨_, _, _⟩ := r
            cases hinit with
            | loop init e step body l =>
                exact .inr ⟨fuel, init, e, step, body, l, m, hs, hcurrent, hy⟩
      | inner hopens _ _ | call _ _ _ _ _ hopens _ _ =>
          have hsize := ih.size
          refine ⟨?_, .inl ?_⟩
          · rw [hopens.size]
            exact Nat.le_succ_of_le hsize
          · rw [hopens.current]
            exact hsize

/-- In the scope that `root` begins in, a part within it declares what `root` may declare. -/
theorem Within.mayDeclare (h : Within limits root r) (hm : root.start.WellFormed)
    (hcurrent : r.start.current = root.start.current) (hy : y ∈ r.task.declares) :
    root.MayDeclare limits y := by
  rcases (h.standsIn hm).scope with hlt | ⟨_, hmay⟩
  · rw [hcurrent] at hlt
    exact absurd hm.current_live (Nat.not_lt_of_le hlt)
  · exact hmay y hy

end Part

namespace Exec

/-- In the scope that a part begins in, only symbols are bound that were bound before or that the
    part may declare. -/
def declaredInvariant (limits : Limits) (root : Part) (hm : root.start.WellFormed) :
    Invariant limits root where
  Holds q := ∀ y, (q.scopes.boundAt root.start.current y).isSome = true →
    (root.start.scopes.boundAt root.start.current y).isSome = true ∨ root.MayDeclare limits y
  store _ _ h _ _ _ hu := ⟨fun y hy => h y (hu.isSome hy), trivial⟩
  assignElement _ _ h _ _ _ _ hu y hy := h y (hu.isSome hy)
  declareVar hp _ h _ hu y hy := by
    rcases hu.isSome hy with hy | ⟨hscope, rfl⟩
    · exact h y hy
    · exact .inr (hp.mayDeclare hm hscope.symm List.mem_cons_self)
  declareFun hp _ h hu y hy := by
    rcases hu.isSome hy with hy | ⟨hscope, rfl⟩
    · exact h y hy
    · exact .inr (hp.mayDeclare hm hscope.symm List.mem_cons_self)
  defineFun _ _ _ h _ hu y hy := h y (hu.isSome hy)
  opens _ _ h _ y hy := by
    obtain ⟨b, hb⟩ := Option.isSome_iff_exists.mp hy
    exact h y (Option.isSome_of_eq_some (ScopeTree.boundAt_of_nest hb))
  closes _ _ h hclose _ y hy := by
    obtain ⟨b, hb⟩ := Option.isSome_iff_exists.mp hy
    exact h y (Option.isSome_of_eq_some (ScopeTree.boundAt_of_close hclose hb))
  quiet hq h := by
    rw [hq.scopes]
    exact h

end Exec

/-- However a part ends, in the scope that it began in only symbols are bound that were bound when
    it began or that it may declare. -/
theorem Part.bound_finish {limits : Limits} {y : Symbol} (p : Part) (hm : p.start.WellFormed)
    (hbound : ((p.finish limits).scopes.boundAt p.start.current y).isSome = true) :
    (p.start.scopes.boundAt p.start.current y).isSome = true ∨ p.MayDeclare limits y := by
  let L := Exec.declaredInvariant limits p hm
  have hat : L.At p := L.at_root (fun _ => trivial) hm fun _ h => .inl h
  exact hat.finish y hbound

/-! ## A loop that is a branch -/

/-- A function with a conditional whose branch is a loop that declares its counter. -/
def counterSource : String := "int main(){if(1)for(int i;0;1)0;}"

/-- The conditional of `counterSource`. -/
def counterConditional : Stmt :=
  .ifElse (.int 1 ⟨1, 15⟩)
    (.forLoop (.group [.declareVar "i" "int" none ⟨1, 25⟩]) (.int 0 ⟨1, 27⟩) (.int 1 ⟨1, 29⟩)
      (.expression (.int 0 ⟨1, 31⟩)) ⟨1, 17⟩)
    (.group []) ⟨1, 12⟩

/-- The program that `counterSource` is read as. -/
def counterProgram : Program :=
  ⟨[.group [.declareFun "main" "int" [] ⟨1, 1⟩,
    .defineFun "main" "int" [] [counterConditional] ⟨1, 1⟩]]⟩

/-- The machine on which the conditional is run. -/
def counterMachine : Machine :=
  ⟨⟨[⟨[(.fn "main" 0, .fn ⟨"int", [], some [counterConditional]⟩)], none⟩, ⟨[], some 0⟩]⟩,
    1, 1, .new, .new none⟩

theorem readProgram_counterSource :
    ∃ j, readProgram counterSource (.new none) = (.ok counterProgram, j) := by
  have hread : (readProgram counterSource (.new none)).1.toOption = some counterProgram := by
    decide +kernel
  cases h : readProgram counterSource (.new none) with
  | mk r j =>
      rw [h] at hread
      cases r with
      | error _ => cases hread
      | ok p =>
          cases hread
          exact ⟨j, rfl⟩

theorem within_counterProgram :
    Part.Within .standard (.ofProgram 2 counterProgram (.new (.new none)))
      ⟨1, .run counterConditional, counterMachine⟩ := by
  have hmain : Part.Within .standard (.ofProgram 2 counterProgram (.new (.new none)))
      ⟨2, .eval (.call "main" [] .start), _⟩ := (Part.Within.refl _).begins (.main rfl)
  have hbody := (hmain.begins (.call rfl rfl)).begins (.callBody (by decide) rfl)
  exact hbody.begins .statement

/-! ## Conditionals -/

/-- Running a conditional of a program that was read, whichever branch it is and however it ends,
    leaves bound in every scope that was live before exactly what was bound there; only in the
    scope that it is run in, it may bind the counters of loops that were run in that scope. -/
theorem conditionals_bind_counters (limits : Limits) (fuel : Nat) {source : String}
    {j j' : Journal} {p : Program} (hread : readProgram source j = (.ok p, j')) (m : Machine) :
    ∀ n e yes no l q, let r : Part := ⟨n, .run (.ifElse e yes no l), q⟩
      Part.Within limits (.ofProgram fuel p m) r → ∀ i y, i < q.scopes.size →
        ((q.scopes.boundAt i y).isSome = true →
          ((r.finish limits).scopes.boundAt i y).isSome = true) ∧
        (((r.finish limits).scopes.boundAt i y).isSome = true →
          (q.scopes.boundAt i y).isSome = true ∨ i = q.current ∧ r.Counts limits y) := by
  intro n e yes no l q r hr i y hi
  have hat := (Part.at_ofProgram limits fuel p m).within_root hr
  have haffects : q.Affects (r.finish limits) :=
    Exec.affects_finish limits hat.wellFormed hat.holds.2
  refine ⟨haffects.isSome, fun hbound => ?_⟩
  by_cases hcurrent : i = q.current
  · subst hcurrent
    refine (r.bound_finish hat.wellFormed hbound).imp_right fun hmay => ⟨rfl, ?_⟩
    -- the branches of what was read declare nothing themselves
    obtain ⟨hyes, hno⟩ := branches_of_readProgram hread hr.writes
    have hnothing : r.task.declares = [] := by
      show yes.declares ++ no.declares = []
      rw [hyes, hno]
      rfl
    refine hmay.resolve_left ?_
    rw [hnothing]
    exact List.not_mem_nil
  · exact .inl (haffects.isSome_outer hi hcurrent hbound)

/-- The counter is bound when the conditional has been run, so the loop has declared it. -/
theorem conditionals_bind_counters_loop :
    let r : Part := ⟨1, .run counterConditional, counterMachine⟩
    (∃ j, readProgram counterSource (.new none) = (.ok counterProgram, j)) ∧
    Part.Within .standard (.ofProgram 2 counterProgram (.new (.new none))) r ∧
    ((r.finish .standard).scopes.boundAt 1 (.var "i")).isSome = true ∧
    r.Counts .standard (.var "i") := by
  intro r
  obtain ⟨j, hread⟩ := readProgram_counterSource
  have hbound : ((r.finish .standard).scopes.boundAt 1 (.var "i")).isSome = true := rfl
  obtain ⟨_, hnew⟩ := conditionals_bind_counters .standard 2 hread (.new (.new none)) 1 _ _ _ _ _
    within_counterProgram 1 (.var "i") (by decide)
  have hcounts := (hnew hbound).resolve_left (by decide)
  exact ⟨⟨j, hread⟩, within_counterProgram, hbound, hcounts.2⟩

/-- So a conditional does not always leave bound in every scope just what was bound there. -/
theorem conditionals_bind_counters_more :
    ¬∀ (source : String) (j j' : Journal) (p : Program),
      readProgram source j = (.ok p, j') → ∀ (limits : Limits) (fuel : Nat) (m : Machine),
      ∀ n e yes no l q, let r : Part := ⟨n, .run (.ifElse e yes no l), q⟩
        Part.Within limits (.ofProgram fuel p m) r → ∀ i y, i < q.scopes.size →
          (((r.finish limits).scopes.boundAt i y).isSome = true ↔
            (q.scopes.boundAt i y).isSome = true) := by
  intro h
  obtain ⟨j, hread⟩ := readProgram_counterSource
  have hsame := h _ _ _ _ hread .standard 2 (.new (.new none)) 1 _ _ _ _ _ within_counterProgram
    1 (.var "i") (by decide)
  cases hsame.mp rfl

end PocketC
