/-
  PocketC.Proofs.Run.Limits

  Limits and fuel decide only whether a run goes on.  They are looked at where a function
  is entered, where an array is declared and where a loop makes a turn, and there they let
  the run go on or stop it for good: nothing in a program takes such a stop and goes on.
  So a run that ends by itself is the same run under higher limits and with more fuel.

  The invariant of the comparison is `Exec.Persists`.  It excuses the stops that another
  limit may undo, and the few that can only follow upon one of these.
-/

import PocketC.Proofs.Run.Comparison
import PocketC.Proofs.Run.Restoration

namespace PocketC

/-! ## Limits -/

/-- Higher limits allow at least as much of everything. -/
instance : LE Limits := ⟨fun low high => low.calls ≤ high.calls ∧ low.elements ≤ high.elements⟩

instance (low high : Limits) : Decidable (low ≤ high) :=
  inferInstanceAs (Decidable (low.calls ≤ high.calls ∧ low.elements ≤ high.elements))

/-- Whether a limit of the run is what went wrong. -/
def FaultCause.ofLimit : FaultCause → Bool
  | .tooManyCalls .. | .arrayTooLong .. => true
  | _ => false

/-- Whether the run stopped because of its limits or its fuel, not because of what the program
    does. -/
def Stop.fromOutside : Stop → Bool
  | .fault f => f.cause.ofLimit
  | .defect _ => false
  | .outOfFuel => true

/-- The stops of a run under `low` that the run under `high` may not have.  Defects are among
    them if no jump is behind them, since a scope that a run out of fuel left open may be met when
    an outer one is closed. -/
def Stop.Excused (low high : Limits) : Stop → Prop
  | .fault f => f.cause.ofLimit = true ∧ low ≠ high
  | .defect d => ∀ j name, d ≠ .jumpEscaped j name
  | .outOfFuel => True

theorem Event.Alike.eq {e e' : Event} (h : e.Alike Eq e') : e = e' := by
  cases h with
  | refl => rfl
  | called _ _ hl => rw [hl]
  | redeclared _ _ hl => rw [hl]

namespace Exec

variable {α β : Type} {low high : Limits} {Q : α → α → Prop}

/-! ## Runs that persist -/

/-- The first run stopped where the second may go on, or both end in the same way, in the same
    machine and with results that `Q` relates. -/
inductive Persists (low high : Limits) (Q : α → α → Prop) :
    EStateM.Result Stop Machine α → EStateM.Result Stop Machine α → Prop where
  | ok {a b : α} {q : Machine} : Q a b → Persists low high Q (.ok a q) (.ok b q)
  | error (stop : Stop) (q : Machine) : Persists low high Q (.error stop q) (.error stop q)
  | excused {stop : Stop} {q : Machine} {r : EStateM.Result Stop Machine α} :
      stop.Excused low high → Persists low high Q (.error stop q) r

namespace Persists

theorem refl (hQ : ∀ a, Q a a) (r : EStateM.Result Stop Machine α) : Persists low high Q r r := by
  cases r with
  | ok a q => exact .ok (hQ a)
  | error stop q => exact .error stop q

/-- A step that no limit changes. -/
theorem same (r : EStateM.Result Stop Machine α) : Persists low high Eq r r := refl (fun _ => rfl) r

theorem bind {x y : Exec α} {f g : α → Exec β} {R : β → β → Prop} {m : Machine}
    (hxy : Persists low high Q (x m) (y m))
    (hfg : ∀ a b q, Q a b → Persists low high R (f a q) (g b q)) :
    Persists low high R ((x >>= f) m) ((y >>= g) m) := by
  rw [bind_apply, bind_apply]
  match x m, y m, hxy with
  | _, _, .ok hab => exact hfg _ _ _ hab
  | _, _, .error stop q => exact .error stop q
  | _, _, .excused hstop => exact .excused hstop

/-- A step that stops at a limit persists, if under the same limits it stops there again. -/
theorem atLimit {cause : FaultCause} {l : Location} {m : Machine}
    {r : EStateM.Result Stop Machine α} (hcause : cause.ofLimit = true)
    (hsame : low = high → r = .error (.fault ⟨cause, l⟩) m) :
    Persists low high Q (.error (.fault ⟨cause, l⟩) m) r := by
  by_cases heq : low = high
  · rw [hsame heq]
    exact error _ m
  · exact excused ⟨hcause, heq⟩

/-- An array that the lower limit allows is allowed by the higher one. -/
theorem newArray (hlimits : low ≤ high) (name : String) (size : Int) (l : Location) (m : Machine) :
    Persists low high Eq (ofExcept (newArray low name size) l m)
      (ofExcept (newArray high name size) l m) := by
  unfold Exec.newArray
  by_cases hneg : size < 0
  · rw [if_pos hneg, if_pos hneg]
    exact same _
  · rw [if_neg hneg, if_neg hneg]
    by_cases htoo : low.elements < size.toNat
    · rw [if_pos htoo]
      refine atLimit rfl ?_
      rintro rfl
      rw [if_pos htoo]
      rfl
    · have hhigh : ¬ high.elements < size.toNat := by
        have hle : low.elements ≤ high.elements := hlimits.2
        omega
      rw [if_neg htoo, if_neg hhigh]
      exact ok rfl

/-- A call that the lower limit allows is allowed by the higher one. -/
theorem checkDepth (hlimits : low ≤ high) (name : String) (l : Location) (m : Machine) :
    Persists low high Eq (checkDepth low name l m) (checkDepth high name l m) := by
  rw [checkDepth_eq, checkDepth_eq]
  by_cases htoo : low.calls ≤ m.activeCalls
  · rw [if_pos htoo]
    refine atLimit rfl ?_
    rintro rfl
    exact if_pos htoo
  · rw [if_neg htoo]
    by_cases htoo' : high.calls ≤ m.activeCalls
    · exact absurd (Nat.le_trans hlimits.1 htoo') htoo
    · rw [if_neg htoo']
      exact ok rfl

/-- Running a last step behind both bodies persists, if the step only stops for reasons that are
    excused. -/
theorem afterwards {x y : Exec α} {last : Exec Unit} {m : Machine}
    (hxy : Persists low high Q (x m) (y m))
    (hlast : ∀ q stop r, last q = .error stop r → stop.Excused low high) :
    Persists low high Q (afterwards x last m) (afterwards y last m) := by
  unfold Exec.afterwards
  match x m, y m, hxy with
  | _, _, .ok hab => exact (same (last _)).bind fun _ _ _ _ => .ok hab
  | _, _, .error (.fault f) q => exact (same (last q)).bind fun _ _ r _ => .error (.fault f) r
  | _, _, .error (.defect d) q => exact .error (.defect d) q
  | _, _, .error .outOfFuel q => exact .error .outOfFuel q
  | _, _, @Persists.excused _ _ _ _ stop q r hstop =>
      match stop with
      | .defect d => exact .excused hstop
      | .outOfFuel => exact .excused hstop
      | .fault f =>
          -- the first run stops with this fault, or in the last step
          dsimp only
          rw [bind_apply]
          cases hl : last q with
          | ok _ q' => exact .excused hstop
          | error stop' q' => exact .excused (hlast q stop' q' hl)

theorem inNewScope {x y : Exec α} (hxy : ∀ m, Persists low high Q (x m) (y m)) (parent : Nat)
    (m : Machine) :
    Persists low high Q (inNewScope parent x m) (inNewScope parent y m) := by
  refine (same (currentScope m)).bind fun saved _ m h => ?_
  cases h
  refine (same (openScope parent m)).bind fun scope _ m h => ?_
  cases h
  refine (hxy m).afterwards fun q stop r hclose => ?_
  -- closing stops only at a scope that is still open inside, and then no jump is behind it
  unfold closeScope at hclose
  split at hclose
  · cases hclose
  · cases hclose
    exact nofun

end Persists

/-- Under higher limits and with more fuel every run persists. -/
def persisting (hlimits : low ≤ high) (more : Nat) : Comparison low high more where
  At := Eq
  start := rfl
  functions := Function.alike Eq
  Holds x y Q := ∀ m, Persists low high Q (x m) (y m)
  pure h _ := .ok h
  bind hxy hfg m := (hxy m).bind fun a b q hab => hfg a b hab q
  fault cause hl m := by
    rw [hl]
    exact .error _ m
  defect d m := .error (.defect d) m
  outOfFuel _ m := .excused trivial
  newArray name size hl m := by
    rw [hl]
    exact Persists.newArray hlimits name size _ m
  checkDepth name hl m := by
    rw [hl]
    exact Persists.checkDepth hlimits name _ m
  resolve y m := by
    refine .refl (fun r => ?_) _
    cases r with
    | none => exact .none
    | some b => exact .some (.refl (Function.Alike.refl fun _ => rfl) b)
  declare y hb m := by
    rw [hb.eq]
    exact .same _
  rebind y hb m := by
    rw [hb.eq]
    exact .same _
  inInnerScope hxy m := by
    refine (Persists.same (currentScope m)).bind fun parent _ m h => ?_
    cases h
    exact Persists.inNewScope hxy parent m
  inCall hxy m := by
    refine (Persists.same _).bind fun _ _ m _ => ?_
    exact (Persists.inNewScope hxy ScopeTree.global m).afterwards fun _ _ _ h => by cases h
  log he m := by
    rw [he.eq]
    exact .same _
  print text hl m := by
    rw [hl]
    exact .same _

end Exec

/-! ## Sessions -/

namespace Session

variable {s : Session} {high : Limits} {fuel fuel' : Nat}

theorem runProgram_persists (s : Session) (hlimits : s.limits ≤ high) (hfuel : fuel ≤ fuel') :
    Exec.Persists s.limits high Eq (Exec.runProgram s.limits fuel s.program s.machine.reset)
      (Exec.runProgram high fuel' s.program s.machine.reset) := by
  obtain ⟨more, rfl⟩ := Nat.exists_eq_add_of_le hfuel
  have hsame : Stmt.AlikeAll Eq s.program.nodes s.program.nodes := .refl (fun _ => rfl) _
  exact (Exec.persisting hlimits more).runProgram fuel hsame s.machine.reset

/-- A run that did not stop for an excused reason is the same under higher limits and with more
    fuel. -/
theorem run_of_not_excused (hlimits : s.limits ≤ high) (hfuel : fuel ≤ fuel')
    (h : ∀ stop, (s.run fuel).1 = .error stop → ¬ stop.Excused s.limits high) :
    run { s with limits := high } fuel' =
      ((s.run fuel).1, { (s.run fuel).2 with limits := high }) := by
  have hpersists := s.runProgram_persists hlimits hfuel
  unfold run at h ⊢
  dsimp only
  generalize Exec.runProgram s.limits fuel s.program s.machine.reset = x at h hpersists ⊢
  generalize Exec.runProgram high fuel' s.program s.machine.reset = y at hpersists ⊢
  cases hpersists with
  | ok hab => rw [hab]
  | error stop q => rfl
  | @excused stop q r hstop => exact absurd hstop (h stop rfl)

/-- The only defect of a run is an escaped jump, which is never excused. -/
theorem not_excused_of_run {stop : Stop} (hrun : (s.run fuel).1 = .error stop)
    (hfuel : stop ≠ .outOfFuel)
    (hlimit : ∀ f, stop = .fault f → f.cause.ofLimit = true → s.limits = high) :
    ¬ stop.Excused s.limits high := by
  have hidle := s.run_idle fuel
  rw [hrun] at hidle
  cases stop with
  | fault f => exact fun h => h.2 (hlimit f rfl h.1)
  | defect d =>
      obtain ⟨j, name, rfl⟩ := hidle
      exact fun h => h j name rfl
  | outOfFuel => exact absurd rfl hfuel

theorem limits_run (s : Session) (fuel : Nat) : (s.run fuel).2.limits = s.limits := by
  rw [run]
  split <;> rfl

/-- A run that does not run out of fuel is the same with more fuel. -/
theorem run_of_more_fuel (hfuel : fuel ≤ fuel') (h : (s.run fuel).1 ≠ .error .outOfFuel) :
    s.run fuel' = s.run fuel := by
  have hlimits : s.limits ≤ s.limits := ⟨Nat.le_refl _, Nat.le_refl _⟩
  have hrun := run_of_not_excused hlimits hfuel fun stop hstop =>
    not_excused_of_run hstop (fun he => h (he ▸ hstop)) fun _ _ _ => rfl
  refine hrun.trans ?_
  rw [← s.limits_run fuel]

end Session

/-- A run that neither a limit nor spent fuel stopped is the same under higher limits and with more
    fuel: it gives the same value or stops for the same reason, and what it printed and recorded is
    the same. -/
theorem higher_limits_same_run (s : Session) (high : Limits) (hlimits : s.limits ≤ high)
    (fuel fuel' : Nat) (hfuel : fuel ≤ fuel')
    (hrun : ∀ stop, (s.run fuel).1 = .error stop → stop.fromOutside = false) :
    Session.run { s with limits := high } fuel' =
      ((s.run fuel).1, { (s.run fuel).2 with limits := high }) := by
  refine Session.run_of_not_excused hlimits hfuel fun stop hstop => ?_
  have hinside := hrun stop hstop
  refine Session.not_excused_of_run hstop ?_ ?_
  · rintro rfl
    cases hinside
  · rintro f rfl hf
    exact absurd hf (by rw [show f.cause.ofLimit = false from hinside]; exact nofun)

/-- A function that calls itself as often as the limit allows, behind an array as long as the limit
    allows; with one call less allowed it is stopped. -/
theorem higher_limits_same_run_at_limits :
    let n : Expr := .var "n" .start
    let define (name : String) (ps : List Param) (body : List Stmt) : Stmt :=
      .group [.declareFun name "int" ps .start, .defineFun name "int" ps body .start]
    let again : Expr := .call "f" [.binary .sub n (.int 1 .start) .start] .start
    let s : Session := .new ⟨[
      define "f" [⟨"int", "n"⟩] [
        .ifElse n (.returnValue (some again) .start) (.group []) .start,
        .intrinsic printIntrinsic [.string "deep" .start] .start,
        .returnValue (some n) .start],
      define "main" [] [
        .declareVar "a" "int[]" (some (.int 2 .start)) .start,
        .returnValue (some (.call "f" [.int 2 .start] .start)) .start]]⟩ ⟨4, 2⟩ (.new none)
    s.limits ≤ .standard ∧ 5 ≤ 7 ∧
    (∀ stop, (s.run 5).1 = .error stop → stop.fromOutside = false) ∧
    (s.run 5).1.toOption = some (.int 0) ∧ (s.run 5).2.machine.transcript.text = "deep" ∧
    (match (Session.run { s with limits := ⟨3, 2⟩ } 5).1 with
      | .error (.fault f) => f.cause.ofLimit
      | _ => false) = true ∧
    Session.run { s with limits := .standard } 7 =
      ((s.run 5).1, { (s.run 5).2 with limits := .standard }) := by
  intro n define again s
  have hlimits : s.limits ≤ .standard := by decide
  have hvalue : (s.run 5).1.toOption = some (.int 0) := by decide +kernel
  have hrun : ∀ stop, (s.run 5).1 = .error stop → stop.fromOutside = false := by
    intro stop hstop
    rw [hstop] at hvalue
    cases hvalue
  exact ⟨hlimits, by decide, hrun, hvalue, by decide +kernel, by decide +kernel,
    higher_limits_same_run s .standard hlimits 5 7 (by decide) hrun⟩

end PocketC
