/-
  PocketC.Proofs.Run.ForLoops

  A `for` loop is a `while` loop behind its initializer, with the step at the end of its body.
  The step of the `for` loop is evaluated in the scope around the loop; at the end of the body of
  the `while` loop it is evaluated one scope further in.  A block declares nothing around itself,
  so that scope binds nothing when the step is evaluated, and the machine is just deeper than the
  one on which the `for` loop evaluates its step.

  A jump to the next turn goes to the step of a `for` loop but passes over the rest of the body of
  a `while` loop, so the block must not end in one.
-/

import PocketC.Proofs.Grammar.Sessions
import PocketC.Proofs.Run.Conditionals
import PocketC.Proofs.Run.Containment
import PocketC.Proofs.Run.Shadowing
import PocketC.Proofs.Run.Twins

namespace PocketC

open Exec

/-! ## Scopes without declarations -/

/-- A scope in which no symbol is found is empty. -/
theorem Scope.eq_empty {s : Scope} (h : ∀ y, s.lookup y = none) : s = .empty s.parent := by
  obtain ⟨bindings, parent⟩ := s
  cases bindings with
  | nil => rfl
  | cons entry rest =>
      have hfound : ((entry :: rest).lookup entry.1) = none := h entry.1
      rw [List.lookup_cons_self] at hfound
      cases hfound

namespace Machine

variable {m q : Machine}

/-- A machine that is still in the scope opened on `m`, where nothing is bound, is deeper than the
    machine after that scope is closed. -/
theorem deeper_of_closed (hq : (m.opened m.current).Restored q)
    (hbare : ∀ y, q.scopes.boundAt m.scopes.size y = none) {rest : ScopeTree}
    (hclose : q.scopes.close m.scopes.size = some rest) :
    (q.closed rest m.scopes.size m.current).Deeper q := by
  have hparents : q.scopes.parents = m.scopes.parents ++ [some m.current] :=
    hq.parents.trans (ScopeTree.parents_nest m.scopes m.current)
  have hsize : 0 < q.scopes.live.length := by
    rw [← ScopeTree.size, ScopeTree.size_eq_length_parents, hparents, List.length_append]
    exact Nat.succ_pos _
  obtain ⟨init, last, hlive⟩ : ∃ init last, q.scopes.live = init ++ [last] :=
    ⟨_, _, (List.dropLast_concat_getLast (List.ne_nil_of_length_pos hsize)).symm⟩
  -- the scope that was opened is the last one
  rw [ScopeTree.parents, hlive, List.map_append] at hparents
  obtain ⟨hinit, hlast⟩ := List.append_inj' hparents rfl
  have hlength : init.length = m.scopes.size := by
    rw [ScopeTree.size_eq_length_parents, ← hinit, List.length_map]
  have hempty : last = .empty (some m.current) := by
    have hnone : ∀ y, last.lookup y = none := by
      intro y
      have hy := hbare y
      rw [ScopeTree.boundAt, hlive, ← hlength, List.getElem?_concat_length] at hy
      exact hy
    rw [Scope.eq_empty hnone]
    exact congrArg Scope.empty (List.singleton_inj.mp hlast)
  have hrest : rest = ⟨init⟩ := by
    unfold ScopeTree.close at hclose
    split at hclose
    · cases hclose
      rw [hlive, List.dropLast_concat]
    · cases hclose
  refine ⟨⟨rfl, rfl⟩, ?_, ?_⟩
  · have hnest : (rest.nest m.current).2 = ⟨init ++ [last]⟩ := by
      rw [hrest, hempty]
      rfl
    show q.scopes = (rest.nest m.current).2
    rw [hnest, ← hlive]
  · show q.current = rest.size
    rw [hq.current, hrest]
    exact hlength.symm

end Machine

namespace Exec

variable {limits : Limits} {fuel : Nat} {m m' q : Machine} {α β : Type}

/-- A block that is run in a scope of its own leaves that scope without bindings. -/
theorem bare_of_block (hm : m.WellFormed) (ss : List Stmt) (l : Location) (y : Symbol) :
    (final (run limits fuel (enter limits fuel) (.block ss l) (m.opened m.current))).scopes.boundAt
      m.scopes.size y = none := by
  have hopened := hm.opened hm.current_live
  refine Option.not_isSome_iff_eq_none.mp fun hbound => ?_
  rcases Part.bound_finish ⟨fuel, .run (.block ss l), m.opened m.current⟩ hopened hbound with
    hstart | hdeclared | hcounts
  · have hnew : (m.opened m.current).scopes.boundAt m.scopes.size y = none :=
      ScopeTree.boundAt_nest_size m.scopes m.current y
    exact absurd hstart (Option.not_isSome_iff_eq_none.mpr hnew)
  · cases hdeclared
  · -- what is run in the block is run in a scope further in, and calls do not come back
    obtain ⟨_, _, _, _, _, _, _, hwithin, hcurrent, _⟩ := hcounts
    rcases Relation.ReflTransGen.cases_head hwithin with hself | ⟨p, hbegins, hwithin⟩
    · cases hself
    · cases hbegins
      have hwf := hopened.opened hopened.current_live
      exact (stays_off hwf hopened.current_live (ScopeTree.self_mem_outward hwf.nested
        hwf.current_live) (fun h => absurd h (Nat.ne_of_gt hm.global_live)) hwithin).1 hcurrent

/-! ## A step in the scope of the block -/

/-- What is run behind a run that is done. -/
def thenRun (next : Exec Flow) : Flow → Exec Flow
  | .done => next
  | flow => return flow

/-- Of two statements the second is run when the first is done. -/
theorem run_pair {limits : Limits} {fuel : Nat} {enter : Enter} (s t : Stmt) :
    run limits fuel enter (.group [s, t]) =
      run limits fuel enter s >>= thenRun (run limits fuel enter t) := by
  have hlast : runAll limits fuel enter [t] = run limits fuel enter t := by
    rw [runAll]
    refine Eq.trans (bind_congr fun flow => ?_) (bind_pure _)
    cases flow <;> rfl
  rw [run, runAll, hlast]
  refine bind_congr fun flow => ?_
  cases flow <;> rfl

theorem inInnerScope_bind_ok {x : Exec α} {f : α → Exec β} (hm : m.WellFormed) {a : α}
    (h : x (m.opened m.current) = .ok a q) :
    inInnerScope (x >>= f) m = afterwards (f a) (closeScope m.scopes.size m.current) q := by
  rw [inInnerScope_eq hm, inNewScope_eq hm hm.current_live]
  unfold afterwards
  rw [bind_ok h]

theorem inInnerScope_bind_error {x : Exec α} (f : α → Exec α) (hm : m.WellFormed) {stop : Stop}
    (h : x (m.opened m.current) = .error stop q) :
    inInnerScope (x >>= f) m = inInnerScope x m := by
  rw [inInnerScope_eq hm, inInnerScope_eq hm, inNewScope_eq hm hm.current_live,
    inNewScope_eq hm hm.current_live]
  unfold afterwards
  rw [bind_error h, h]

/-- Nothing is run behind a run that stops in its scope. -/
theorem bind_of_stop {x : Exec α} (f : α → Exec α) (hm : m.WellFormed)
    (htidy : Tidy (m.opened m.current) (x (m.opened m.current))) {stop : Stop}
    (h : x (m.opened m.current) = .error stop q) :
    (inInnerScope x >>= f) m = inInnerScope x m := by
  cases hr : inInnerScope x m with
  | ok a r =>
      rw [inInnerScope_eq hm] at hr
      obtain ⟨_, hok⟩ := (Tidy.inNewScope hm hm.current_live htidy).2 a r hr
      rw [h] at hok
      cases hok
  | error stop r => exact bind_error hr

/-- Where the scope of a run is left without bindings, what is run behind it may be run in that
    scope, too. -/
theorem thenRun_abreast {x next : Exec Flow} {Q R : Flow → Prop} (hx : Echoes x Q)
    (hnext : Deepens next R) (hm : m.WellFormed)
    (hbare : ∀ y, (final (x (m.opened m.current))).scopes.boundAt m.scopes.size y = none)
    (h : m.Twin m') :
    Abreast Machine.Twin ((inInnerScope x >>= thenRun next) m)
      (inInnerScope (x >>= thenRun next) m') := by
  have hm' := h.wellFormed hm
  have hopened := hm.opened hm.current_live
  have htwins :
      Abreast Machine.Twin (x (m.opened m.current)) (x (m'.opened m'.current)) := by
    rw [h.current]
    exact hx.abreast hopened (h.opened m.current)
  have htidy := (hx.tidy _ hopened).1
  rcases htwins.cases with ⟨flow, q, q', hq, hq', htwin⟩ | ⟨stop, q, q', hq, hq'⟩
  · rw [hq] at htidy hbare
    obtain ⟨rest, hclose, hrest⟩ := htidy.ofOpened hm
    have hdeeper : (q.closed rest m.scopes.size m.current).Deeper q' :=
      (Machine.deeper_of_closed htidy hbare hclose).trans htwin
    have hleft : inInnerScope x m = .ok flow (q.closed rest m.scopes.size m.current) := by
      rw [inInnerScope_eq hm, inNewScope_eq hm hm.current_live]
      exact afterwards_ok hq (closeScope_eq hclose)
    have hthen : Deepens (thenRun next flow) fun _ => True := by
      cases flow with
      | done => exact deeperRules.mono hnext fun _ _ => trivial
      | jump j => exact deeperRules.pure trivial
      | returned v => exact deeperRules.pure trivial
    have hwf := hrest.wellFormed hm
    have hrun := Abreast.close hwf (hthen.tidy _ hwf).1 (hthen.abreast _ _ hwf hdeeper)
    rw [hrest.size] at hrun
    rw [bind_ok hleft, inInnerScope_bind_ok hm' hq', h.scopes, h.current]
    exact hrun
  · rw [bind_of_stop _ hm htidy hq, inInnerScope_bind_error _ hm' hq']
    exact hx.inInnerScope.abreast hm h

/-! ## Turns -/

/-- One turn of a loop; without a flow the loop goes on. -/
def turn (body : Exec Flow) (step : Exec Unit) : Exec (Option Flow) := do
  match ← body with
  | .done | .jump .next => do
    step
    return none
  | .jump .leave => return some .done
  | .returned v => return some (.returned v)

/-- A loop whose condition holds makes a turn and goes on or ends. -/
theorem loop_succ (test : Exec Bool) (body : Exec Flow) (step : Exec Unit) (turns : Nat) :
    loop test body step (turns + 1) = (do
      if ← test then
        match ← turn body step with
        | none => loop test body step turns
        | some flow => return flow
      else return .done) := by
  rw [loop]
  refine bind_congr fun holds => ?_
  split
  · unfold turn
    rw [bind_assoc]
    refine bind_congr fun flow => ?_
    cases flow with
    | done => simp
    | jump j => cases j <;> simp
    | returned v => simp
  · rfl

theorem tidy_turn {body : Exec Flow} {step : Exec Unit} {Q : Flow → Prop} {R : Unit → Prop}
    (hbody : TidyRun body Q) (hstep : TidyRun step R) : TidyRun (turn body step) fun _ => True := by
  refine hbody.bind fun flow _ => ?_
  split
  · exact hstep.bind fun _ _ => (tidyLogic .standard).pure trivial
  · exact hstep.bind fun _ _ => (tidyLogic .standard).pure trivial
  · exact (tidyLogic .standard).pure trivial
  · exact (tidyLogic .standard).pure trivial

/-- Loops whose turns run abreast run abreast. -/
theorem loop_abreast {test : Exec Bool} {body body' : Exec Flow} {step step' : Exec Unit}
    (htest : Echoes test fun _ => True) (htidy : TidyRun (turn body step) fun _ => True)
    (hturn : ∀ m m', m.WellFormed → m.Twin m' →
      Abreast Machine.Twin (turn body step m) (turn body' step' m'))
    (turns : Nat) (hm : m.WellFormed) (h : m.Twin m') :
    Abreast Machine.Twin (loop test body step turns m) (loop test body' step' turns m') := by
  induction turns generalizing m m' with
  | zero => exact .outOfFuel h.toLevel
  | succ turns ih =>
      rw [loop_succ, loop_succ]
      refine (htest.abreast hm h).bind fun holds q q' hq htwin => ?_
      have hrestored := (htest.tidy m hm).1
      rw [hq] at hrestored
      have hwf := hrestored.wellFormed hm
      cases holds with
      | false => exact .ok htwin
      | true =>
          refine (hturn q q' hwf htwin).bind fun flow r r' hr htwin' => ?_
          have hrestored' := (htidy q hwf).1
          rw [hr] at hrestored'
          cases flow with
          | none => exact ih (hrestored'.wellFormed hwf) htwin'
          | some flow => exact .ok htwin'

/-- Where the body does not go on to the next turn, what is behind the body may be a part of it. -/
theorem turn_eq {body : Exec Flow} {step : Exec Unit}
    (hbody : ∀ flow q, body m = .ok flow q → flow ≠ .jump .next) :
    turn body step m =
      turn (body >>= thenRun (do step; return .done)) (pure ()) m := by
  unfold turn
  rw [bind_assoc]
  cases hm : body m with
  | ok flow q =>
      rw [bind_ok hm, bind_ok hm]
      cases flow with
      | done => simp [thenRun]
      | jump j =>
          cases j with
          | next => exact absurd rfl (hbody _ q hm)
          | leave => rfl
      | returned v => rfl
  | error stop q => rw [bind_error hm, bind_error hm]

/-- A turn of the `for` loop, and one of the `while` loop. -/
theorem turn_abreast (ss : List Stmt) (bl : Location) (step : Expr)
    (hbody : Stmt.escapesAny .next ss = false) (hm : m.WellFormed) (h : m.Twin m') :
    Abreast Machine.Twin
      (turn (inInnerScope (run limits fuel (enter limits fuel) (.block ss bl)))
        (do let _ ← eval (enter limits fuel) step; return ()) m)
      (turn (inInnerScope (run limits fuel (enter limits fuel)
        (.group [.block ss bl, .expression step]))) (pure ()) m') := by
  have henter := (echoLogic limits).toLogic.enter fuel
  have hblock := (echoLogic limits).toLogic.run henter fuel (.block ss bl) fun _ _ => trivial
  have hflow : ∀ flow q, inInnerScope (run limits fuel (enter limits fuel) (.block ss bl)) m =
      .ok flow q → flow ≠ .jump .next := by
    rintro _ q hq rfl
    have hescapes : Stmt.escapesAny .next ss = true := (hblock.inInnerScope.tidy m hm).2 _ q hq
    rw [hbody] at hescapes
    cases hescapes
  have hstep : (do
      (do let _ ← eval (enter limits fuel) step; return ())
      return .done : Exec Flow) = run limits fuel (enter limits fuel) (.expression step) := by
    rw [run, bind_assoc]
    simp only [pure_bind]
  have hnext : Deepens (run limits fuel (enter limits fuel) (.expression step)) fun _ => True := by
    rw [run]
    exact deeperRules.bind (deepens_eval limits fuel step) fun _ _ => deeperRules.pure trivial
  rw [turn_eq hflow, hstep, run_pair]
  refine (thenRun_abreast hblock hnext hm (bare_of_block hm ss bl) h).bind ?_
  intro flow q q' _ htwin
  cases flow with
  | done => exact .ok htwin
  | jump j => cases j <;> exact .ok htwin
  | returned v => exact .ok htwin

/-! ## Initializers -/

theorem finishes_of_initializes {init : Stmt} (h : init.Initializes) (enter : Enter) :
    Finishes (run limits fuel enter init) := by
  obtain ⟨e, rfl⟩ | ⟨ss, rfl, -, hss⟩ := h
  · exact finishes_step _
  · rw [run]
    exact finishes_runAll fun s hs => finishes_plain (hss.plain s hs)

/-! ## Loops -/

/-- A `for` loop whose body never goes on to the next turn by a jump ends as the `while` loop
    behind its initializer does that has the step at the end of its body: with the same flow, the
    same fault, or not at all.  It leaves the same machine but for the journal. -/
theorem for_loop_as_while {limits : Limits} {fuel : Nat} {m : Machine} {init : Stmt}
    {cond step : Expr} {ss : List Stmt} {bl : Location} (hinit : init.Initializes)
    (hbody : Stmt.escapesAny .next ss = false) (hm : m.WellFormed) (l l' : Location) :
    Abreast Machine.Twin
      (run limits fuel (enter limits fuel) (.forLoop init cond step (.block ss bl) l) m)
      (run limits fuel (enter limits fuel)
        (.group [init, .whileLoop cond (.group [.block ss bl, .expression step]) l']) m) := by
  have henter := (echoLogic limits).toLogic.enter fuel
  have hfirst := (echoLogic limits).toLogic.run henter fuel init fun _ _ => trivial
  have htest := (echoLogic limits).toLogic.evalCondition henter cond
  -- a turn of the `for` loop restores what the loop began with
  have htidy : TidyRun (turn (inInnerScope (run limits fuel (enter limits fuel) (.block ss bl)))
      (do let _ ← eval (enter limits fuel) step; return ())) fun _ => True := by
    have hblock := (echoLogic limits).toLogic.run henter fuel (.block ss bl) fun _ _ => trivial
    refine tidy_turn hblock.inInnerScope.tidy (R := fun _ => True) ?_
    exact (deepens_eval limits fuel step).tidy.bind fun _ _ => (tidyLogic limits).pure trivial
  rw [run_pair, run]
  refine (hfirst.abreast hm (.refl m)).bind fun flow q q' hq htwin => ?_
  obtain rfl := finishes_of_initializes hinit (enter limits fuel) m flow q hq
  have hrestored := (hfirst.tidy m hm).1
  rw [hq] at hrestored
  rw [thenRun, run]
  refine loop_abreast htest htidy ?_ fuel (hrestored.wellFormed hm) htwin
  exact fun r r' hr h => turn_abreast ss bl step hbody hr h

/-- A loop that counts from 0, the step being a call, that prints each number and is left at 2. -/
theorem for_loop_as_while_counting :
    let l := Location.start
    let i : Expr := .var "i" l
    let next : List Stmt := [.expression (.assign "i" (.binary .add i (.int 1 l) l) l)]
    let m : Machine := { Machine.new (.new none) with
      scopes := ⟨[⟨[(.fn "next" 0, .fn ⟨"void", [], some next⟩)], none⟩]⟩ }
    let init : Stmt := .group [.declareVar "i" "int" none l, .expression (.assign "i" (.int 0 l) l)]
    let cond : Expr := .binary .lt i (.int 5 l) l
    let step : Expr := .call "next" [] l
    let body : List Stmt := [.intrinsic printIntrinsic [.string "\x7b\x7d" l, i] l,
      .ifElse (.binary .eq i (.int 2 l) l) (.block [.breakLoop l] l) (.group []) l]
    let asFor := run .standard 4 (enter .standard 4) (.forLoop init cond step (.block body l) l) m
    let asWhile := run .standard 4 (enter .standard 4)
      (.group [init, .whileLoop cond (.group [.block body l, .expression step]) l]) m
    init.Initializes ∧ Stmt.escapesAny .next body = false ∧ m.WellFormed ∧
      Abreast Machine.Twin asFor asWhile ∧ (final asFor).transcript.text = "012" := by
  intro l i next m init cond step body asFor asWhile
  have hinit : init.Initializes :=
    .inr ⟨_, rfl, List.cons_ne_nil _ _, .initialized "i" "int" none l (.int 0 l) .nil⟩
  have hnested : m.scopes.Nested := by
    intro j q h
    match j with
    | 0 => cases h
    | j + 1 => cases h
  have hm : m.WellFormed := ⟨by decide, hnested⟩
  exact ⟨hinit, rfl, hm, for_loop_as_while hinit rfl hm l l, by decide +kernel⟩

/-- A body that goes on to the next turn by a jump reaches the step of the `for` loop alone. -/
example :
    let l := Location.start
    let m : Machine := { Machine.new (.new none) with
      scopes := ⟨[⟨[(.var "i", .var ⟨"int", .int 1⟩)], none⟩]⟩ }
    let step : Expr := .assign "i" (.int 0 l) l
    let body : Stmt := .block [.continueLoop l] l
    let init : Stmt := .expression (.var "i" l)
    let asFor : Stmt := .forLoop init (.var "i" l) step body l
    let asWhile : Stmt :=
      .group [init, .whileLoop (.var "i" l) (.group [body, .expression step]) l]
    let ends (loop : Stmt) : Bool := match run .standard 4 (enter .standard 4) loop m with
      | .error .outOfFuel _ => false
      | _ => true
    ends asFor = true ∧ ends asWhile = false := by
  decide +kernel

end Exec
end PocketC
