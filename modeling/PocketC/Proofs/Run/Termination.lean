/-
  PocketC.Proofs.Run.Termination

  Programs without loops always finish.  Functions may call themselves and each other
  in every way, so the only bound is the limit on the calls in progress: a body runs
  with one more call in progress than the call that enters it, and with less fuel to
  enter others.

  The property of the steps is `Finishing calls`: with so many calls in progress a step
  does not run out of fuel.  It has the rules of everything that is run inside of one
  function; that of entering a function, where the number of calls changes, is proved by
  induction on the fuel (`finishing_enter`).  Bodies come out of the scopes, so that
  all bound functions are without loops is part of what is kept.
-/

import PocketC.Proofs.Run.Provenance
import PocketC.Proofs.Run.Restoration

namespace PocketC

/-- The functions whose bodies have no loop in them. -/
def Functions.loopFree : Functions where
  Fn c := Stmt.hasLoopAny c.body = false
  Def c := Stmt.hasLoopAny c.body = false
  fn_of_def := id
  definitions hc _ hd := Stmt.hasLoopAny_body _ hd hc

/-- A well-formed machine with so many calls in progress, on which only functions without loops
    are bound. -/
structure Machine.Calling (calls : Nat) (m : Machine) : Prop where
  wellFormed : m.WellFormed
  binds : m.scopes.Binds Functions.loopFree.Bound
  activeCalls : m.activeCalls = calls

namespace Machine.Calling

variable {calls : Nat} {m : Machine}

/-- Opening a scope starts no call. -/
theorem opened (hm : m.Calling calls) {parent : Nat} (hp : parent < m.scopes.size) :
    (m.opened parent).Calling calls where
  wellFormed := hm.wellFormed.opened hp
  binds := hm.binds.nest parent
  activeCalls := hm.activeCalls

/-- The machine on which the body of a function runs. -/
theorem called (hm : m.Calling calls) :
    Machine.Calling (calls + 1) { m with activeCalls := m.activeCalls + 1 } where
  wellFormed := ⟨hm.wellFormed.current_live, hm.wellFormed.nested⟩
  binds := hm.binds
  activeCalls := congrArg (· + 1) hm.activeCalls

end Machine.Calling

namespace Exec

variable {α β : Type} {calls : Nat} {Q : α → Prop} {m : Machine}

/-! ## Ending without more fuel -/

/-- What a run on `m` ends in that does not run out of fuel; it is tidy, and where it gives a
    result, the functions bound are still without loops. -/
structure Finished (m : Machine) (Q : α → Prop) (r : EStateM.Result Stop Machine α) : Prop where
  tidy : Tidy m r
  gives : ∀ a q, r = .ok a q → q.scopes.Binds Functions.loopFree.Bound ∧ Q a
  fuel : ∀ q, r ≠ .error .outOfFuel q

namespace Finished

/-- Where a run gave a result, as many calls are in progress as before. -/
theorem calling {a : α} {q : Machine} (h : Finished m Q (.ok a q)) (hm : m.Calling calls) :
    q.Calling calls where
  wellFormed := h.tidy.wellFormed hm.wellFormed
  binds := (h.gives a q rfl).1
  activeCalls := h.tidy.activeCalls.trans hm.activeCalls

theorem bind {x : Exec α} {f : α → Exec β} {R : β → Prop} (hx : Finished m Q (x m))
    (hf : ∀ a q, x m = .ok a q → Q a → Finished q R (f a q)) : Finished m R ((x >>= f) m) := by
  cases hxm : x m with
  | ok a q =>
      rw [hxm] at hx
      have hnext := hf a q hxm (hx.gives a q rfl).2
      rw [bind_ok hxm]
      exact ⟨hnext.tidy.trans hx.tidy, hnext.gives, hnext.fuel⟩
  | error stop q =>
      rw [hxm] at hx
      rw [bind_error hxm]
      refine ⟨?_, nofun, ?_⟩
      · match stop with
        | .fault _ => exact hx.tidy
        | .defect _ => exact hx.tidy
        | .outOfFuel => exact hx.tidy
      · rintro r ⟨⟩
        exact hx.fuel q rfl

/-- Running a step behind a body that finishes does not run out of fuel either. -/
theorem afterwards {body : Exec α} {last : Exec Unit} {m' : Machine}
    (hbody : Finished m' Q (body m')) (hkeeps : Keeps .loopFree last fun _ => True)
    (hfuel : ∀ r q, last r ≠ .error .outOfFuel q)
    (htidy : Tidy m (Exec.afterwards body last m')) :
    Finished m Q (Exec.afterwards body last m') := by
  -- the last step is taken behind a result and behind a fault
  have hthen : ∀ {x : Exec α} (r : Machine), (∀ r q, x r ≠ .error .outOfFuel q) →
      ∀ q, (last >>= fun _ => x) r ≠ .error .outOfFuel q := by
    intro x r hx q
    rw [bind_apply]
    cases hl : last r with
    | ok a r' => exact hx r' q
    | error stop r' =>
        intro h
        cases h
        exact hfuel r _ hl
  refine ⟨htidy, ?_, ?_⟩
  · intro a q h
    unfold Exec.afterwards at h
    cases hb : body m' with
    | ok b r =>
        rw [hb] at h hbody
        obtain ⟨_, _, hlast, hpure⟩ := bind_eq_ok.mp h
        cases hpure
        have hbinds := hkeeps r (hbody.gives a r rfl).1
        rw [hlast] at hbinds
        exact ⟨hbinds.1, (hbody.gives a r rfl).2⟩
    | error stop r =>
        rw [hb] at h
        cases stop with
        | fault f =>
            obtain ⟨_, _, _, hfault⟩ := bind_eq_ok.mp h
            cases hfault
        | defect d => cases h
        | outOfFuel => cases h
  · intro q
    unfold Exec.afterwards
    cases hb : body m' with
    | ok b r => exact hthen r (fun _ _ h => by cases h) q
    | error stop r =>
        cases stop with
        | fault f => exact hthen r (fun _ _ h => by cases h) q
        | defect d => exact nofun
        | outOfFuel => exact absurd hb (hbody.fuel r)

end Finished

/-- With so many calls in progress `x` does not run out of fuel. -/
def Finishing (calls : Nat) (x : Exec α) (Q : α → Prop) : Prop :=
  ∀ m, m.Calling calls → Finished m Q (x m)

namespace Finishing

theorem ofKeeps {x : Exec α} {R : α → Prop} (hkeeps : Keeps .loopFree x Q) (htidy : TidyRun x R)
    (hfuel : ∀ m, m.WellFormed → ∀ q, x m ≠ .error .outOfFuel q) : Finishing calls x Q := by
  intro m hm
  refine ⟨(htidy m hm.wellFormed).1, ?_, hfuel m hm.wellFormed⟩
  intro a q hx
  have hgives := hkeeps m hm.binds
  rw [hx] at hgives
  exact hgives

theorem bind {x : Exec α} {f : α → Exec β} {R : β → Prop} (hx : Finishing calls x Q)
    (hf : ∀ a, Q a → Finishing calls (f a) R) : Finishing calls (x >>= f) R := by
  intro m hm
  refine (hx m hm).bind fun a q hxm ha => ?_
  have hfirst := hx m hm
  rw [hxm] at hfirst
  exact hf a ha q (hfirst.calling hm)

theorem inNewScope {body : Exec α} (h : Finishing calls body Q) (hm : m.Calling calls)
    {parent : Nat} (hp : parent < m.scopes.size) : Finished m Q (inNewScope parent body m) := by
  have hbody := h (m.opened parent) (hm.opened hp)
  have htidy := (hbody.tidy.inNewScope hm.wellFormed hp).1
  rw [inNewScope_eq hm.wellFormed hp] at htidy ⊢
  refine hbody.afterwards (Keeps.closeScope _ _) ?_ htidy
  intro r q
  unfold closeScope
  split <;> exact nofun

/-- A step inside of a call runs with one more call in progress. -/
theorem inCall {body : Exec α} (h : Finishing (calls + 1) body Q) :
    Finishing calls (inCall body) Q := by
  intro m hm
  have hbody := h _ hm.called
  have htidy := hbody.tidy.inCall.1
  rw [inCall_eq] at htidy ⊢
  exact hbody.afterwards (fun r hr => ⟨hr, trivial⟩) (fun _ _ => nofun) htidy

end Finishing

/-- The rules of what does not run out of fuel. -/
def finishingRules (limits : Limits) (calls : Nat) : NameRules limits where
  Holds := Finishing calls
  pure h := .ofKeeps ((keepsLogic limits .loopFree).pure h) ((tidyLogic limits).pure h)
    fun _ _ => nofun
  bind := .bind
  fault h := .ofKeeps ((keepsLogic limits .loopFree).fault h) (.fault _ _ fun _ => True)
    fun _ _ => nofun
  Bound := Functions.loopFree.Bound
  Fn := Functions.loopFree.Fn
  Def := Functions.loopFree.Def
  bound_var := (keepsLogic limits .loopFree).bound_var
  bound_declared := (keepsLogic limits .loopFree).bound_declared
  bound_define := (keepsLogic limits .loopFree).bound_define
  fn_of_bound h hbody := h _ hbody
  resolve y := by
    refine .ofKeeps (Keeps.resolve y) ((tidyLogic limits).resolve y) fun m hm q => ?_
    rw [resolve_eq hm]
    exact nofun
  declare {y b} hb := by
    refine .ofKeeps (Keeps.declare hb) ((tidyLogic limits).declare trivial) fun m hm q => ?_
    rw [declare_eq hm.current_live]
    split <;> exact nofun
  rebind {y b} hb := by
    refine .ofKeeps (Keeps.rebind hb) ((tidyLogic limits).rebind trivial) fun m hm q => ?_
    rw [rebind_eq hm]
    split <;> exact nofun
  definitions := Functions.loopFree.definitions
  missingDeclaration hc := .ofKeeps ((keepsLogic limits .loopFree).missingDeclaration hc)
    (.fault _ _ fun _ => True) fun _ _ => nofun
  secondBody hc := .ofKeeps ((keepsLogic limits .loopFree).secondBody hc)
    (.fault _ _ fun _ => True) fun _ _ => nofun
  inInnerScope h := by
    intro m hm
    rw [inInnerScope_eq hm.wellFormed]
    exact h.inNewScope hm hm.wellFormed.current_live
  checkDepth name l := by
    refine .ofKeeps ((keepsLogic limits .loopFree).checkDepth name l)
      ((tidyLogic limits).checkDepth name l) fun m _ q => ?_
    rw [checkDepth_eq]
    split <;> exact nofun
  log h := .ofKeeps ((keepsLogic limits .loopFree).log h) ((tidyLogic limits).log h)
    fun _ _ => nofun
  escaped hc h := .ofKeeps ((keepsLogic limits .loopFree).escaped hc h)
    ((tidyLogic limits).escaped trivial h) fun _ _ => nofun
  print text l := .ofKeeps ((keepsLogic limits .loopFree).print text l)
    ((tidyLogic limits).print text l) fun _ _ => nofun

/-! ## Entering functions -/

/-- A call that is let through is one of those that may be in progress. -/
theorem finishing_checkDepth {limits : Limits} (name : String) (l : Location) :
    Finishing calls (checkDepth limits name l) fun _ => calls < limits.calls := by
  intro m hm
  have h : Finished m (fun _ => True) (checkDepth limits name l m) :=
    (finishingRules limits calls).checkDepth name l m hm
  refine ⟨h.tidy, ?_, h.fuel⟩
  intro a q hq
  refine ⟨(h.gives a q hq).1, ?_⟩
  rw [checkDepth_eq, hm.activeCalls] at hq
  split at hq
  · cases hq
  · omega

/-- To enter a function, only where the call is let through fuel is needed for the calls in its
    body. -/
theorem finishing_enter_succ {limits : Limits} {fuel : Nat}
    (h : calls < limits.calls →
      (finishingRules limits (calls + 1)).toRules.Enters (enter limits fuel)) :
    (finishingRules limits calls).toRules.Enters (enter limits (fuel + 1)) := by
  intro c vs l hc hvs
  let outer := (finishingRules limits calls).toRules
  let inner := (finishingRules limits (calls + 1)).toRules
  rw [enter]
  refine Finishing.bind (finishing_checkDepth c.name l) fun _ hcalls => ?_
  refine outer.bind (outer.log rfl) fun _ _ => ?_
  have hbody : Finishing (calls + 1) (do
      passArguments l c.params vs
      runAll limits fuel (enter limits fuel) c.body)
      (inner.Ends fun j => Stmt.escapesAny j c.body) := by
    refine inner.bind (inner.passArguments l c.params vs hvs) fun _ _ => ?_
    refine inner.runAll (h hcalls) fuel c.body (inner.definitions hc) ?_
    -- there is no loop in the body that could need more turns
    intro hloop
    exact absurd (hc.symm.trans hloop) Bool.false_ne_true
  refine outer.bind (Finishing.inCall ?_) fun flow hflow => outer.callResult hc hflow
  intro m hm
  exact hbody.inNewScope hm hm.wellFormed.global_live

/-- Fuel for one call more than may still be made is enough to enter a function. -/
theorem finishing_enter {limits : Limits} {fuel : Nat} (h : limits.calls ≤ calls + fuel) :
    (finishingRules limits calls).toRules.Enters (enter limits (fuel + 1)) := by
  -- each call that is let through has one call more in progress and one unit of fuel less
  induction fuel generalizing calls with
  | zero => exact finishing_enter_succ fun hcalls => absurd hcalls (by omega)
  | succ fuel ih => exact finishing_enter_succ fun _ => ih (by omega)

/-- Running a program without loops does not run out of that fuel. -/
theorem finished_runProgram {limits : Limits} {fuel : Nat} (h : limits.calls < fuel) {p : Program}
    (hp : Stmt.hasLoopAny p.nodes = false) (m : Machine) :
    Finished m.reset (fun _ => True) (runProgram limits fuel p m.reset) := by
  obtain ⟨fuel, rfl⟩ : ∃ k, fuel = k + 1 := ⟨fuel - 1, by omega⟩
  let L := (finishingRules limits 0).toRules
  have henter : L.Enters (enter limits (fuel + 1)) := finishing_enter (by omega)
  have hbind : L.Holds (bindNodes limits (fuel + 1) p.nodes) fun _ => True := by
    refine L.bindNodes henter p.nodes (fun d hd => Stmt.hasLoopAny_body p.nodes hd hp) ?_
    intro hloop
    exact absurd (hp.symm.trans hloop) nofun
  exact L.runProgram henter hbind m.reset ⟨Machine.wellFormed_reset m, ScopeTree.binds_new, rfl⟩

end Exec

/-- Every program without loops finishes, whatever functions call each other in it and whatever
    the limits are: with fuel for one call more than may be in progress, a run gives a value,
    faults, or ends at a jump that escaped a function. -/
theorem loopFree_finishes (s : Session) (h : ∀ n ∈ s.program.nodes, n.hasLoop = false)
    (fuel : Nat) (hfuel : s.limits.calls < fuel) :
    (∃ v, (s.run fuel).1 = .ok v) ∨ (∃ f, (s.run fuel).1 = .error (.fault f)) ∨
      ∃ j name, (s.run fuel).1 = .error (.defect (.jumpEscaped j name)) := by
  have hloop : Stmt.hasLoopAny s.program.nodes = false := Stmt.hasLoopAny_eq_false_iff.mpr h
  have hfinished := Exec.finished_runProgram hfuel hloop s.machine
  have hidle := s.run_idle fuel
  rw [Session.run] at hidle ⊢
  cases hrun : Exec.runProgram s.limits fuel s.program s.machine.reset with
  | ok v q => exact .inl ⟨v, rfl⟩
  | error stop q =>
      rw [hrun] at hidle hfinished
      cases stop with
      | fault f => exact .inr (.inl ⟨f, rfl⟩)
      | defect d =>
          obtain ⟨j, name, rfl⟩ := hidle
          exact .inr (.inr ⟨j, name, rfl⟩)
      | outOfFuel => exact absurd rfl (hfinished.fuel q)

/-- Two functions that call each other, one of them in an argument, are stopped by the limit. -/
theorem loopFree_finishes_mutual :
    let call (name : String) (args : List Expr) : Stmt :=
      .returnValue (some (.call name args .start)) .start
    let define (name : String) (ps : List Param) (body : List Stmt) : Stmt :=
      .group [.declareFun name "int" ps .start, .defineFun name "int" ps body .start]
    let n : Param := ⟨"int", "n"⟩
    let s : Session := .new ⟨[.declareFun "again" "int" [n] .start,
      define "main" [] [call "again" [.call "main" [] .start]],
      define "again" [n] [call "main" []]]⟩ ⟨5, 0⟩ (.new none)
    (∀ node ∈ s.program.nodes, node.hasLoop = false) ∧ s.limits.calls < 6 ∧
    (s.run 6).1.isOk = false ∧
    ((∃ v, (s.run 6).1 = .ok v) ∨ (∃ f, (s.run 6).1 = .error (.fault f)) ∨
      ∃ j name, (s.run 6).1 = .error (.defect (.jumpEscaped j name))) := by
  intro call define n s
  have hloop : ∀ node ∈ s.program.nodes, node.hasLoop = false := by decide
  have hfuel : s.limits.calls < 6 := by decide
  have hrun : (s.run 6).1.isOk = false := by decide +kernel
  exact ⟨hloop, hfuel, hrun, loopFree_finishes s hloop 6 hfuel⟩

end PocketC
