/-
  PocketC.Proofs.Run.Moments

  What holds at every moment of a run.  Evaluating, running and entering carry an invariant
  on, case by case as they are defined; hence it holds where any part of the run begins and
  where it ends, if it holds where the run begins.
-/

import PocketC.Proofs.Run.Invariant

namespace PocketC

open Exec

theorem Exec.length_of_evalElements {enter : Enter} : ∀ {es : List Expr} {m q : Machine}
    {vs : List Value}, evalElements enter es m = .ok vs q → vs.length = es.length
  | [], _, _, _, h => by
      cases h
      rfl
  | e :: es, m, q, vs, h => by
      rw [evalElements] at h
      obtain ⟨v, r, _, hrest⟩ := bind_eq_ok.mp h
      obtain ⟨_, s, _, hrest⟩ := bind_eq_ok.mp hrest
      obtain ⟨ws, t, hws, hpure⟩ := bind_eq_ok.mp hrest
      cases hpure
      rw [List.length_cons, List.length_cons, length_of_evalElements hws]

namespace Invariant

variable {limits : Limits} {root : Part} {L : Invariant limits root} {m q : Machine}

/-! ## Expressions -/

variable (L) in
/-- Entering functions with this fuel carries the statement. -/
def Enters (fuel : Nat) : Prop :=
  ∀ {callee args l m}, L.At ⟨fuel, .enter callee args l, m⟩ →
    L.Carried m L.Val (enter limits fuel callee args l m)

section
variable {fuel : Nat}

mutual

theorem carried_eval (henter : L.Enters fuel) : ∀ (e : Expr) {m : Machine},
    L.At ⟨fuel, .eval e, m⟩ → L.Carried m L.Val (eval (enter limits fuel) e m)
  | .int n _, _, h => h.pure (L.int n)
  | .char c _, _, h => h.pure (L.char c)
  | .string s _, _, h => h.pure (L.string s)
  | .var name l, _, h => h.load name l
  | .binary op a b l, m, h => by
      rw [eval]
      have ha := h.begins .binaryLeft h.toGood trivial
      refine (carried_eval henter a ha).bind h.wellFormed fun v q hv hq _ => ?_
      have hb := h.begins (.binaryRight hv) hq trivial
      refine (carried_eval henter b hb).bind hq.wellFormed fun w r _ hr _ => ?_
      refine hr.ofExcept fun x hx => ?_
      obtain ⟨n, rfl⟩ := BinaryOp.int_of_apply hx
      exact L.int n
  | .negate a l, m, h => by
      rw [eval]
      have ha := h.begins .negated h.toGood trivial
      refine (carried_eval henter a ha).bind h.wellFormed fun v q _ hq _ => ?_
      refine hq.ofExcept fun x hx => ?_
      obtain ⟨n, rfl⟩ := Value.int_of_negate hx
      exact L.int n
  | .assign name e l, m, h => by
      rw [eval]
      have he := h.begins .assigned h.toGood trivial
      refine (carried_eval henter e he).bind h.wellFormed fun v q hv hq hval => ?_
      exact (h.begins (.store hv) hq hval).store
  | .assignElement name index e l, m, h => by
      rw [eval]
      have hindex := h.begins .elementIndex h.toGood trivial
      refine (carried_eval henter index hindex).bind h.wellFormed fun i q hi hq _ => ?_
      -- a number changes nothing on the way, so the value is evaluated behind the index
      refine Carried.bind (hq.ofExcept fun n hn => hn) hq.wellFormed fun n q' hn' hq' hn => ?_
      obtain ⟨_, rfl⟩ := ofExcept_eq_ok hn'
      have he := h.begins (.elementAssigned hi hn) hq trivial
      refine (carried_eval henter e he).bind hq.wellFormed fun v r hv hr hval => ?_
      exact (h.begins (.elementStore hi hn hv) hr hval).assignElement
  | .call name args l, m, h => by
      rw [eval]
      refine (h.findCallee name args.length l).bind h.wellFormed fun callee q hc hq _ => ?_
      have hargs := h.begins (.arguments hc) hq trivial
      refine (carried_evalAll henter args hargs).bind hq.wellFormed fun vs r hvs hr hvals => ?_
      exact henter (h.begins (.call hc hvs) hr hvals)
  | .array es l, m, h => by
      rw [eval]
      have hes := h.begins .elements h.toGood trivial
      refine (carried_evalElements henter es hes).bind h.wellFormed fun vs q hvs hq hvals => ?_
      exact hq.pure (L.array h.within (length_of_evalElements hvs) hvals)
  | .element name index l, m, h => by
      rw [eval]
      have hindex := h.begins .readIndex h.toGood trivial
      refine (carried_eval henter index hindex).bind h.wellFormed fun i q _ hq _ => ?_
      refine Carried.bind (Q := fun _ => True) (hq.ofExcept fun _ _ => trivial) hq.wellFormed ?_
      exact fun n r _ hr _ => hr.loadElement name n l

theorem carried_evalAll (henter : L.Enters fuel) : ∀ (es : List Expr) {m : Machine},
    L.At ⟨fuel, .evalAll es, m⟩ →
    L.Carried m (fun vs => ∀ v ∈ vs, L.Val v) (evalAll (enter limits fuel) es m)
  | [], _, h => h.pure (by simp)
  | e :: es, m, h => by
      rw [evalAll]
      have he := h.begins .argument h.toGood trivial
      refine (carried_eval henter e he).bind h.wellFormed fun v q hv hq hval => ?_
      have hes := h.begins (.otherArguments hv) hq trivial
      refine (carried_evalAll henter es hes).bind hq.wellFormed fun vs r _ hr hvals => ?_
      exact hr.pure (List.forall_mem_cons.mpr ⟨hval, hvals⟩)

theorem carried_evalElements (henter : L.Enters fuel) : ∀ (es : List Expr) {m : Machine},
    L.At ⟨fuel, .evalElements es, m⟩ →
    L.Carried m (fun vs => ∀ v ∈ vs, L.Val v ∧ v ≠ .void)
      (evalElements (enter limits fuel) es m)
  | [], _, h => h.pure (by simp)
  | e :: es, m, h => by
      rw [evalElements]
      have he := h.begins .element h.toGood trivial
      refine (carried_eval henter e he).bind h.wellFormed fun v q hv hq hval => ?_
      refine (hq.checkStorable v e.location).bind hq.wellFormed fun _ q' hq' hgood hvoid => ?_
      obtain rfl := checkStorable_eq_ok hq'
      have hes := h.begins (.otherElements hv hvoid) hgood trivial
      refine (carried_evalElements henter es hes).bind hgood.wellFormed fun vs r _ hr hvals => ?_
      exact hr.pure (List.forall_mem_cons.mpr ⟨⟨hval, hvoid⟩, hvals⟩)

end

theorem carried_evalNumber (henter : L.Enters fuel) {e : Expr} (h : L.At ⟨fuel, .eval e, m⟩) :
    L.Carried m (fun _ => True) (evalNumber (enter limits fuel) e m) :=
  (carried_eval henter e h).bind h.wellFormed fun _ _ _ hq _ => hq.ofExcept fun _ _ => trivial

theorem carried_evalCondition (henter : L.Enters fuel) {e : Expr} (h : L.At ⟨fuel, .eval e, m⟩) :
    L.Carried m (fun _ => True) (evalCondition (enter limits fuel) e m) := by
  refine (carried_eval henter e h).bind h.wellFormed fun v q _ hq _ => ?_
  refine Carried.bind (Q := fun _ => True) (hq.ofExcept fun _ _ => trivial) hq.wellFormed ?_
  exact fun n r _ hr _ => hr.pure trivial

theorem carried_runStep (henter : L.Enters fuel) : ∀ {step : Option Expr} {m : Machine},
    L.Good m → (∀ e, step = some e → L.At ⟨fuel, .eval e, m⟩) →
    L.Carried m (fun _ => True) (runStep (enter limits fuel) step m)
  | none, _, h, _ => h.pure trivial
  | some e, _, h, he =>
      (carried_eval henter e (he e rfl)).bind h.wellFormed fun _ _ _ hq _ => hq.pure trivial

/-! ## Statements -/

variable (L) in
/-- The flow of a statement, with the statement about values if it returns one. -/
def Returns : Flow → Prop
  | .returned v => L.Val v
  | _ => True

theorem carried_loop (henter : L.Enters fuel) {e : Expr} {body : Stmt} {step : Option Expr}
    (hbody : ∀ {m}, L.At ⟨fuel, .run body, m⟩ →
      L.Carried m L.Returns (run limits fuel (enter limits fuel) body m)) :
    ∀ {turns : Nat} {m : Machine}, L.At ⟨fuel, .loop e body step turns, m⟩ →
      L.Carried m L.Returns (loop (evalCondition (enter limits fuel) e)
        (inInnerScope (run limits fuel (enter limits fuel) body))
        (runStep (enter limits fuel) step) turns m) := by
  intro turns
  induction turns with
  | zero => exact fun h => h.toGood.outOfFuel
  | succ turns ih =>
      intro m h
      rw [loop]
      have htest := h.begins .test h.toGood trivial
      refine (carried_evalCondition henter htest).bind h.wellFormed fun holds q hholds hq _ => ?_
      cases holds with
      | false => exact hq.pure trivial
      | true =>
          have hturn := h.opens (.turn hholds) hq (.inl rfl) trivial
          refine (hq.inInnerScope (hbody hturn)).bind hq.wellFormed fun flow r hflow hr hval => ?_
          -- a turn that is done or jumps to the next one goes on with the step
          have hnext : flow = .done ∨ flow = .jump .next → L.Carried r L.Returns ((do
              runStep (enter limits fuel) step
              loop (evalCondition (enter limits fuel) e)
                (inInnerScope (run limits fuel (enter limits fuel) body))
                (runStep (enter limits fuel) step) turns : Exec Flow) r) := by
            intro hgoes
            refine (carried_runStep henter hr ?_).bind hr.wellFormed fun _ s hs hgood _ => ?_
            · rintro e rfl
              exact h.begins (.step hholds hflow hgoes) hr trivial
            · exact ih (h.begins (.otherTurns hholds hflow hgoes hs) hgood trivial)
          cases flow with
          | done => exact hnext (.inl rfl)
          | jump j =>
              cases j with
              | next => exact hnext (.inr rfl)
              | leave => exact hr.pure trivial
          | returned v => exact hr.pure hval

theorem carried_runVarDeclaration (henter : L.Enters fuel) {name type : String}
    {size : Option Expr} {l : Location}
    (h : L.At ⟨fuel, .run (.declareVar name type size l), m⟩) :
    L.Carried m (fun _ => True)
      (runVarDeclaration limits (enter limits fuel) name type size l m) := by
  cases size with
  | none => exact (h.begins .newVariable h.toGood (.inl rfl)).declareVar
  | some e =>
      have he := h.begins .arraySize h.toGood trivial
      refine (carried_evalNumber henter he).bind h.wellFormed fun n q hn hq _ => ?_
      refine Carried.bind (hq.ofExcept fun v hv => hv) hq.wellFormed fun v q' hq' _ hv => ?_
      obtain ⟨_, rfl⟩ := ofExcept_eq_ok hq'
      exact (h.begins (.newArray hn hv) hq (.inr (.inl (newArray_le hv)))).declareVar

theorem carried_runIntrinsic (henter : L.Enters fuel) {name : String} {args : List Expr}
    {l : Location} (h : L.At ⟨fuel, .run (.intrinsic name args l), m⟩) :
    L.Carried m (fun _ => True) (runIntrinsic (enter limits fuel) name args l m) := by
  rw [runIntrinsic]
  cases hempty : args.isEmpty with
  | true => exact h.toGood.fault _
  | false =>
      have hargs := h.begins (.intrinsicArguments hempty) h.toGood trivial
      refine (carried_evalAll henter args hargs).bind h.wellFormed fun vs q _ hq _ => ?_
      by_cases hprint : name = printIntrinsic
      · rw [if_pos hprint]
        refine Carried.bind (Q := fun _ => True) (hq.ofExcept fun _ _ => trivial) hq.wellFormed ?_
        intro text r _ hr _
        refine ⟨.ofPrint r text l, L.quiet (.print text l) hr.holds, ?_⟩
        exact fun _ _ _ => trivial
      · rw [if_neg hprint]
        exact hq.fault _

mutual

theorem carried_run (henter : L.Enters fuel) : ∀ (s : Stmt) {m : Machine},
    L.At ⟨fuel, .run s, m⟩ → L.Carried m L.Returns (run limits fuel (enter limits fuel) s m)
  | .declareVar name type size l, m, h => by
      rw [run]
      exact (carried_runVarDeclaration henter h).bind h.wellFormed fun _ _ _ hq _ => hq.pure trivial
  | .declareFun name result ps l, m, h => by
      rw [run]
      have hdeclare := (h.begins .declaration h.toGood trivial).declareFun
      exact hdeclare.bind h.wellFormed fun _ _ _ hq _ => hq.pure trivial
  | .defineFun name result ps body l, m, h => by
      rw [run]
      have hdefine := (h.begins .definition h.toGood trivial).defineFun
      exact hdefine.bind h.wellFormed fun _ _ _ hq _ => hq.pure trivial
  | .block ss l, m, h => by
      rw [run]
      have hss := h.opens .block h.toGood (.inl rfl) trivial
      exact h.toGood.inInnerScope (carried_runAll henter ss hss)
  | .group ss, m, h => by
      rw [run]
      exact carried_runAll henter ss (h.begins .group h.toGood trivial)
  | .ifElse e yes no l, m, h => by
      rw [run]
      have he := h.begins .condition h.toGood trivial
      refine (carried_evalCondition henter he).bind h.wellFormed fun holds q hholds hq _ => ?_
      cases holds with
      | true => exact carried_run henter yes (h.begins (.yes hholds) hq trivial)
      | false => exact carried_run henter no (h.begins (.no hholds) hq trivial)
  | .whileLoop e body l, m, h => by
      rw [run]
      exact carried_loop henter (fun hbody => carried_run henter body hbody)
        (h.begins .whileLoop h.toGood trivial)
  | .forLoop init e step body l, m, h => by
      rw [run]
      have hinit := h.begins .initializer h.toGood trivial
      refine (carried_run henter init hinit).bind h.wellFormed fun flow q hflow hq _ => ?_
      exact carried_loop henter (fun hbody => carried_run henter body hbody)
        (h.begins (.forLoop hflow) hq trivial)
  | .breakLoop _, _, h => h.toGood.pure trivial
  | .continueLoop _, _, h => h.toGood.pure trivial
  | .returnValue none _, _, h => h.toGood.pure L.void
  | .returnValue (some e) l, m, h => by
      rw [run]
      have he := h.begins .returned h.toGood trivial
      exact (carried_eval henter e he).bind h.wellFormed fun _ _ _ hq hval => hq.pure hval
  | .intrinsic name args l, m, h => by
      rw [run]
      exact (carried_runIntrinsic henter h).bind h.wellFormed fun _ _ _ hq _ => hq.pure trivial
  | .expression e, m, h => by
      rw [run]
      have he := h.begins .expression h.toGood trivial
      exact (carried_eval henter e he).bind h.wellFormed fun _ _ _ hq _ => hq.pure trivial

theorem carried_runAll (henter : L.Enters fuel) : ∀ (ss : List Stmt) {m : Machine},
    L.At ⟨fuel, .runAll ss, m⟩ →
    L.Carried m L.Returns (runAll limits fuel (enter limits fuel) ss m)
  | [], _, h => h.toGood.pure trivial
  | s :: ss, m, h => by
      rw [runAll]
      have hs := h.begins .statement h.toGood trivial
      refine (carried_run henter s hs).bind h.wellFormed fun flow q hflow hq hval => ?_
      match flow with
      | .done => exact carried_runAll henter ss (h.begins (.otherStatements hflow) hq trivial)
      | .jump _ => exact hq.pure trivial
      | .returned _ => exact hq.pure hval

end

/-! ## Calls and programs -/

theorem carried_pass {l : Location} : ∀ (ps : List Param) (vs : List Value) {m : Machine},
    L.At ⟨fuel, .pass ps vs l, m⟩ → L.Carried m (fun _ => True) (passArguments l ps vs m)
  | [], _, _, h => h.toGood.pure trivial
  | _ :: _, [], _, h => h.toGood.pure trivial
  | p :: ps, v :: vs, m, h => by
      rw [passArguments]
      obtain ⟨hv, hvs⟩ := List.forall_mem_cons.mp h.fits
      have hp := (h.begins .parameter h.toGood (.inr (.inr hv))).declareVar
      refine hp.bind h.wellFormed fun _ q hq hgood _ => ?_
      exact carried_pass ps vs (h.begins (.otherParameters hq) hgood hvs)

end

theorem carried_enter (fuel : Nat) : L.Enters fuel := by
  -- the body enters other functions with less fuel
  induction fuel with
  | zero => exact fun h => h.toGood.outOfFuel
  | succ fuel ih =>
      intro callee args l m h
      by_cases hdepth : limits.calls ≤ m.activeCalls
      · rw [enter_of_le hdepth]
        exact h.toGood.fault _
      · have hlt := Nat.lt_of_not_le hdepth
        have hcalled := h.toGood.called callee args l hlt
        have hentered := h.opens (.passing hlt) hcalled (.inr rfl) h.fits
        have hbody : L.Carried (m.entered callee args l) L.Returns ((do
            passArguments l callee.params args
            runAll limits fuel (Exec.enter limits fuel) callee.body : Exec Flow)
            (m.entered callee args l)) := by
          refine (carried_pass _ _ hentered).bind hentered.wellFormed fun _ q hq hpassed _ => ?_
          exact carried_runAll ih _ (h.begins (.callBody hlt hq) hpassed trivial)
        rw [enter_of_lt hlt]
        have hcall := (hcalled.inNewScope (.inr rfl) hbody).inCall
        refine .ofLog rfl (hcall.bind (h.wellFormed.log _) fun flow q _ hq hval => ?_)
        match flow with
        | .done => exact hq.pure L.void
        | .jump j => exact hq.escaped j callee.name
        | .returned v => exact hq.pure hval

theorem carried_bindNodes {fuel : Nat} : ∀ (ss : List Stmt) {m : Machine},
    L.At ⟨fuel, .bindNodes ss, m⟩ → L.Carried m (fun _ => True) (bindNodes limits fuel ss m)
  | [], _, h => h.toGood.pure trivial
  | s :: ss, m, h => by
      rw [bindNodes]
      have hs := h.begins .node h.toGood trivial
      refine (carried_run (carried_enter fuel) s hs).bind h.wellFormed fun flow q hflow hq _ => ?_
      exact carried_bindNodes ss (h.begins (.otherNodes hflow) hq trivial)

theorem carried_runProgram {fuel : Nat} {p : Program} (h : L.At ⟨fuel, .program p, m⟩) :
    L.Carried m L.Val (runProgram limits fuel p m) := by
  have hlog : ∀ e q, L.Good q → e.aboutScope = false → L.Carried q (fun _ => True) (log e q) :=
    fun e q hq he => .ofLog he ⟨.refl _, (hq.log he).holds, fun _ _ _ => trivial⟩
  rw [runProgram]
  refine (hlog _ m h.toGood rfl).bind h.wellFormed fun _ q hq hgood _ => ?_
  cases hq
  have hnodes := h.begins .nodes hgood trivial
  refine (carried_bindNodes _ hnodes).bind hgood.wellFormed fun _ q hq hgood' _ => ?_
  refine (hlog _ q hgood' rfl).bind hgood'.wellFormed fun _ r hr hgood'' _ => ?_
  cases hr
  have hmain := h.begins (.main hq) hgood'' trivial
  refine (carried_eval (carried_enter fuel) _ hmain).bind hgood''.wellFormed fun v r _ hr hval => ?_
  exact (hlog _ r hr rfl).bind hr.wellFormed fun _ _ _ hs _ => hs.pure hval

/-! ## Moments -/

/-- The statement holds where a part of the run ends. -/
theorem At.finish {p : Part} (h : L.At p) : L.Holds (p.finish limits) := by
  obtain ⟨fuel, task, m⟩ := p
  have henter : L.Enters fuel := carried_enter fuel
  cases task with
  | eval e => exact (carried_eval henter e h).holds
  | evalAll es => exact (carried_evalAll henter es h).holds
  | evalElements es => exact (carried_evalElements henter es h).holds
  | store name new l => exact h.store.holds
  | assignElement name index new l => exact h.assignElement.holds
  | enter callee args l => exact (henter h).holds
  | pass ps vs l => exact (carried_pass ps vs h).holds
  | declareVar name v l => exact h.declareVar.holds
  | declareFun name result ps l => exact h.declareFun.holds
  | defineFun name ps body l => exact h.defineFun.holds
  | run s => exact (carried_run henter s h).holds
  | runAll ss => exact (carried_runAll henter ss h).holds
  | loop e body step turns => exact (carried_loop henter (carried_run henter body) h).holds
  | bindNodes ss => exact (carried_bindNodes ss h).holds
  | program p => exact (carried_runProgram h).holds

/-- The statement holds behind a turn of a loop. -/
theorem At.afterTurn {fuel turns : Nat} {e : Expr} {body : Stmt} {step : Option Expr}
    (h : L.At ⟨fuel, .loop e body step (turns + 1), m⟩) {r : Machine} {flow : Flow}
    (hholds : evalCondition (enter limits fuel) e m = .ok true q)
    (hflow : inInnerScope (run limits fuel (enter limits fuel) body) q = .ok flow r) :
    L.Good r := by
  have htest := carried_evalCondition (carried_enter fuel) (h.begins .test h.toGood trivial)
  obtain ⟨hq, _⟩ := htest.good h.wellFormed hholds
  have hbody := carried_run (carried_enter fuel) body
    (h.opens (.turn hholds) hq (.inl rfl) trivial)
  exact ((hq.inInnerScope hbody).good hq.wellFormed hflow).1

/-- A part that a part of the run begins is one where the statement holds. -/
theorem At.next {p r : Part} (h : L.At p) (hb : Part.Begins limits p r) : L.At r := by
  have henter : ∀ fuel, L.Enters fuel := carried_enter
  have hw := h.wellFormed
  have hg := h.toGood
  have hr : L.Good r.start → L.Fits r.task → L.At r := h.begins hb
  cases hb with
  -- expressions
  | binaryLeft => exact hr hg trivial
  | binaryRight ha =>
      have hleft := carried_eval (henter _) _ (h.begins .binaryLeft hg trivial)
      exact hr (hleft.good hw ha).1 trivial
  | negated => exact hr hg trivial
  | assigned => exact hr hg trivial
  | store hv =>
      have hvalue := carried_eval (henter _) _ (h.begins .assigned hg trivial)
      obtain ⟨hq, hval⟩ := hvalue.good hw hv
      exact hr hq hval
  | elementIndex => exact hr hg trivial
  | elementAssigned hi _ =>
      have hindex := carried_eval (henter _) _ (h.begins .elementIndex hg trivial)
      exact hr (hindex.good hw hi).1 trivial
  | elementStore hi hn hv =>
      have hindex := carried_eval (henter _) _ (h.begins .elementIndex hg trivial)
      obtain ⟨hq, _⟩ := hindex.good hw hi
      have hvalue := carried_eval (henter _) _ (h.begins (.elementAssigned hi hn) hq trivial)
      obtain ⟨hr', hval⟩ := hvalue.good hq.wellFormed hv
      exact hr hr' hval
  | arguments hc => exact hr ((hg.findCallee _ _ _).good hw hc).1 trivial
  | call hc hvs =>
      obtain ⟨hq, _⟩ := (hg.findCallee _ _ _).good hw hc
      have hargs := carried_evalAll (henter _) _ (h.begins (.arguments hc) hq trivial)
      obtain ⟨hr', hvals⟩ := hargs.good hq.wellFormed hvs
      exact hr hr' hvals
  | elements => exact hr hg trivial
  | readIndex => exact hr hg trivial
  | argument => exact hr hg trivial
  | otherArguments hv =>
      have hfirst := carried_eval (henter _) _ (h.begins .argument hg trivial)
      exact hr (hfirst.good hw hv).1 trivial
  | element => exact hr hg trivial
  | otherElements hv _ =>
      have hfirst := carried_eval (henter _) _ (h.begins .element hg trivial)
      exact hr (hfirst.good hw hv).1 trivial
  -- calls
  | passing hlt => exact h.opens (.passing hlt) (hg.called _ _ _ hlt) (.inr rfl) h.fits
  | callBody hlt hq =>
      have hentered := h.opens (.passing hlt) (hg.called _ _ _ hlt) (.inr rfl) h.fits
      exact hr ((carried_pass _ _ hentered).good hentered.wellFormed hq).1 trivial
  | parameter => exact hr hg (.inr (.inr (List.forall_mem_cons.mp h.fits).1))
  | otherParameters hq =>
      obtain ⟨hv, hvs⟩ := List.forall_mem_cons.mp h.fits
      have hdeclare := (h.begins .parameter hg (.inr (.inr hv))).declareVar
      exact hr (hdeclare.good hw hq).1 hvs
  -- declarations
  | newVariable => exact hr hg (.inl rfl)
  | arraySize => exact hr hg trivial
  | newArray hn hv =>
      have hsize := carried_evalNumber (henter _) (h.begins .arraySize hg trivial)
      exact hr (hsize.good hw hn).1 (.inr (.inl (newArray_le hv)))
  | declaration => exact hr hg trivial
  | definition => exact hr hg trivial
  -- statements
  | block => exact h.opens .block hg (.inl rfl) trivial
  | group => exact hr hg trivial
  | condition => exact hr hg trivial
  | yes hholds | no hholds =>
      have htest := carried_evalCondition (henter _) (h.begins .condition hg trivial)
      exact hr (htest.good hw hholds).1 trivial
  | whileLoop => exact hr hg trivial
  | initializer => exact hr hg trivial
  | forLoop hq =>
      have hinit := carried_run (henter _) _ (h.begins .initializer hg trivial)
      exact hr (hinit.good hw hq).1 trivial
  | returned => exact hr hg trivial
  | intrinsicArguments => exact hr hg trivial
  | expression => exact hr hg trivial
  | statement => exact hr hg trivial
  | otherStatements hq =>
      have hfirst := carried_run (henter _) _ (h.begins .statement hg trivial)
      exact hr (hfirst.good hw hq).1 trivial
  -- loops
  | test => exact hr hg trivial
  | turn hholds =>
      have htest := carried_evalCondition (henter _) (h.begins .test hg trivial)
      exact h.opens (.turn hholds) (htest.good hw hholds).1 (.inl rfl) trivial
  | step hholds hflow _ => exact hr (h.afterTurn hholds hflow) trivial
  | @otherTurns fuel _ _ step _ _ _ _ r _ hholds hflow hgoes hs =>
      have hturn := h.afterTurn hholds hflow
      have hat : ∀ e, step = some e → L.At ⟨fuel, .eval e, r⟩ := by
        rintro e rfl
        exact h.begins (.step hholds hflow hgoes) hturn trivial
      exact hr ((carried_runStep (henter fuel) hturn hat).good hturn.wellFormed hs).1 trivial
  -- programs
  | node => exact hr hg trivial
  | otherNodes hq =>
      have hfirst := carried_run (henter _) _ (h.begins .node hg trivial)
      exact hr (hfirst.good hw hq).1 trivial
  | nodes => exact hr (hg.log rfl) trivial
  | @main _ p m _ hq =>
      have hlog : L.Good (m.log (.binding p.nodes.length)) := hg.log rfl
      have hnodes := carried_bindNodes _ (h.begins .nodes hlog trivial)
      exact hr ((hnodes.good hlog.wellFormed hq).1.log rfl) trivial

/-- Every part of the run is one where the statement holds. -/
theorem At.within_root (h : L.At root) {p : Part} (hp : Part.Within limits root p) : L.At p := by
  induction hp with
  | refl => exact h
  | tail _ hb ih => exact ih.next hb

/-- The statement holds at every moment of the run. -/
theorem At.moment (h : L.At root) (hm : Part.Moment limits root m) : L.Holds m := by
  obtain ⟨p, hp, rfl | rfl⟩ := hm
  · exact (h.within_root hp).holds
  · exact (h.within_root hp).finish

/-- The invariant that says nothing: its parts are well-formed where they begin. -/
def plain (limits : Limits) (root : Part) : Invariant limits root where
  Holds _ := True
  store _ _ _ _ _ _ _ := ⟨trivial, trivial⟩
  assignElement _ _ _ _ _ _ _ _ := trivial
  declareVar _ _ _ _ _ := trivial
  declareFun _ _ _ _ := trivial
  defineFun _ _ _ _ _ _ := trivial
  opens _ _ _ _ := trivial
  closes _ _ _ _ _ := trivial
  quiet _ _ := trivial

end Invariant

/-- Every part of a run that begins on a well-formed machine begins on one. -/
theorem Part.Within.wellFormed {limits : Limits} {root p : Part} (h : Part.Within limits root p)
    (hroot : root.start.WellFormed) : p.start.WellFormed := by
  let L := Invariant.plain limits root
  have hat : L.At root := L.at_root (fun _ => trivial) hroot trivial
  exact (hat.within_root h).wellFormed

end PocketC
