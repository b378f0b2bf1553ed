/-
  PocketC.Proofs.Run.Places

  Where the parts of a run stand.  A part begins another one in the scope that it is run in
  itself, in a scope opened inside of that one, or in the scope of a call.  Whatever was
  run in the meantime has restored the scopes and the number of calls, so that both are
  known of the part that begins from those of the part that begins it.
-/

import PocketC.Proofs.Run.Moments
import PocketC.Proofs.Tree.Scopes

namespace PocketC

open Exec

/-! ## What tasks do to scopes -/

namespace Task

/-- How many scopes the part may open one inside of the other, without those of calls. -/
def nesting : Task → Nat
  | .run s => s.nesting
  | .runAll ss | .bindNodes ss => Stmt.nestingAll ss
  | .loop _ body _ _ => body.nesting + 1
  | .program p => Stmt.nestingAll p.nodes
  | _ => 0

/-- The symbols that the part may declare in the scope that it begins in, but for those that
    initializers of loops declare. -/
def declares : Task → List Symbol
  | .pass params _ _ => params.map fun p => .var p.name
  | .declareVar name _ _ => [.var name]
  | .declareFun name _ params _ => [.fn name params.length]
  | .run s => s.declares
  | .runAll ss | .bindNodes ss => Stmt.declaresAll ss
  | .program p => Stmt.declaresAll p.nodes
  | _ => []

/-- The one task is to run the initializer of the loop that the other one is to run. -/
inductive Initializes : Task → Task → Prop where
  | loop (init : Stmt) (e step : Expr) (body : Stmt) (l : Location) :
      Initializes (.run init) (.run (.forLoop init e step body l))

end Task

/-! ## What is restored -/

namespace Exec

variable {α : Type} {x : Exec α} {Q : α → Prop} {m q : Machine} {limits : Limits} {fuel : Nat}

theorem TidyRun.restored (h : TidyRun x Q) (hm : m.WellFormed) {a : α} (hx : x m = .ok a q) :
    m.Restored q := by
  have htidy := (h m hm).1
  rw [hx] at htidy
  exact htidy

theorem restored_eval (hm : m.WellFormed) {e : Expr} {v : Value}
    (h : eval (enter limits fuel) e m = .ok v q) : m.Restored q :=
  ((tidyLogic limits).toLogic.eval ((tidyLogic limits).toLogic.enter fuel) e).restored hm h

theorem restored_evalAll (hm : m.WellFormed) {es : List Expr} {vs : List Value}
    (h : evalAll (enter limits fuel) es m = .ok vs q) : m.Restored q :=
  ((tidyLogic limits).toLogic.evalAll ((tidyLogic limits).toLogic.enter fuel) es).restored hm h

theorem restored_evalNumber (hm : m.WellFormed) {e : Expr} {n : Int}
    (h : evalNumber (enter limits fuel) e m = .ok n q) : m.Restored q :=
  ((tidyLogic limits).toLogic.evalNumber ((tidyLogic limits).toLogic.enter fuel) e).restored hm h

theorem restored_evalCondition (hm : m.WellFormed) {e : Expr} {b : Bool}
    (h : evalCondition (enter limits fuel) e m = .ok b q) : m.Restored q :=
  ((tidyLogic limits).toLogic.evalCondition ((tidyLogic limits).toLogic.enter fuel) e).restored hm h

theorem restored_run (hm : m.WellFormed) {s : Stmt} {flow : Flow}
    (h : run limits fuel (enter limits fuel) s m = .ok flow q) : m.Restored q :=
  ((tidyLogic limits).toLogic.run ((tidyLogic limits).toLogic.enter fuel) fuel s
    fun _ _ => trivial).restored hm h

/-- A turn of a loop. -/
theorem restored_turn (hm : m.WellFormed) {s : Stmt} {flow : Flow}
    (h : inInnerScope (run limits fuel (enter limits fuel) s) m = .ok flow q) : m.Restored q :=
  ((tidyLogic limits).inInnerScope ((tidyLogic limits).toLogic.run
    ((tidyLogic limits).toLogic.enter fuel) fuel s fun _ _ => trivial)).restored hm h

theorem restored_runStep (hm : m.WellFormed) {step : Option Expr}
    (h : runStep (enter limits fuel) step m = .ok () q) : m.Restored q := by
  cases step with
  | none =>
      cases h
      exact .refl m
  | some e =>
      obtain ⟨v, r, hv, hpure⟩ := bind_eq_ok.mp h
      cases hpure
      exact restored_eval hm hv

theorem restored_findCallee (hm : m.WellFormed) {name : String} {arity : Nat} {l : Location}
    {callee : Callee} (h : findCallee name arity l m = .ok callee q) : m.Restored q := by
  obtain ⟨_, _, _, _, hok⟩ | ⟨_, hfault⟩ := findCallee_cases hm name arity l
  · rw [hok] at h
    cases h
    exact .refl m
  · rw [hfault] at h
    cases h

theorem restored_declareVariable (hm : m.WellFormed) {name : String} {v : Variable} {l : Location}
    (h : declareVariable name v l m = .ok () q) : m.Restored q := by
  obtain ⟨u, hu, hok⟩ | ⟨_, hfault⟩ := declareVariable_cases hm name v l
  · rw [hok] at h
    cases h
    exact .ofScopes m hu.parents
  · rw [hfault] at h
    cases h

theorem restored_passArguments (limits : Limits) (hm : m.WellFormed) {ps : List Param}
    {vs : List Value} {l : Location} (h : passArguments l ps vs m = .ok () q) : m.Restored q :=
  ((tidyLogic limits).toLogic.passArguments l ps vs fun _ _ => trivial).restored hm h

theorem restored_bindNodes (hm : m.WellFormed) {ss : List Stmt}
    (h : bindNodes limits fuel ss m = .ok () q) : m.Restored q :=
  ((tidyLogic limits).toLogic.bindNodes fuel ss fun _ _ => trivial).restored hm h

end Exec

/-! ## Places -/

/-- One scope more is live on `q`, and it is the current one. -/
structure Machine.OpensOne (m q : Machine) : Prop where
  size : q.scopes.size = m.scopes.size + 1
  current : q.current = m.scopes.size

theorem Machine.Restored.opened {m q : Machine} (h : m.Restored q) (parent : Nat) :
    m.OpensOne (q.opened parent) where
  size := by
    rw [← h.size]
    exact ScopeTree.size_nest q.scopes parent
  current := h.size

namespace Part

variable {limits : Limits} {p r : Part}

/-- Where `r` stands that `p` begins. -/
inductive Place (limits : Limits) (p r : Part) : Prop where
  /-- in the scope of `p`, where it declares what `p` declares unless it initializes a loop -/
  | same (restored : p.start.Restored r.start) (nesting : r.task.nesting ≤ p.task.nesting)
      (declares : r.task.declares ⊆ p.task.declares ∨ r.task.Initializes p.task)
  /-- in a scope that is opened inside of the one of `p` -/
  | inner (opens : p.start.OpensOne r.start) (calls : r.start.activeCalls = p.start.activeCalls)
      (nesting : r.task.nesting + 1 ≤ p.task.nesting)
  /-- in the scope of the call that `p` is -/
  | call (callee : Callee) (args : List Value) (l : Location) (task : p.task = .enter callee args l)
      (depth : p.start.activeCalls < limits.calls) (opens : p.start.OpensOne r.start)
      (calls : r.start.activeCalls = p.start.activeCalls + 1)
      (nesting : r.task.nesting ≤ Stmt.nestingAll callee.body)

/-- How the machine comes about on which `r` starts, that `p` begins. -/
inductive Origin (limits : Limits) (p r : Part) : Prop where
  | same (restored : p.start.Restored r.start) (nesting : r.task.nesting ≤ p.task.nesting)
      (declares : r.task.declares ⊆ p.task.declares ∨ r.task.Initializes p.task)
  /-- from where `p` was run up to, by opening a scope inside of the current one -/
  | inner {q : Machine} (restored : p.start.Restored q) (opened : r.start = q.opened q.current)
      (nesting : r.task.nesting + 1 ≤ p.task.nesting)
  /-- by entering the call that `p` is -/
  | call {callee : Callee} {args : List Value} {l : Location} (task : p.task = .enter callee args l)
      (depth : p.start.activeCalls < limits.calls)
      (restored : (p.start.entered callee args l).Restored r.start)
      (nesting : r.task.nesting ≤ Stmt.nestingAll callee.body)

/-- What opens and declares nothing starts in the scope of whatever begins it. -/
theorem Origin.plain (h : p.start.Restored r.start) (hn : r.task.nesting = 0)
    (hd : r.task.declares = []) : Origin limits p r := by
  refine .same h ?_ (.inl ?_)
  · rw [hn]
    exact Nat.zero_le _
  · rw [hd]
    exact List.nil_subset _

theorem Begins.origin (hb : Begins limits p r) (hm : p.start.WellFormed) : Origin limits p r := by
  cases hb with
  -- expressions
  | binaryLeft | negated | assigned | elementIndex | elements | readIndex | argument | element =>
      exact .plain (.refl _) rfl rfl
  | binaryRight hv | store hv | otherArguments hv | otherElements hv _ =>
      exact .plain (restored_eval hm hv) rfl rfl
  | elementAssigned hi _ => exact .plain (restored_eval hm hi) rfl rfl
  | elementStore hi _ hv =>
      have hq := restored_eval hm hi
      exact .plain (hq.trans (restored_eval (hq.wellFormed hm) hv)) rfl rfl
  | arguments hc => exact .plain (restored_findCallee hm hc) rfl rfl
  | call hc hvs =>
      have hq := restored_findCallee hm hc
      exact .plain (hq.trans (restored_evalAll (hq.wellFormed hm) hvs)) rfl rfl
  -- calls
  | passing hlt => exact .call rfl hlt (.refl _) (Nat.zero_le _)
  | @callBody _ callee args l _ _ hlt hq =>
      have hpassed := restored_passArguments limits (hm.entered callee args l) hq
      exact .call rfl hlt hpassed (Nat.le_refl _)
  | parameter => exact .same (.refl _) (Nat.le_refl _) (.inl (by simp [Task.declares]))
  | otherParameters hq =>
      exact .same (restored_declareVariable hm hq) (Nat.le_refl _) (.inl (by simp [Task.declares]))
  -- declarations
  | newVariable | declaration => exact .same (.refl _) (Nat.le_refl _) (.inl (List.Subset.refl _))
  | arraySize | definition => exact .plain (.refl _) rfl rfl
  | newArray hn _ =>
      exact .same (restored_evalNumber hm hn) (Nat.le_refl _) (.inl (List.Subset.refl _))
  -- statements
  | block => exact .inner (.refl _) rfl (Nat.le_refl _)
  | group => exact .same (.refl _) (Nat.le_refl _) (.inl (List.Subset.refl _))
  | condition | returned | intrinsicArguments | expression => exact .plain (.refl _) rfl rfl
  | yes hholds =>
      exact .same (restored_evalCondition hm hholds) (Nat.le_max_left _ _)
        (.inl (List.subset_append_left _ _))
  | no hholds =>
      exact .same (restored_evalCondition hm hholds) (Nat.le_max_right _ _)
        (.inl (List.subset_append_right _ _))
  | whileLoop => exact .same (.refl _) (Nat.le_refl _) (.inl (List.Subset.refl _))
  | initializer => exact .same (.refl _) (Nat.le_max_left _ _) (.inr (.loop _ _ _ _ _))
  | forLoop hq =>
      exact .same (restored_run hm hq) (Nat.le_max_right _ _) (.inl (List.Subset.refl _))
  | statement | node =>
      exact .same (.refl _) (Nat.le_max_left _ _) (.inl (List.subset_append_left _ _))
  | otherStatements hq | otherNodes hq =>
      exact .same (restored_run hm hq) (Nat.le_max_right _ _)
        (.inl (List.subset_append_right _ _))
  -- loops
  | test => exact .plain (.refl _) rfl rfl
  | turn hholds => exact .inner (restored_evalCondition hm hholds) rfl (Nat.le_refl _)
  | step hholds hflow _ =>
      have hq := restored_evalCondition hm hholds
      exact .plain (hq.trans (restored_turn (hq.wellFormed hm) hflow)) rfl rfl
  | otherTurns hholds hflow _ hs =>
      have hq := restored_evalCondition hm hholds
      have hr := hq.trans (restored_turn (hq.wellFormed hm) hflow)
      exact .same (hr.trans (restored_runStep (hr.wellFormed hm) hs)) (Nat.le_refl _)
        (.inl (List.Subset.refl _))
  -- programs
  | nodes =>
      exact .same (.ofLog _ rfl) (Nat.le_refl _) (.inl (List.Subset.refl _))
  | @main _ p m _ hq =>
      have hlogged : m.Restored (m.log (.binding p.nodes.length)) := .ofLog m rfl
      have hbound := hlogged.trans (restored_bindNodes (hlogged.wellFormed hm) hq)
      exact .plain (hbound.trans (.ofLog _ rfl)) rfl rfl

theorem Origin.place (h : Origin limits p r) : Place limits p r := by
  cases h with
  | same hrestored hnesting hdeclares => exact .same hrestored hnesting hdeclares
  | inner hrestored hopened hnesting =>
      refine .inner ?_ ?_ hnesting
      · rw [hopened]
        exact hrestored.opened _
      · rw [hopened]
        exact hrestored.activeCalls
  | @call callee args l htask hdepth hrestored hnesting =>
      have hcalled := (Machine.Restored.refl (p.start.called callee args l)).opened ScopeTree.global
      refine .call callee args l htask hdepth ⟨?_, ?_⟩ hrestored.activeCalls hnesting
      · rw [hrestored.size]
        exact hcalled.size
      · rw [hrestored.current]
        exact hcalled.current

theorem Begins.place (hb : Begins limits p r) (hm : p.start.WellFormed) : Place limits p r :=
  (hb.origin hm).place

end Part
end PocketC
