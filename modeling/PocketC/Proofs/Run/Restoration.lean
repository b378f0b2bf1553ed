/-
  PocketC.Proofs.Run.Restoration

  A run leaves the scopes as it found them.  Whatever is run on a well-formed machine
  and however deep it faults, afterwards the same scopes are live inside the same
  scopes, the same scope is the current one, and as many calls are in progress as
  before.  In the meantime no scope is closed out of order and none is used that is
  not live, and the journal shows openings and closings that match like brackets.

  The invariant of the induction is `Exec.Tidy`: what a run may have changed by its
  end, for each way to end.  It is a logic, so the theorem about runs is that of
  `PocketC.Proofs.Run.Logic`.
-/

import PocketC.Proofs.Run.NameLogic
import PocketC.Proofs.Run.Steps
import PocketC.Run.Session

namespace PocketC

/-! ## Matching openings and closings -/

namespace Event

/-- The scopes that are open after an event, the newest in front, if `stack` were open before
    it; `none` if it closes a scope that is not the newest open one. -/
def openAfter (stack : List Nat) : Event → Option (List Nat)
  | .pushed scope _ => some (scope :: stack)
  | .popped scope => if stack.head? = some scope then some stack.tail else none
  | _ => some stack

/-- The scopes that are open after some events. -/
def openScopes (stack : List Nat) (es : List Event) : Option (List Nat) :=
  es.foldlM openAfter stack

/-- Every scope that the events open is closed by them, after all that were opened later. -/
def Balanced (es : List Event) : Prop := openScopes [] es = some []

theorem openScopes_append (es fs : List Event) (stack : List Nat) :
    openScopes stack (es ++ fs) = (openScopes stack es).bind (openScopes · fs) :=
  List.foldlM_append

theorem openAfter_below {e : Event} {stack rest : List Nat} (below : List Nat)
    (h : openAfter stack e = some rest) : openAfter (stack ++ below) e = some (rest ++ below) := by
  cases e with
  | pushed scope parent => cases h; rfl
  | popped scope =>
      simp only [openAfter] at h ⊢
      split at h
      · rename_i hhead
        cases h
        obtain ⟨tail, rfl⟩ := List.head?_eq_some_iff.mp hhead
        simp
      · cases h
  | _ => cases h; rfl

/-- Scopes that were open before stay below those that the events open. -/
theorem openScopes_below {es : List Event} {stack rest : List Nat} (below : List Nat)
    (h : openScopes stack es = some rest) :
    openScopes (stack ++ below) es = some (rest ++ below) := by
  induction es generalizing stack with
  | nil => cases h; rfl
  | cons e es ih =>
      obtain ⟨middle, he, hes⟩ := Option.bind_eq_some_iff.mp h
      exact Option.bind_eq_some_iff.mpr ⟨middle ++ below, openAfter_below below he, ih hes⟩

theorem Balanced.append {es fs : List Event} (h : Balanced es) :
    openScopes [] (es ++ fs) = openScopes [] fs := by
  rw [openScopes_append, h]
  rfl

theorem balanced_singleton {e : Event} (h : e.aboutScope = false) : Balanced [e] := by
  cases e with
  | pushed scope parent => cases h
  | popped scope => cases h
  | _ => rfl

/-- Behind the opening of a scope the scopes that the events leave open lie above it. -/
theorem openScopes_pushed {es : List Event} {stack : List Nat} (scope parent : Nat)
    (h : openScopes [] es = some stack) :
    openScopes [] (.pushed scope parent :: es) = some (stack ++ [scope]) :=
  openScopes_below [scope] h

/-- Balanced events between the opening and the closing of a scope. -/
theorem Balanced.enclose {es : List Event} (h : Balanced es) (scope parent : Nat) :
    Balanced (.pushed scope parent :: es ++ [.popped scope]) := by
  rw [Balanced, openScopes_append, openScopes_pushed scope parent h]
  simp [openScopes, openAfter]

end Event

/-! ## Growing journals -/

namespace Journal

/-- The journal `k` is `j` with these events behind. -/
structure Extends (j k : Journal) (es : List Event) : Prop where
  detail : k.detail = j.detail
  events : k.events = j.events ++ es

theorem Extends.refl (j : Journal) : j.Extends j [] := ⟨rfl, (List.append_nil _).symm⟩

theorem Extends.trans {j k l : Journal} {es fs : List Event} (h₁ : j.Extends k es)
    (h₂ : k.Extends l fs) : j.Extends l (es ++ fs) where
  detail := h₂.detail.trans h₁.detail
  events := by rw [h₂.events, h₁.events, List.append_assoc]

theorem Extends.keeps {j k : Journal} {es : List Event} (h : j.Extends k es) (level : Level) :
    k.keeps level = j.keeps level := by
  unfold Journal.keeps
  rw [h.detail]

theorem extends_record (j : Journal) (e : Event) :
    j.Extends (j.record e) (if j.keeps e.level then [e] else []) where
  detail := by
    unfold record
    split <;> rfl
  events := events_record j e

end Journal

/-! ## What a run leaves unchanged -/

namespace Machine

/-- The same scope is the current one, as many calls are in progress, the same scopes are
    live inside the same scopes, and what was recorded is balanced. -/
structure Restored (m q : Machine) : Prop where
  current : q.current = m.current
  activeCalls : q.activeCalls = m.activeCalls
  parents : q.scopes.parents = m.scopes.parents
  trace : ∃ es, m.journal.Extends q.journal es ∧ Event.Balanced es

/-- What was recorded closes no scope out of order. -/
def Unfinished (m q : Machine) : Prop :=
  ∃ es stack, m.journal.Extends q.journal es ∧ Event.openScopes [] es = some stack

theorem Restored.refl (m : Machine) : m.Restored m := ⟨rfl, rfl, rfl, [], .refl m.journal, rfl⟩

theorem Restored.trans {m q r : Machine} (h₁ : m.Restored q) (h₂ : q.Restored r) :
    m.Restored r where
  current := h₂.current.trans h₁.current
  activeCalls := h₂.activeCalls.trans h₁.activeCalls
  parents := h₂.parents.trans h₁.parents
  trace := by
    obtain ⟨es, hes, hbal⟩ := h₁.trace
    obtain ⟨fs, hfs, hbal'⟩ := h₂.trace
    exact ⟨es ++ fs, hes.trans hfs, hbal.append.trans hbal'⟩

theorem Restored.unfinished_trans {m q r : Machine} (h₁ : m.Restored q) (h₂ : q.Unfinished r) :
    m.Unfinished r := by
  obtain ⟨es, hes, hbal⟩ := h₁.trace
  obtain ⟨fs, stack, hfs, hopen⟩ := h₂
  exact ⟨es ++ fs, stack, hes.trans hfs, hbal.append.trans hopen⟩

theorem Restored.unfinished {m q : Machine} (h : m.Restored q) : m.Unfinished q := by
  obtain ⟨es, hes, hbal⟩ := h.trace
  exact ⟨es, [], hes, hbal⟩

theorem Restored.size {m q : Machine} (h : m.Restored q) : q.scopes.size = m.scopes.size :=
  ScopeTree.size_congr h.parents

theorem Restored.wellFormed {m q : Machine} (h : m.Restored q) (hm : m.WellFormed) :
    q.WellFormed where
  current_live := by
    rw [h.current, h.size]
    exact hm.current_live
  nested := hm.nested.congr h.parents

/-- Changing what names are bound to restores everything. -/
theorem Restored.ofScopes (m : Machine) {scopes : ScopeTree}
    (h : scopes.parents = m.scopes.parents) : m.Restored { m with scopes := scopes } :=
  ⟨rfl, rfl, h, [], .refl m.journal, rfl⟩

/-- So does recording an event that opens and closes no scope. -/
theorem Restored.ofLog (m : Machine) {e : Event} (h : Event.Balanced [e]) :
    m.Restored (m.log e) := by
  refine ⟨rfl, rfl, rfl, _, m.journal.extends_record e, ?_⟩
  split
  · exact h
  · rfl

/-! ## A scope of one's own -/

/-- A run in a new scope opens that scope before anything that it leaves open. -/
theorem Unfinished.ofOpened {m q : Machine} {parent : Nat} (h : (m.opened parent).Unfinished q) :
    m.Unfinished q := by
  obtain ⟨es, stack, hes, hopen⟩ := h
  -- a journal that keeps no openings keeps no closings either, and shows none of them
  have hpush := m.journal.extends_record (.pushed m.scopes.size parent)
  by_cases hkeeps : m.journal.keeps (Event.pushed m.scopes.size parent).level
  · rw [if_pos hkeeps] at hpush
    exact ⟨_, _, hpush.trans hes, Event.openScopes_pushed m.scopes.size parent hopen⟩
  · rw [if_neg hkeeps] at hpush
    exact ⟨_, stack, hpush.trans hes, hopen⟩

/-- A run in a new scope that restores everything leaves that scope as the newest, and closing
    it restores everything. -/
theorem Restored.ofOpened {m q : Machine} {parent : Nat} (hm : m.WellFormed)
    (h : (m.opened parent).Restored q) :
    ∃ rest, q.scopes.close m.scopes.size = some rest ∧
      m.Restored (q.closed rest m.scopes.size m.current) := by
  have hparents : q.scopes.parents = m.scopes.parents ++ [some parent] :=
    h.parents.trans (ScopeTree.parents_nest m.scopes parent)
  -- what was opened in the new scope is closed again, so that the new one is the last
  have hsize : m.scopes.size + 1 = q.scopes.size := by
    rw [ScopeTree.size_eq_length_parents q.scopes, hparents, List.length_append,
      ← ScopeTree.size_eq_length_parents]
    rfl
  have hglobal : m.scopes.size ≠ ScopeTree.global := Nat.ne_of_gt hm.global_live
  have hclose : q.scopes.close m.scopes.size = some ⟨q.scopes.live.dropLast⟩ :=
    if_pos ⟨hglobal, hsize⟩
  refine ⟨_, hclose, ⟨rfl, h.activeCalls, ?_, ?_⟩⟩
  · refine (ScopeTree.parents_close hclose).trans ?_
    rw [hparents, List.dropLast_concat]
  · obtain ⟨es, hes, hbal⟩ := h.trace
    have hpush := m.journal.extends_record (.pushed m.scopes.size parent)
    have hpop := q.journal.extends_record (.popped m.scopes.size)
    -- The journal keeps the closing if it kept the opening.
    have hkeeps : q.journal.keeps (Event.popped m.scopes.size).level =
        m.journal.keeps (Event.pushed m.scopes.size parent).level := (hpush.trans hes).keeps .trace
    rw [hkeeps] at hpop
    by_cases hk : m.journal.keeps (Event.pushed m.scopes.size parent).level
    · rw [if_pos hk] at hpush hpop
      exact ⟨_, (hpush.trans hes).trans hpop, hbal.enclose m.scopes.size parent⟩
    · rw [if_neg hk] at hpush hpop
      refine ⟨_, (hpush.trans hes).trans hpop, ?_⟩
      rw [List.append_nil]
      exact hbal

/-- So does printing. -/
theorem Restored.ofPrint (m : Machine) (text : String) (l : Location) :
    m.Restored { m.log (.printed text l) with transcript := m.transcript.print text l } :=
  have h : m.Restored (m.log (.printed text l)) := .ofLog m rfl
  ⟨h.current, h.activeCalls, h.parents, h.trace⟩

end Machine

/-! ## The logic -/

namespace Exec

variable {α β : Type}

/-- What a run on `m` may have changed by its end: nothing if it gives a result or faults, and
    else, an escaped jump or spent fuel ending it, no more than its journal can show. -/
def Tidy (m : Machine) : EStateM.Result Stop Machine α → Prop
  | .ok _ q => m.Restored q
  | .error (.fault _) q => m.Restored q
  | .error (.defect d) q => (∃ j name, d = .jumpEscaped j name) ∧ m.Unfinished q
  | .error .outOfFuel q => m.Unfinished q

theorem Tidy.trans {m q : Machine} (h : m.Restored q) {r : EStateM.Result Stop Machine α}
    (hr : Tidy q r) : Tidy m r := by
  match r with
  | .ok _ _ => exact h.trans hr
  | .error (.fault _) _ => exact h.trans hr
  | .error (.defect _) _ => exact ⟨hr.1, h.unfinished_trans hr.2⟩
  | .error .outOfFuel _ => exact h.unfinished_trans hr

/-- On every well-formed machine `x` is tidy, and `Q` holds of its result. -/
def TidyRun (x : Exec α) (Q : α → Prop) : Prop :=
  ∀ m, m.WellFormed → Tidy m (x m) ∧ ∀ a q, x m = .ok a q → Q a

/-- A step that always gives a result and restores everything. -/
theorem TidyRun.ofOk {x : Exec α} {Q : α → Prop}
    (h : ∀ m, m.WellFormed → ∃ a q, x m = .ok a q ∧ m.Restored q ∧ Q a) : TidyRun x Q := by
  intro m hm
  obtain ⟨a, q, hx, hq, ha⟩ := h m hm
  rw [hx]
  refine ⟨hq, ?_⟩
  rintro _ _ ⟨⟩
  exact ha

/-- A step that always stops with a fault and changes nothing. -/
theorem TidyRun.fault (cause : FaultCause) (l : Location) (Q : α → Prop) :
    TidyRun (fault cause l) Q :=
  fun m _ => ⟨.refl m, nofun⟩

theorem TidyRun.bind {x : Exec α} {f : α → Exec β} {Q : α → Prop} {R : β → Prop}
    (hx : TidyRun x Q) (hf : ∀ a, Q a → TidyRun (f a) R) : TidyRun (x >>= f) R := by
  intro m hm
  obtain ⟨htidy, hQ⟩ := hx m hm
  cases hxm : x m with
  | ok a q =>
      rw [hxm] at htidy
      obtain ⟨hnext, hR⟩ := hf a (hQ a q hxm) q (htidy.wellFormed hm)
      rw [bind_ok hxm]
      exact ⟨hnext.trans htidy, hR⟩
  | error stop q =>
      rw [hxm] at htidy
      rw [bind_error hxm]
      refine ⟨?_, nofun⟩
      match stop with
      | .fault _ => exact htidy
      | .defect _ => exact htidy
      | .outOfFuel => exact htidy

/-- A run in a new scope is tidy if its body is tidy in that scope; it gives what the body gives. -/
theorem Tidy.inNewScope {body : Exec α} {m : Machine} (hm : m.WellFormed) {parent : Nat}
    (hp : parent < m.scopes.size) (htidy : Tidy (m.opened parent) (body (m.opened parent))) :
    Tidy m (inNewScope parent body m) ∧ ∀ a q, inNewScope parent body m = .ok a q →
      ∃ r, body (m.opened parent) = .ok a r := by
  rw [inNewScope_eq hm hp]
  cases hbody : body (m.opened parent) with
  | ok a q =>
      rw [hbody] at htidy
      obtain ⟨rest, hclose, hrest⟩ := htidy.ofOpened hm
      rw [afterwards_ok hbody (closeScope_eq hclose)]
      refine ⟨hrest, ?_⟩
      rintro _ _ ⟨⟩
      exact ⟨q, rfl⟩
  | error stop q =>
      rw [hbody] at htidy
      -- a fault passes through the closing of the scope, the other reasons do not
      match stop with
      | .fault f =>
          obtain ⟨rest, hclose, hrest⟩ := Machine.Restored.ofOpened hm htidy
          rw [afterwards_fault hbody (closeScope_eq hclose)]
          exact ⟨hrest, nofun⟩
      | .defect d =>
          rw [afterwards_defect hbody]
          exact ⟨⟨htidy.1, Machine.Unfinished.ofOpened htidy.2⟩, nofun⟩
      | .outOfFuel =>
          rw [afterwards_outOfFuel hbody]
          exact ⟨Machine.Unfinished.ofOpened htidy, nofun⟩

theorem TidyRun.inNewScope {body : Exec α} {Q : α → Prop} (h : TidyRun body Q) {m : Machine}
    (hm : m.WellFormed) {parent : Nat} (hp : parent < m.scopes.size) :
    Tidy m (inNewScope parent body m) ∧ ∀ a q, inNewScope parent body m = .ok a q → Q a := by
  obtain ⟨htidy, hQ⟩ := h (m.opened parent) (hm.opened hp)
  obtain ⟨hrest, hgives⟩ := htidy.inNewScope hm hp
  refine ⟨hrest, ?_⟩
  intro a q hq
  obtain ⟨r, hbody⟩ := hgives a q hq
  exact hQ a r hbody

theorem TidyRun.inInnerScope {body : Exec α} {Q : α → Prop} (h : TidyRun body Q) :
    TidyRun (inInnerScope body) Q := by
  intro m hm
  rw [inInnerScope_eq hm]
  exact h.inNewScope hm hm.current_live

/-- One call more is in progress while the body of a function runs, and none afterwards. -/
theorem Tidy.inCall {body : Exec α} {m : Machine}
    (htidy : Tidy { m with activeCalls := m.activeCalls + 1 }
      (body { m with activeCalls := m.activeCalls + 1 })) :
    Tidy m (inCall body m) ∧ ∀ a q, inCall body m = .ok a q →
      ∃ r, body { m with activeCalls := m.activeCalls + 1 } = .ok a r := by
  -- What is restored to a machine with one call more is restored to `m` without that call.
  have hback : ∀ {q : Machine}, Machine.Restored { m with activeCalls := m.activeCalls + 1 } q →
      m.Restored { q with activeCalls := q.activeCalls - 1 } := by
    intro q hq
    refine ⟨hq.current, ?_, hq.parents, hq.trace⟩
    show q.activeCalls - 1 = m.activeCalls
    rw [hq.activeCalls]
    exact Nat.add_sub_cancel _ _
  rw [inCall_eq]
  cases hbody : body { m with activeCalls := m.activeCalls + 1 } with
  | ok a q =>
      rw [hbody] at htidy
      rw [afterwards_ok hbody (modify_eq _)]
      refine ⟨hback htidy, ?_⟩
      rintro _ _ ⟨⟩
      exact ⟨q, rfl⟩
  | error stop q =>
      rw [hbody] at htidy
      match stop with
      | .fault f =>
          rw [afterwards_fault hbody (modify_eq _)]
          exact ⟨hback htidy, nofun⟩
      | .defect d =>
          rw [afterwards_defect hbody]
          exact ⟨htidy, nofun⟩
      | .outOfFuel =>
          rw [afterwards_outOfFuel hbody]
          exact ⟨htidy, nofun⟩

theorem TidyRun.inCall {body : Exec α} {Q : α → Prop} (h : TidyRun body Q) :
    TidyRun (inCall body) Q := by
  intro m hm
  obtain ⟨htidy, hQ⟩ := h { m with activeCalls := m.activeCalls + 1 } ⟨hm.current_live, hm.nested⟩
  obtain ⟨hrest, hgives⟩ := htidy.inCall
  refine ⟨hrest, ?_⟩
  intro a q hq
  obtain ⟨r, hbody⟩ := hgives a q hq
  exact hQ a r hbody

/-- Being tidy is a logic that asks nothing of names and values. -/
def tidyLogic (limits : Limits) : NameLogic limits where
  Holds := TidyRun
  pure {_ a _} h := .ofOk fun m _ => ⟨a, m, rfl, .refl m, h⟩
  bind := TidyRun.bind
  fault {_ cause l Q} _ := .fault cause l Q
  Bound := fun _ _ => True
  Fn := fun _ => True
  Def := fun _ => True
  bound_var := fun _ _ => trivial
  bound_declared := fun _ _ _ => trivial
  bound_define := fun _ _ _ => trivial
  fn_of_bound := fun _ _ => trivial
  resolve y := .ofOk fun m hm => ⟨_, m, resolve_eq hm y, .refl m, fun _ _ => trivial⟩
  declare {y b} _ := .ofOk fun m hm => by
    rw [declare_eq hm.current_live]
    cases h : m.scopes.declare m.current y b with
    | none => exact ⟨_, _, rfl, .refl m, trivial⟩
    | some u => exact ⟨_, _, rfl, .ofScopes m (ScopeTree.parents_declare h), trivial⟩
  rebind {y b} _ := .ofOk fun m hm => by
    rw [rebind_eq hm]
    cases h : m.scopes.rebind m.current y b with
    | none => exact ⟨_, _, rfl, .refl m, trivial⟩
    | some u => exact ⟨_, _, rfl, .ofScopes m (ScopeTree.parents_rebind h), trivial⟩
  definitions := fun _ _ _ => trivial
  missingDeclaration _ := .fault _ _ _
  secondBody _ := .fault _ _ _
  inInnerScope := TidyRun.inInnerScope
  checkDepth name l := by
    intro m _
    rw [checkDepth_eq]
    split
    · exact ⟨.refl m, fun _ _ _ => trivial⟩
    · exact ⟨.refl m, fun _ _ _ => trivial⟩
  log {e} h := .ofOk fun m _ => ⟨_, _, rfl, .ofLog m (Event.balanced_singleton h), trivial⟩
  inCall {_ x _} h := .inCall fun m hm => h.inNewScope hm hm.global_live
  escaped {c j} _ _ := fun m _ =>
    ⟨⟨⟨j, c.name, rfl⟩, (Machine.Restored.refl m).unfinished⟩, nofun⟩
  print text l := .ofOk fun m _ => ⟨_, _, rfl, .ofPrint m text l, trivial⟩
  outOfFuel := fun m _ => ⟨(Machine.Restored.refl m).unfinished, nofun⟩

/-! ## Runs -/

section
variable (limits : Limits) (fuel : Nat) {m : Machine} (hm : m.WellFormed)
include hm

theorem tidy_enter (c : Callee) (vs : List Value) (l : Location) :
    Tidy m (enter limits fuel c vs l m) :=
  ((tidyLogic limits).toLogic.enter fuel c vs l trivial (fun _ _ => trivial) m hm).1

theorem tidy_eval (e : Expr) : Tidy m (eval (enter limits fuel) e m) :=
  ((tidyLogic limits).toLogic.eval ((tidyLogic limits).toLogic.enter fuel) e m hm).1

theorem tidy_run (s : Stmt) : Tidy m (run limits fuel (enter limits fuel) s m) :=
  ((tidyLogic limits).toLogic.run ((tidyLogic limits).toLogic.enter fuel) fuel s
    (fun _ _ => trivial) m hm).1

end

/-- Running a program is tidy as well; it starts by itself on a machine without bindings. -/
theorem tidy_runProgram (limits : Limits) (fuel : Nat) (p : Program) (m : Machine) :
    Tidy m.reset (runProgram limits fuel p m.reset) := by
  have hbind := (tidyLogic limits).toLogic.bindNodes fuel p.nodes fun _ _ => trivial
  exact ((tidyLogic limits).toLogic.runProgram fuel hbind m.reset (Machine.wellFormed_reset m)).1

end Exec

/-! ## Sessions -/

/-- Only the global scope is live, it is the current one, and no call is in progress. -/
structure Machine.Idle (m : Machine) : Prop where
  size : m.scopes.size = 1
  current : m.current = ScopeTree.global
  activeCalls : m.activeCalls = 0

theorem Machine.Restored.idle {m q : Machine} (h : m.reset.Restored q) : q.Idle where
  size := h.size
  current := h.current
  activeCalls := h.activeCalls

/-- A run that gives a value or faults leaves the machine of the session idle, and only an
    escaped jump is a defect. -/
theorem Session.run_idle (s : Session) (fuel : Nat) :
    match (s.run fuel).1 with
    | .ok _ | .error (.fault _) => (s.run fuel).2.machine.Idle
    | .error (.defect d) => ∃ j name, d = .jumpEscaped j name
    | .error .outOfFuel => True := by
  have htidy := Exec.tidy_runProgram s.limits fuel s.program s.machine
  rw [Session.run]
  cases hrun : Exec.runProgram s.limits fuel s.program s.machine.reset with
  | ok v q =>
      rw [hrun] at htidy
      exact htidy.idle
  | error stop q =>
      rw [hrun] at htidy
      match stop with
      | .fault _ => exact Machine.Restored.idle htidy
      | .defect _ => exact htidy.1
      | .outOfFuel => trivial

/-- Statements, expressions and calls are tidy on every well-formed machine, and a session is
    idle after each of its runs that gives a value or faults. -/
theorem runs_restore_scopes :
    (∀ (limits : Limits) (fuel : Nat) (m : Machine), m.WellFormed →
      (∀ s, Exec.Tidy m (Exec.run limits fuel (Exec.enter limits fuel) s m)) ∧
      (∀ e, Exec.Tidy m (Exec.eval (Exec.enter limits fuel) e m)) ∧
      (∀ c vs l, Exec.Tidy m (Exec.enter limits fuel c vs l m))) ∧
    (∀ (s : Session) (fuel : Nat), match (s.run fuel).1 with
      | .ok _ | .error (.fault _) => (s.run fuel).2.machine.Idle
      | .error (.defect d) => ∃ j name, d = .jumpEscaped j name
      | .error .outOfFuel => True) := by
  refine ⟨?_, Session.run_idle⟩
  intro limits fuel m hm
  refine ⟨?_, ?_, ?_⟩
  · intro s
    exact Exec.tidy_run limits fuel hm s
  · intro e
    exact Exec.tidy_eval limits fuel hm e
  · intro c vs l
    exact Exec.tidy_enter limits fuel hm c vs l

/-- A division by zero two scopes deep restores a machine on which two scopes are live. -/
theorem runs_restore_scopes_after_fault :
    let m := (Machine.new (.new (some .trace))).reset.opened ScopeTree.global
    let r := Exec.run .standard 1 (Exec.enter .standard 1) (.block [.block [.expression
      (.binary .div (.int 1 .start) (.int 0 .start) .start)] .start] .start) m
    m.WellFormed ∧ (∃ f q, r = .error (.fault f) q) ∧ Exec.Tidy m r := by
  intro m r
  have hm : m.WellFormed := (Machine.wellFormed_reset _).opened Nat.zero_lt_one
  exact ⟨hm, ⟨_, _, rfl⟩, (runs_restore_scopes.1 .standard 1 m hm).1 _⟩

end PocketC
