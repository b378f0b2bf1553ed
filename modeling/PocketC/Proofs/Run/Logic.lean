/-
  PocketC.Proofs.Run.Logic

  Proving something about every run.  A logic says what it means that a property
  holds of a computation, and it has one rule for each step from which running a
  program is built.  The theorems here derive from these rules that the property
  holds of evaluating every expression, running every statement and entering every
  function, so that a proof about runs consists of its rules alone.

  With the property goes a statement about the result: what is known of the values
  that expressions give, and which flows a statement may end in.

  Two rules stand apart from the others (`Rules`), since a property may have all but
  them: that of one more call in progress, which fails of a property that counts the
  calls, and that of spent fuel.  Without them the property still passes from the steps
  to expressions, and to statements without loops.
-/

import PocketC.Proofs.Tree.Contents
import PocketC.Run.Call

namespace PocketC

/-- Whether an event is the opening or the closing of a scope. -/
def Event.aboutScope : Event → Bool
  | .pushed .. | .popped .. => true
  | _ => false

/-! ## Causes that only definitions have -/

/-- Whether only the definition of a function faults with this cause. -/
def FaultCause.ofDefinition : FaultCause → Bool
  | .missingDeclaration .. | .secondBody .. => true
  | _ => false

/-- A computation with values never faults with the cause of a definition. -/
def Ordinary {α : Type} (r : Except FaultCause α) : Prop :=
  ∀ cause, r = .error cause → cause.ofDefinition = false

namespace Ordinary

theorem ok {α : Type} (a : α) : Ordinary (.ok a) := fun _ h => nomatch h

theorem error {α : Type} {cause : FaultCause} (h : cause.ofDefinition = false) :
    Ordinary (.error cause : Except FaultCause α) := by
  intro c hc
  cases hc
  exact h

theorem bind {α β : Type} {x : Except FaultCause α} {f : α → Except FaultCause β}
    (hx : Ordinary x) (hf : ∀ a, Ordinary (f a)) : Ordinary (x >>= f) := by
  cases x with
  | ok a => exact hf a
  | error cause => exact error (hx cause rfl)

theorem toNumber (v : Value) (wanted : Wanted) : Ordinary (v.toNumber wanted) := by
  unfold Value.toNumber
  split
  · exact ok _
  · exact error rfl

theorem result (operation : Operation) (n : Int) : Ordinary (operation.result n) := by
  unfold Operation.result
  split
  · exact ok _
  · exact error rfl

theorem compute (op : BinaryOp) (a b : Int) : Ordinary (op.compute a b) := by
  cases op with
  | add | sub | mul => exact result _ _
  | div =>
      simp only [BinaryOp.compute]
      split
      · exact error rfl
      · exact result _ _
  | rem =>
      simp only [BinaryOp.compute]
      split
      · exact error rfl
      · split
        · exact ok _
        · exact error rfl
  | eq | ne | lt | le | gt | ge => exact ok _

theorem apply (op : BinaryOp) (a b : Value) : Ordinary (op.apply a b) :=
  bind (toNumber a _) fun _ => bind (toNumber b _) fun _ => compute op _ _

theorem negate (v : Value) : Ordinary v.negate :=
  bind (toNumber v _) fun _ => result _ _

theorem newArray (limits : Limits) (name : String) (size : Int) :
    Ordinary (Exec.newArray limits name size) := by
  unfold Exec.newArray
  split
  · exact error rfl
  · split
    · exact error rfl
    · exact ok _

theorem formatted (vs : List Value) : Ordinary (Exec.formatted vs) := by
  unfold Exec.formatted
  split
  · split
    · exact ok _
    · rename_i e _
      cases e <;> exact error rfl
  · exact error rfl
  · exact ok _

theorem elementsOf (name : String) (v : Value) : Ordinary (v.elementsOf name) := by
  cases v with
  | array elements => exact ok _
  | _ => exact error rfl

theorem positionIn (name : String) (length : Nat) (index : Int) :
    Ordinary (PocketC.positionIn name length index) := by
  unfold PocketC.positionIn
  split
  · exact ok _
  · exact error rfl

theorem fitting (name : String) (old new : Value) : Ordinary (Value.fitting name old new) := by
  unfold Value.fitting
  split
  · split
    · exact ok _
    · exact error rfl
  · exact ok _

end Ordinary

/-! ## What computations with values give -/

theorem Operation.int_of_result {operation : Operation} {n : Int} {v : Value}
    (h : operation.result n = .ok v) : ∃ k, v = .int k := by
  unfold Operation.result at h
  split at h
  · cases h
    exact ⟨n, rfl⟩
  · cases h

theorem BinaryOp.int_of_compute {op : BinaryOp} {a b : Int} {v : Value}
    (h : op.compute a b = .ok v) : ∃ k, v = .int k := by
  cases op with
  | add | sub | mul => exact Operation.int_of_result h
  | div =>
      simp only [compute] at h
      split at h
      · cases h
      · exact Operation.int_of_result h
  | rem =>
      simp only [compute] at h
      split at h
      · cases h
      · split at h
        · cases h
          exact ⟨_, rfl⟩
        · cases h
  | eq | ne | lt | le | gt | ge =>
      cases h
      exact ⟨_, rfl⟩

theorem BinaryOp.int_of_apply {op : BinaryOp} {a b v : Value} (h : op.apply a b = .ok v) :
    ∃ k, v = .int k := by
  unfold apply at h
  cases ha : a.toNumber (.operand op.symbol) with
  | error cause => rw [ha] at h; cases h
  | ok m =>
      cases hb : b.toNumber (.operand op.symbol) with
      | error cause => rw [ha, hb] at h; cases h
      | ok n =>
          rw [ha, hb] at h
          exact int_of_compute h

theorem Value.int_of_negate {a v : Value} (h : a.negate = .ok v) : ∃ k, v = .int k := by
  unfold negate at h
  cases ha : a.toNumber (.operand "-") with
  | error cause => rw [ha] at h; cases h
  | ok n =>
      rw [ha] at h
      exact Operation.int_of_result h

/-- An array that may be declared is within the limit. -/
theorem Exec.newArray_le {limits : Limits} {name : String} {size : Int} {v : Value}
    (h : newArray limits name size = .ok v) :
    ∃ n ≤ limits.elements, v = .array (List.replicate n .uninitialized) := by
  unfold newArray at h
  split at h
  · cases h
  · split at h
    · cases h
    · cases h
      exact ⟨size.toNat, by omega, rfl⟩

namespace Exec

/-! ## Properties of computations -/

/-- A property of computations, with a statement about the result, that passes from
    the steps of a computation to the whole. -/
structure Lifting where
  /-- the property holds of `x`, and `Q` of its result if it has one -/
  Holds {α : Type} (x : Exec α) (Q : α → Prop) : Prop
  pure {α : Type} {a : α} {Q : α → Prop} : Q a → Holds (pure a) Q
  bind {α β : Type} {x : Exec α} {f : α → Exec β} {Q : α → Prop} {R : β → Prop} :
    Holds x Q → (∀ a, Q a → Holds (f a) R) → Holds (x >>= f) R
  fault {α : Type} {cause : FaultCause} {l : Location} {Q : α → Prop} :
    cause.ofDefinition = false → Holds (fault cause l) Q

namespace Lifting

variable (L : Lifting) {α β : Type}

theorem mono {x : Exec α} {Q R : α → Prop} (hx : L.Holds x Q) (h : ∀ a, Q a → R a) :
    L.Holds x R := by
  -- the same run, with the step behind it that weakens the statement
  rw [← bind_pure x]
  exact L.bind hx fun a ha => L.pure (h a ha)

theorem ofExcept {r : Except FaultCause α} {l : Location} {Q : α → Prop} (hr : Ordinary r)
    (h : ∀ a, r = .ok a → Q a) : L.Holds (ofExcept r l) Q := by
  cases r with
  | ok a => exact L.pure (h a rfl)
  | error cause => exact L.fault (hr cause rfl)

end Lifting

/-- The rules from which a property of evaluating expressions follows. -/
structure ExprRules extends Lifting where
  /-- what is known of every value that an expression gives -/
  Val : Value → Prop
  /-- what is known of every function that a call enters -/
  Fn : Callee → Prop
  -- values
  int (n : Int) : Val (.int n)
  char (c : Char) : Val (.char c)
  string (s : String) : Val (.string s)
  void : Val .void
  array {vs : List Value} : (∀ v ∈ vs, Val v ∧ v ≠ .void) → Val (.array vs)
  -- variables
  load (name : String) (l : Location) : Holds (load name l) Val
  loadElement (name : String) (index : Int) (l : Location) :
    Holds (loadElement name index l) Val
  store (name : String) {v : Value} (l : Location) : Val v → Holds (store name v l) Val
  assignElement (name : String) (index : Int) {v : Value} (l : Location) :
    Val v → Holds (assignElement name index v l) Val
  -- functions
  findCallee (name : String) (arity : Nat) (l : Location) : Holds (findCallee name arity l) Fn

/-- The rules from which a property of what is run inside of one function follows. -/
structure Rules (limits : Limits) extends ExprRules where
  /-- which definitions may be run -/
  Def : Callee → Prop
  -- variables
  declareNew (name type : String) (l : Location) :
    Holds (declareVariable name (.new type) l) fun _ => True
  declareArray (name type : String) {n : Nat} (l : Location) : n ≤ limits.elements →
    Holds (declareVariable name ⟨type, .array (List.replicate n .uninitialized)⟩ l) fun _ => True
  declareParam (p : Param) {v : Value} (l : Location) : Val v →
    Holds (declareVariable p.name ⟨p.type, v⟩ l) fun _ => True
  -- functions
  declareFun (name result : String) (params : List Param) (l : Location) :
    Holds (runFunDeclaration name result params l) fun _ => True
  defineFun {c : Callee} (l : Location) : Def c →
    Holds (runFunDefinition c.name c.params c.body l) fun _ => True
  definitions {c : Callee} : Fn c → ∀ d ∈ Stmt.definitionsAll c.body, Def d
  -- scopes, calls and output
  inInnerScope {α : Type} {x : Exec α} {Q : α → Prop} : Holds x Q → Holds (inInnerScope x) Q
  checkDepth (name : String) (l : Location) : Holds (checkDepth limits name l) fun _ => True
  log {e : Event} : e.aboutScope = false → Holds (log e) fun _ => True
  escaped {c : Callee} {j : Jump} : Fn c → Stmt.escapesAny j c.body = true →
    Holds (defect (.jumpEscaped j c.name)) Val
  print (text : String) (l : Location) : Holds (print text l) fun _ => True

/-- The rules from which a property of every run follows. -/
structure Logic (limits : Limits) extends Rules limits where
  inCall {α : Type} {x : Exec α} {Q : α → Prop} :
    Holds x Q → Holds (inCall (inNewScope ScopeTree.global x)) Q
  outOfFuel {α : Type} {Q : α → Prop} : Holds outOfFuel Q

namespace ExprRules

variable (L : ExprRules)

/-- What is known of the functions that a call enters and of their arguments is enough
    for a way of entering functions. -/
def Enters (enter : Enter) : Prop :=
  ∀ c vs l, L.Fn c → (∀ v ∈ vs, L.Val v) → L.Holds (enter c vs l) L.Val

/-! ## Expressions -/

theorem checkStorable (v : Value) (l : Location) :
    L.Holds (checkStorable v l) fun _ => v ≠ .void := by
  cases v with
  | void => exact L.fault rfl
  | _ => exact L.pure nofun

section
variable {enter : Enter}

mutual

/-- The property holds of evaluating an expression. -/
theorem eval (henter : L.Enters enter) : ∀ e : Expr, L.Holds (eval enter e) L.Val
  | .int n _ => L.pure (L.int n)
  | .char c _ => L.pure (L.char c)
  | .string s _ => L.pure (L.string s)
  | .var name l => L.load name l
  | .binary op left right l => by
      rw [Exec.eval]
      refine L.bind (eval henter left) fun a _ => L.bind (eval henter right) fun b _ => ?_
      refine L.ofExcept (Ordinary.apply op a b) fun v hv => ?_
      obtain ⟨n, rfl⟩ := BinaryOp.int_of_apply hv
      exact L.int n
  | .negate operand l => by
      rw [Exec.eval]
      refine L.bind (eval henter operand) fun a _ => ?_
      refine L.ofExcept (Ordinary.negate a) fun v hv => ?_
      obtain ⟨n, rfl⟩ := Value.int_of_negate hv
      exact L.int n
  | .assign name value l => by
      rw [Exec.eval]
      exact L.bind (eval henter value) fun v hv => L.store name l hv
  | .assignElement name index value l => by
      rw [Exec.eval]
      refine L.bind (eval henter index) fun i _ => ?_
      refine L.bind (L.ofExcept (Ordinary.toNumber i _) fun _ _ => trivial) fun n _ => ?_
      exact L.bind (eval henter value) fun v hv => L.assignElement name n l hv
  | .call name args l => by
      rw [Exec.eval]
      refine L.bind (L.findCallee name args.length l) fun callee hcallee => ?_
      exact L.bind (evalAll henter args) fun vs hvs => henter callee vs l hcallee hvs
  | .array elements _ => by
      rw [Exec.eval]
      exact L.bind (evalElements henter elements) fun vs hvs => L.pure (L.array hvs)
  | .element name index l => by
      rw [Exec.eval]
      refine L.bind (eval henter index) fun i _ => ?_
      exact L.bind (L.ofExcept (Ordinary.toNumber i _) fun _ _ => trivial) fun n _ =>
        L.loadElement name n l

theorem evalAll (henter : L.Enters enter) : ∀ es : List Expr,
    L.Holds (evalAll enter es) fun vs => ∀ v ∈ vs, L.Val v
  | [] => L.pure (by simp)
  | e :: es => by
      rw [Exec.evalAll]
      refine L.bind (eval henter e) fun v hv => ?_
      refine L.bind (evalAll henter es) fun vs hvs => ?_
      exact L.pure (List.forall_mem_cons.mpr ⟨hv, hvs⟩)

theorem evalElements (henter : L.Enters enter) : ∀ es : List Expr,
    L.Holds (evalElements enter es) fun vs => ∀ v ∈ vs, L.Val v ∧ v ≠ .void
  | [] => L.pure (by simp)
  | e :: es => by
      rw [Exec.evalElements]
      refine L.bind (eval henter e) fun v hv => ?_
      refine L.bind (L.checkStorable v e.location) fun _ hs => ?_
      refine L.bind (evalElements henter es) fun vs hvs => ?_
      exact L.pure (List.forall_mem_cons.mpr ⟨⟨hv, hs⟩, hvs⟩)

end

theorem evalNumber (henter : L.Enters enter) (e : Expr) :
    L.Holds (evalNumber enter e) fun _ => True :=
  L.bind (L.eval henter e) fun v _ =>
    L.ofExcept (Ordinary.toNumber v _) fun _ _ => trivial

theorem evalCondition (henter : L.Enters enter) (e : Expr) :
    L.Holds (evalCondition enter e) fun _ => True :=
  L.bind (L.eval henter e) fun v _ =>
    L.bind (L.ofExcept (Ordinary.toNumber v _) fun _ _ => trivial) fun _ _ => L.pure trivial

end

end ExprRules

namespace Rules

variable {limits : Limits} (L : Rules limits)

/-- Flows of a statement that only the jumps `J` may leave. -/
def Ends (J : Jump → Bool) : Flow → Prop
  | .done => True
  | .jump j => J j = true
  | .returned v => L.Val v

theorem Ends.mono {J K : Jump → Bool} (h : ∀ j, J j = true → K j = true) {flow : Flow}
    (hf : L.Ends J flow) : L.Ends K flow := by
  cases flow with
  | done => trivial
  | jump j => exact h j hf
  | returned v => exact hf

/-! ## Statements -/

section
variable {enter : Enter}

theorem runVarDeclaration (henter : L.Enters enter) (name type : String) (size : Option Expr)
    (l : Location) : L.Holds (runVarDeclaration limits enter name type size l) fun _ => True := by
  cases size with
  | none => exact L.declareNew name type l
  | some e =>
      refine L.bind (L.evalNumber henter e) fun n _ => ?_
      refine L.bind (L.ofExcept (Ordinary.newArray limits name n) fun v hv => hv) fun v hv => ?_
      obtain ⟨k, hk, rfl⟩ := newArray_le hv
      exact L.declareArray name type l hk

theorem runIntrinsic (henter : L.Enters enter) (name : String) (args : List Expr) (l : Location) :
    L.Holds (runIntrinsic enter name args l) fun _ => True := by
  unfold Exec.runIntrinsic
  split
  · exact L.fault rfl
  · refine L.bind (L.evalAll henter args) fun vs _ => ?_
    split
    · exact L.bind (L.ofExcept (Ordinary.formatted vs) fun _ _ => trivial) fun text _ =>
        L.print text l
    · exact L.fault rfl

end

/-- A loop takes the jumps of its body.  It may need more turns than its fuel allows. -/
theorem loop {test : Exec Bool} {body : Exec Flow} {step : Exec Unit} {J : Jump → Bool}
    (hfuel : L.Holds outOfFuel (L.Ends fun _ => false))
    (htest : L.Holds test fun _ => True) (hbody : L.Holds body (L.Ends J))
    (hstep : L.Holds step fun _ => True) (fuel : Nat) :
    L.Holds (loop test body step fuel) (L.Ends fun _ => false) := by
  induction fuel with
  | zero => exact hfuel
  | succ fuel ih =>
      rw [Exec.loop]
      refine L.bind htest fun holds _ => ?_
      split
      · refine L.bind hbody fun flow hflow => ?_
        -- the flows of the body in the order: done, `continue`, `break`, a returned value
        split
        · exact L.bind hstep fun _ _ => ih
        · exact L.bind hstep fun _ _ => ih
        · exact L.pure trivial
        · exact L.pure hflow
      · exact L.pure trivial

section
variable {enter : Enter}

mutual

/-- The property holds of running a statement whose definitions may be run, if it has no loop
    or the property holds where the fuel is spent. -/
theorem run (henter : L.Enters enter) (fuel : Nat) : ∀ s : Stmt, (∀ d ∈ s.definitions, L.Def d) →
    (s.hasLoop = true → L.Holds outOfFuel (L.Ends fun _ => false)) →
    L.Holds (run limits fuel enter s) (L.Ends fun j => s.escapes j)
  | .declareVar name type size l, _, _ => by
      rw [Exec.run]
      exact L.bind (L.runVarDeclaration henter name type size l) fun _ _ => L.pure trivial
  | .declareFun name result params l, _, _ => by
      rw [Exec.run]
      exact L.bind (L.declareFun name result params l) fun _ _ => L.pure trivial
  | .defineFun name _ params body l, h, _ => by
      rw [Exec.run]
      rw [Stmt.definitions] at h
      exact L.bind (L.defineFun l (h _ (List.mem_cons_self ..))) fun _ _ => L.pure trivial
  | .block body _, h, hloop => by
      rw [Exec.run]
      rw [Stmt.definitions] at h
      exact L.inInnerScope (runAll henter fuel body h hloop)
  | .group body, h, hloop => by
      rw [Exec.run]
      rw [Stmt.definitions] at h
      exact runAll henter fuel body h hloop
  | .ifElse condition yes no _, h, hloop => by
      rw [Exec.run]
      rw [Stmt.definitions] at h
      refine L.bind (L.evalCondition henter condition) fun holds _ => ?_
      have hyesLoop := fun hl : yes.hasLoop = true => hloop (by simp [Stmt.hasLoop, hl])
      have hnoLoop := fun hl : no.hasLoop = true => hloop (by simp [Stmt.hasLoop, hl])
      -- a jump that leaves the branch taken leaves the statement
      have hyes : ∀ d ∈ yes.definitions, L.Def d := fun d hd => h d (List.mem_append_left _ hd)
      have hno : ∀ d ∈ no.definitions, L.Def d := fun d hd => h d (List.mem_append_right _ hd)
      split
      · exact L.mono (run henter fuel yes hyes hyesLoop) fun flow =>
          Ends.mono L fun j hj => by simp [Stmt.escapes, hj]
      · exact L.mono (run henter fuel no hno hnoLoop) fun flow =>
          Ends.mono L fun j hj => by simp [Stmt.escapes, hj]
  | .whileLoop condition body _, h, hloop => by
      rw [Exec.run]
      rw [Stmt.definitions] at h
      have hbody := run henter fuel body h fun _ => hloop rfl
      exact L.loop (hloop rfl) (L.evalCondition henter condition) (L.inInnerScope hbody)
        (L.pure trivial) fuel
  | .forLoop init condition step body _, h, hloop => by
      rw [Exec.run]
      rw [Stmt.definitions] at h
      have hinit := run henter fuel init (fun d hd => h d (List.mem_append_left _ hd))
        fun _ => hloop rfl
      have hbody := run henter fuel body (fun d hd => h d (List.mem_append_right _ hd))
        fun _ => hloop rfl
      -- whatever flow the initializer ends in is dropped, so nothing is asked of it
      refine L.bind hinit fun _ _ => ?_
      exact L.loop (hloop rfl) (L.evalCondition henter condition) (L.inInnerScope hbody)
        (L.bind (L.eval henter step) fun _ _ => L.pure trivial) fuel
  | .breakLoop _, _, _ => L.pure rfl
  | .continueLoop _, _, _ => L.pure rfl
  | .returnValue none _, _, _ => L.pure L.void
  | .returnValue (some e) _, _, _ => by
      rw [Exec.run]
      exact L.bind (L.eval henter e) fun v hv => L.pure hv
  | .intrinsic name args l, _, _ => by
      rw [Exec.run]
      exact L.bind (L.runIntrinsic henter name args l) fun _ _ => L.pure trivial
  | .expression e, _, _ => by
      rw [Exec.run]
      exact L.bind (L.eval henter e) fun _ _ => L.pure trivial

/-- The property holds of running statements whose definitions may be run. -/
theorem runAll (henter : L.Enters enter) (fuel : Nat) : ∀ ss : List Stmt,
    (∀ d ∈ Stmt.definitionsAll ss, L.Def d) →
    (Stmt.hasLoopAny ss = true → L.Holds outOfFuel (L.Ends fun _ => false)) →
    L.Holds (runAll limits fuel enter ss) (L.Ends fun j => Stmt.escapesAny j ss)
  | [], _, _ => L.pure trivial
  | s :: ss, h, hloop => by
      rw [Exec.runAll]
      rw [Stmt.definitionsAll] at h
      have hs : ∀ d ∈ s.definitions, L.Def d := fun d hd => h d (List.mem_append_left _ hd)
      have hss : ∀ d ∈ Stmt.definitionsAll ss, L.Def d :=
        fun d hd => h d (List.mem_append_right _ hd)
      have hsLoop := fun hl : s.hasLoop = true => hloop (by simp [Stmt.hasLoopAny, hl])
      have hssLoop := fun hl : Stmt.hasLoopAny ss = true => hloop (by simp [Stmt.hasLoopAny, hl])
      refine L.bind (run henter fuel s hs hsLoop) fun flow hflow => ?_
      split
      · exact L.mono (runAll henter fuel ss hss hssLoop) fun flow =>
          Ends.mono L fun j hj => by simp [Stmt.escapesAny, hj]
      -- a jump or a returned value passes over the statements that are left
      · exact L.pure (Ends.mono L (fun j hj => by simp [Stmt.escapesAny, hj]) hflow)

end

end

/-! ## Calls and programs -/

theorem passArguments (l : Location) : ∀ (ps : List Param) (vs : List Value),
    (∀ v ∈ vs, L.Val v) → L.Holds (passArguments l ps vs) fun _ => True
  | [], _, _ => L.pure trivial
  | _ :: _, [], _ => L.pure trivial
  | p :: ps, v :: vs, h => by
      rw [Exec.passArguments]
      have hvs := List.forall_mem_cons.mp h
      exact L.bind (L.declareParam p l hvs.1) fun _ _ => passArguments l ps vs hvs.2

theorem callResult {c : Callee} (hc : L.Fn c) {flow : Flow}
    (h : L.Ends (fun j => Stmt.escapesAny j c.body) flow) :
    L.Holds (callResult c.name flow) L.Val := by
  cases flow with
  | done => exact L.pure L.void
  -- the only place where a jump that left a body is met
  | jump j => exact L.escaped hc h
  | returned v => exact L.pure h

/-- The property holds of binding nodes. -/
theorem bindNodes {fuel : Nat} (henter : L.Enters (enter limits fuel)) : ∀ ss : List Stmt,
    (∀ d ∈ Stmt.definitionsAll ss, L.Def d) →
    (Stmt.hasLoopAny ss = true → L.Holds outOfFuel (L.Ends fun _ => false)) →
    L.Holds (bindNodes limits fuel ss) fun _ => True
  | [], _, _ => L.pure trivial
  | s :: ss, h, hloop => by
      rw [Exec.bindNodes]
      rw [Stmt.definitionsAll] at h
      have hs := L.run henter fuel s (fun d hd => h d (List.mem_append_left _ hd))
        fun hl => hloop (by simp [Stmt.hasLoopAny, hl])
      refine L.bind hs fun _ _ => ?_
      exact bindNodes henter ss (fun d hd => h d (List.mem_append_right _ hd))
        fun hl => hloop (by simp [Stmt.hasLoopAny, hl])

/-- The property holds of running a program if it holds of binding its nodes. -/
theorem runProgram {fuel : Nat} (henter : L.Enters (enter limits fuel)) {p : Program}
    (hbind : L.Holds (Exec.bindNodes limits fuel p.nodes) fun _ => True) :
    L.Holds (runProgram limits fuel p) L.Val := by
  rw [Exec.runProgram]
  refine L.bind (L.log rfl) fun _ _ => ?_
  refine L.bind hbind fun _ _ => ?_
  refine L.bind (L.log rfl) fun _ _ => ?_
  refine L.bind (L.eval henter _) fun v hv => ?_
  exact L.bind (L.log rfl) fun _ _ => L.pure hv

end Rules

namespace Logic

variable {limits : Limits} (L : Logic limits)

/-- The property holds of running statements whose definitions may be run. -/
theorem runAll {enter : Enter} (henter : L.Enters enter) (fuel : Nat) (ss : List Stmt)
    (h : ∀ d ∈ Stmt.definitionsAll ss, L.Def d) :
    L.Holds (runAll limits fuel enter ss) (L.Ends fun j => Stmt.escapesAny j ss) :=
  L.toRules.runAll henter fuel ss h fun _ => L.outOfFuel

/-- The property holds of running a statement whose definitions may be run. -/
theorem run {enter : Enter} (henter : L.Enters enter) (fuel : Nat) (s : Stmt)
    (h : ∀ d ∈ s.definitions, L.Def d) :
    L.Holds (run limits fuel enter s) (L.Ends fun j => s.escapes j) :=
  L.toRules.run henter fuel s h fun _ => L.outOfFuel

/-- The property holds of entering a function, with any fuel. -/
theorem enter (fuel : Nat) : L.Enters (enter limits fuel) := by
  -- the body enters other functions with less fuel
  induction fuel with
  | zero => exact fun _ _ _ _ _ => L.outOfFuel
  | succ fuel ih =>
      intro c vs l hc hvs
      rw [Exec.enter]
      refine L.bind (L.checkDepth c.name l) fun _ _ => ?_
      refine L.bind (L.log rfl) fun _ _ => ?_
      refine L.bind (L.inCall ?_) fun flow hflow => L.callResult hc hflow
      exact L.bind (L.passArguments l c.params vs hvs) fun _ _ =>
        L.runAll ih fuel c.body (L.definitions hc)

/-- The property holds of binding nodes whose definitions may be run. -/
theorem bindNodes (fuel : Nat) (ss : List Stmt) (h : ∀ d ∈ Stmt.definitionsAll ss, L.Def d) :
    L.Holds (bindNodes limits fuel ss) fun _ => True :=
  L.toRules.bindNodes (L.enter fuel) ss h fun _ => L.outOfFuel

/-- The property holds of running a program if it holds of binding its nodes. -/
theorem runProgram (fuel : Nat) {p : Program}
    (hbind : L.Holds (Exec.bindNodes limits fuel p.nodes) fun _ => True) :
    L.Holds (runProgram limits fuel p) L.Val :=
  L.toRules.runProgram (L.enter fuel) hbind

end Logic
end Exec
end PocketC
