/-
  PocketC.Proofs.Run.Comparison

  Comparing two runs of trees that are alike.  A comparison says what it means that two
  computations correspond, and it has one rule for each step from which running a program
  is built: the two steps are the same, apart from the places in them and from the limits
  that they look at.  The theorems here derive from these rules that running alike
  programs corresponds, so that a proof about two runs consists of its rules alone.

  Expressions without calls look at variables alone.  For them the rules of variables are
  enough, whatever the two runs know of functions.

  The second run may be given more fuel than the first.  The rule of spent fuel tells
  what that means: if there is no more of it, both have spent it.
-/

import PocketC.Proofs.Names.Alike
import PocketC.Proofs.Tree.Written
import PocketC.Run.Call

namespace PocketC

/-- The same event, at places that `At` relates. -/
inductive Event.Alike (At : Location → Location → Prop) : Event → Event → Prop where
  | refl (e : Event) : Event.Alike At e e
  | called {l l' : Location} (name : String) (arity : Nat) : At l l' →
      Event.Alike At (.called name arity l) (.called name arity l')
  | redeclared {l l' : Location} (name : String) (arity : Nat) : At l l' →
      Event.Alike At (.redeclared name arity l) (.redeclared name arity l')

namespace Exec

/-- Calls `main` and gives what that returns: the part of a run behind the nodes. -/
def callMain (limits : Limits) (fuel : Nat) : Exec Value := do
  log .callingEntry
  let v ← eval (enter limits fuel) (.call entryPoint [] .start)
  log (.entryReturned v)
  return v

theorem runProgram_eq (limits : Limits) (fuel : Nat) (p : Program) :
    runProgram limits fuel p = (do
      log (.binding p.nodes.length)
      bindNodes limits fuel p.nodes
      callMain limits fuel) := rfl

/-! ## Variables -/

/-- What it means that computations under `limits` and under `limits'` correspond, and the rules
    from which it follows where no function is looked at. -/
structure VariableComparison (limits limits' : Limits) where
  /-- which places stand for each other -/
  At : Location → Location → Prop
  /-- `x` and `y` correspond, and `Q` holds of their results if they have some -/
  Holds {α : Type} (x y : Exec α) (Q : α → α → Prop) : Prop
  pure {α : Type} {a b : α} {Q : α → α → Prop} : Q a b → Holds (pure a) (pure b) Q
  bind {α β : Type} {x y : Exec α} {f g : α → Exec β} {Q : α → α → Prop} {R : β → β → Prop} :
    Holds x y Q → (∀ a b, Q a b → Holds (f a) (g b) R) → Holds (x >>= f) (y >>= g) R
  fault {α : Type} {Q : α → α → Prop} {l l' : Location} (cause : FaultCause) : At l l' →
    Holds (fault cause l) (fault cause l') Q
  newArray {l l' : Location} (name : String) (size : Int) : At l l' →
    Holds (ofExcept (newArray limits name size) l) (ofExcept (newArray limits' name size) l') Eq
  variableNamed {l l' : Location} (name : String) : At l l' →
    Holds (variableNamed name l) (variableNamed name l') Eq
  declareVariable {l l' : Location} (name : String) (v : Variable) : At l l' →
    Holds (declareVariable name v l) (declareVariable name v l') Eq
  rebindVariable (name : String) (v : Variable) :
    Holds (rebind (.var name) (.var v)) (rebind (.var name) (.var v)) Eq

namespace VariableComparison

variable {limits limits' : Limits} (V : VariableComparison limits limits')
variable {α β : Type} {l l' : Location}

/-- Two steps whose first parts give the same. -/
theorem bindEq {x y : Exec α} {f g : α → Exec β} {R : β → β → Prop} (hxy : V.Holds x y Eq)
    (h : ∀ a, V.Holds (f a) (g a) R) : V.Holds (x >>= f) (y >>= g) R := by
  refine V.bind hxy ?_
  rintro a _ rfl
  exact h a

theorem ofExcept (r : Except FaultCause α) (hl : V.At l l') :
    V.Holds (ofExcept r l) (ofExcept r l') Eq := by
  cases r with
  | ok a => exact V.pure rfl
  | error cause => exact V.fault cause hl

theorem checkStorable (v : Value) (hl : V.At l l') :
    V.Holds (checkStorable v l) (checkStorable v l') Eq := by
  cases v with
  | void => exact V.fault _ hl
  | _ => exact V.pure rfl

theorem load (name : String) (hl : V.At l l') : V.Holds (load name l) (load name l') Eq := by
  refine V.bindEq (V.variableNamed name hl) fun v => ?_
  split
  · exact V.pure rfl
  · exact V.fault _ hl

theorem loadElement (name : String) (index : Int) (hl : V.At l l') :
    V.Holds (loadElement name index l) (loadElement name index l') Eq := by
  refine V.bindEq (V.variableNamed name hl) fun v => ?_
  refine V.bindEq (V.ofExcept _ hl) fun elements => ?_
  refine V.bindEq (V.ofExcept _ hl) fun i => ?_
  dsimp only
  split
  · exact V.pure rfl
  · exact V.fault _ hl

theorem store (name : String) (new : Value) (hl : V.At l l') :
    V.Holds (store name new l) (store name new l') Eq := by
  refine V.bindEq (V.checkStorable new hl) fun _ => ?_
  refine V.bindEq (V.variableNamed name hl) fun v => ?_
  refine V.bindEq (V.ofExcept _ hl) fun stored => ?_
  exact V.bindEq (V.rebindVariable name _) fun _ => V.pure rfl

theorem assignElement (name : String) (index : Int) (new : Value) (hl : V.At l l') :
    V.Holds (assignElement name index new l) (assignElement name index new l') Eq := by
  refine V.bindEq (V.checkStorable new hl) fun _ => ?_
  refine V.bindEq (V.variableNamed name hl) fun v => ?_
  refine V.bindEq (V.ofExcept _ hl) fun elements => ?_
  refine V.bindEq (V.ofExcept _ hl) fun i => ?_
  exact V.bindEq (V.rebindVariable name _) fun _ => V.pure rfl

/-! ### Expressions -/

/-- What holds of an expression holds of its parts, and calls of which it holds correspond if their
    arguments do. -/
structure Calls (P : Expr → Prop) (enter enter' : Enter) : Prop where
  parts : ∀ e, P e → ∀ a ∈ e.parts, P a
  call : ∀ name args args' l l', P (.call name args l) → Expr.AlikeAll V.At args args' →
    V.At l l' → V.Holds (evalAll enter args) (evalAll enter' args') Eq →
    V.Holds (Exec.eval enter (.call name args l)) (Exec.eval enter' (.call name args' l')) Eq

section
variable {P : Expr → Prop} {enter enter' : Enter}

mutual

/-- Evaluating alike expressions corresponds, if calls do that are among their parts. -/
theorem eval (hcalls : V.Calls P enter enter') : ∀ {e e' : Expr}, e.Alike V.At e' → P e →
    V.Holds (eval enter e) (eval enter' e') Eq
  | .int _ _, _, .int n _, _ => V.pure rfl
  | .char _ _, _, .char c _, _ => V.pure rfl
  | .string _ _, _, .string s _, _ => V.pure rfl
  | .var _ _, _, .var name hl, _ => V.load name hl
  | .binary _ left right _, _, .binary op hleft hright hl, hP => by
      rw [Exec.eval, Exec.eval]
      have hPleft : P left := hcalls.parts _ hP _ (by simp [Expr.parts])
      have hPright : P right := hcalls.parts _ hP _ (by simp [Expr.parts])
      refine V.bindEq (eval hcalls hleft hPleft) fun a => ?_
      exact V.bindEq (eval hcalls hright hPright) fun b => V.ofExcept _ hl
  | .negate operand _, _, .negate hoperand hl, hP => by
      rw [Exec.eval, Exec.eval]
      have hPoperand : P operand := hcalls.parts _ hP _ (by simp [Expr.parts])
      exact V.bindEq (eval hcalls hoperand hPoperand) fun a => V.ofExcept _ hl
  | .assign _ value _, _, .assign name hvalue hl, hP => by
      rw [Exec.eval, Exec.eval]
      have hPvalue : P value := hcalls.parts _ hP _ (by simp [Expr.parts])
      exact V.bindEq (eval hcalls hvalue hPvalue) fun v => V.store name v hl
  | .assignElement _ index value _, _, .assignElement name hindex hvalue hl, hP => by
      rw [Exec.eval, Exec.eval]
      have hPindex : P index := hcalls.parts _ hP _ (by simp [Expr.parts])
      have hPvalue : P value := hcalls.parts _ hP _ (by simp [Expr.parts])
      refine V.bindEq (eval hcalls hindex hPindex) fun i => ?_
      refine V.bindEq (V.ofExcept _ hindex.location) fun n => ?_
      exact V.bindEq (eval hcalls hvalue hPvalue) fun v => V.assignElement name n v hl
  | .call _ _ _, _, .call name hargs hl, hP =>
      hcalls.call name _ _ _ _ hP hargs hl (evalAll hcalls hargs (hcalls.parts _ hP))
  | .array _ _, _, .array helements _, hP => by
      rw [Exec.eval, Exec.eval]
      have hPelements := hcalls.parts _ hP
      exact V.bindEq (evalElements hcalls helements hPelements) fun vs => V.pure rfl
  | .element _ index _, _, .element name hindex hl, hP => by
      rw [Exec.eval, Exec.eval]
      have hPindex : P index := hcalls.parts _ hP _ (by simp [Expr.parts])
      refine V.bindEq (eval hcalls hindex hPindex) fun i => ?_
      exact V.bindEq (V.ofExcept _ hindex.location) fun n => V.loadElement name n hl

theorem evalAll (hcalls : V.Calls P enter enter') : ∀ {es es' : List Expr},
    Expr.AlikeAll V.At es es' → (∀ e ∈ es, P e) →
    V.Holds (evalAll enter es) (evalAll enter' es') Eq
  | [], _, .nil, _ => V.pure rfl
  | _ :: _, _, .cons he hes, hP => by
      rw [Exec.evalAll, Exec.evalAll]
      obtain ⟨hPe, hPes⟩ := List.forall_mem_cons.mp hP
      refine V.bindEq (eval hcalls he hPe) fun v => ?_
      exact V.bindEq (evalAll hcalls hes hPes) fun vs => V.pure rfl

theorem evalElements (hcalls : V.Calls P enter enter') : ∀ {es es' : List Expr},
    Expr.AlikeAll V.At es es' → (∀ e ∈ es, P e) →
    V.Holds (evalElements enter es) (evalElements enter' es') Eq
  | [], _, .nil, _ => V.pure rfl
  | _ :: _, _, .cons he hes, hP => by
      rw [Exec.evalElements, Exec.evalElements]
      obtain ⟨hPe, hPes⟩ := List.forall_mem_cons.mp hP
      refine V.bindEq (eval hcalls he hPe) fun v => ?_
      refine V.bindEq (V.checkStorable v he.location) fun _ => ?_
      exact V.bindEq (evalElements hcalls hes hPes) fun vs => V.pure rfl

end

variable (hcalls : V.Calls P enter enter')
include hcalls

theorem evalNumber {e e' : Expr} (he : e.Alike V.At e') (hP : P e) :
    V.Holds (evalNumber enter e) (evalNumber enter' e') Eq :=
  V.bindEq (V.eval hcalls he hP) fun _ => V.ofExcept _ he.location

theorem runVarDeclaration (name type : String) {size size' : Option Expr}
    (hsize : Option.Rel (Expr.Alike V.At) size size') (hP : ∀ e ∈ size, P e) (hl : V.At l l') :
    V.Holds (runVarDeclaration limits enter name type size l)
      (runVarDeclaration limits' enter' name type size' l') Eq := by
  cases hsize with
  | none => exact V.declareVariable name (.new type) hl
  | some he =>
      refine V.bindEq (V.evalNumber hcalls he (hP _ rfl)) fun n => ?_
      exact V.bindEq (V.newArray name n hl) fun v => V.declareVariable name _ hl

end

end VariableComparison

/-! ## All steps -/

/-- What it means that a run under `limits` and a run under `limits'` with `more` fuel
    correspond, and the rules from which it follows for all runs. -/
structure Comparison (limits limits' : Limits) (more : Nat) where
  /-- which places stand for each other -/
  At : Location → Location → Prop
  start : At .start .start
  /-- which functions stand for each other -/
  functions : Function.Correspondence At
  /-- `x` and `y` correspond, and `Q` holds of their results if they have some -/
  Holds {α : Type} (x y : Exec α) (Q : α → α → Prop) : Prop
  pure {α : Type} {a b : α} {Q : α → α → Prop} : Q a b → Holds (pure a) (pure b) Q
  bind {α β : Type} {x y : Exec α} {f g : α → Exec β} {Q : α → α → Prop} {R : β → β → Prop} :
    Holds x y Q → (∀ a b, Q a b → Holds (f a) (g b) R) → Holds (x >>= f) (y >>= g) R
  -- stopping
  fault {α : Type} {Q : α → α → Prop} {l l' : Location} (cause : FaultCause) : At l l' →
    Holds (fault cause l) (fault cause l') Q
  defect {α : Type} {Q : α → α → Prop} (d : Defect) : Holds (defect d) (defect d) Q
  outOfFuel {α : Type} {Q : α → α → Prop} {y : Exec α} : (more = 0 → y = outOfFuel) →
    Holds outOfFuel y Q
  -- limits
  newArray {l l' : Location} (name : String) (size : Int) : At l l' →
    Holds (ofExcept (newArray limits name size) l) (ofExcept (newArray limits' name size) l') Eq
  checkDepth {l l' : Location} (name : String) : At l l' →
    Holds (checkDepth limits name l) (checkDepth limits' name l') Eq
  -- names
  resolve (y : Symbol) : Holds (resolve y) (resolve y) (Option.Rel (Binding.Alike functions.Fn))
  declare {b b' : Binding} (y : Symbol) : b.Alike functions.Fn b' →
    Holds (declare y b) (declare y b') Eq
  rebind {b b' : Binding} (y : Symbol) : b.Alike functions.Fn b' →
    Holds (rebind y b) (rebind y b') Eq
  -- scopes, calls and output
  inInnerScope {α : Type} {x y : Exec α} {Q : α → α → Prop} : Holds x y Q →
    Holds (inInnerScope x) (inInnerScope y) Q
  inCall {α : Type} {x y : Exec α} {Q : α → α → Prop} : Holds x y Q →
    Holds (inCall (inNewScope ScopeTree.global x)) (inCall (inNewScope ScopeTree.global y)) Q
  log {e e' : Event} : e.Alike At e' → Holds (log e) (log e') Eq
  print {l l' : Location} (text : String) : At l l' → Holds (print text l) (print text l') Eq

namespace Comparison

variable {limits limits' : Limits} {more : Nat} (C : Comparison limits limits' more)
variable {α β : Type} {l l' : Location}

/-- Two steps whose first parts give the same. -/
theorem bindEq {x y : Exec α} {f g : α → Exec β} {R : β → β → Prop} (hxy : C.Holds x y Eq)
    (h : ∀ a, C.Holds (f a) (g a) R) : C.Holds (x >>= f) (y >>= g) R := by
  refine C.bind hxy ?_
  rintro a _ rfl
  exact h a

/-- The rules of variables. -/
def onVariables : VariableComparison limits limits' where
  At := C.At
  Holds := C.Holds
  pure := C.pure
  bind := C.bind
  fault := C.fault
  newArray := C.newArray
  variableNamed name hl := by
    refine C.bind (C.resolve (.var name)) fun r r' hr => ?_
    cases hr with
    | none => exact C.fault _ hl
    | some hb =>
        cases hb with
        | var v => exact C.pure rfl
        | fn => exact C.fault _ hl
  declareVariable name v hl := by
    refine C.bindEq (C.declare (.var name) (.var v)) fun free => ?_
    cases free with
    | true => exact C.pure rfl
    | false => exact C.fault _ hl
  rebindVariable name v := C.rebind (.var name) (.var v)

/-! ## Functions -/

theorem findCallee (name : String) (arity : Nat) (hl : C.At l l') :
    C.Holds (findCallee name arity l) (findCallee name arity l') (Callee.Alike C.At) := by
  refine C.bind (C.resolve (.fn name arity)) fun r r' hr => ?_
  cases hr with
  | none => exact C.fault _ hl
  | some hb =>
      cases hb with
      | var v => exact C.fault _ hl
      | @fn f f' hf =>
          have hserves := C.functions.serves hf
          unfold Function.Serves at hserves
          dsimp only
          match f.body, f'.body, hserves with
          | _, _, .none => exact C.fault _ hl
          | _, _, .some hbody => exact C.pure ⟨rfl, hbody.1, hbody.2⟩

theorem runFunDeclaration (name result : String) (params : List Param) (hl : C.At l l') :
    C.Holds (runFunDeclaration name result params l) (runFunDeclaration name result params l')
      Eq := by
  have hdeclared := C.functions.declared result params
  refine C.bindEq (C.declare (.fn name params.length) (.fn hdeclared)) fun free => ?_
  cases free with
  | true => exact C.pure rfl
  | false => exact C.log (.redeclared name params.length hl)

theorem runFunDefinition (name : String) (params : List Param) {body body' : List Stmt}
    (hbody : Stmt.AlikeAll C.At body body') (hl : C.At l l') :
    C.Holds (runFunDefinition name params body l) (runFunDefinition name params body' l') Eq := by
  refine C.bind (C.resolve (.fn name params.length)) fun r r' hr => ?_
  cases hr with
  | none => exact C.fault _ hl
  | some hb =>
      cases hb with
      | var v => exact C.fault _ hl
      | @fn f f' hf =>
          have hdefine := C.functions.define params hf hbody
          dsimp only
          match f.define params body, f'.define params body', hdefine with
          | _, _, .none => exact C.fault _ hl
          | _, _, .some hg => exact C.rebind _ (.fn hg)

/-! ## Expressions -/

/-- The two ways of entering functions correspond. -/
def Enters (enter enter' : Enter) : Prop :=
  ∀ c c' vs l l', c.Alike C.At c' → C.At l l' → C.Holds (enter c vs l) (enter' c' vs l') Eq

section
variable {enter enter' : Enter} (henter : C.Enters enter enter') {e e' : Expr}
include henter

theorem calls : C.onVariables.Calls (fun _ => True) enter enter' where
  parts _ _ _ _ := trivial
  call name args args' l l' _ hargs hl hvalues := by
    rw [Exec.eval, Exec.eval, hargs.length]
    -- the function is found before the arguments are evaluated
    refine C.bind (C.findCallee name _ hl) fun c c' hc => ?_
    exact C.bindEq hvalues fun vs => henter c c' vs l l' hc hl

/-- Evaluating alike expressions corresponds. -/
theorem eval (he : e.Alike C.At e') : C.Holds (eval enter e) (eval enter' e') Eq :=
  C.onVariables.eval (C.calls henter) he trivial

theorem evalAll {es es' : List Expr} (hes : Expr.AlikeAll C.At es es') :
    C.Holds (evalAll enter es) (evalAll enter' es') Eq :=
  C.onVariables.evalAll (C.calls henter) hes fun _ _ => trivial

theorem evalCondition (he : e.Alike C.At e') :
    C.Holds (evalCondition enter e) (evalCondition enter' e') Eq := by
  refine C.bindEq (C.eval henter he) fun _ => ?_
  exact C.bindEq (C.onVariables.ofExcept _ he.location) fun _ => C.pure rfl

/-! ## Statements -/

theorem runVarDeclaration (name type : String) {size size' : Option Expr}
    (hsize : Option.Rel (Expr.Alike C.At) size size') (hl : C.At l l') :
    C.Holds (runVarDeclaration limits enter name type size l)
      (runVarDeclaration limits' enter' name type size' l') Eq :=
  C.onVariables.runVarDeclaration (C.calls henter) name type hsize (fun _ _ => trivial) hl

theorem runIntrinsic (name : String) {args args' : List Expr}
    (hargs : Expr.AlikeAll C.At args args') (hl : C.At l l') :
    C.Holds (runIntrinsic enter name args l) (runIntrinsic enter' name args' l') Eq := by
  unfold Exec.runIntrinsic
  rw [hargs.isEmpty, hargs.length]
  split
  · exact C.fault _ hl
  · refine C.bindEq (C.evalAll henter hargs) fun vs => ?_
    split
    · exact C.bindEq (C.onVariables.ofExcept _ hl) fun text => C.print text hl
    · exact C.fault _ hl

end

/-- Loops of corresponding parts correspond, also if the second may make more turns. -/
theorem loop {test test' : Exec Bool} {body body' : Exec Flow} {step step' : Exec Unit}
    (htest : C.Holds test test' Eq) (hbody : C.Holds body body' Eq)
    (hstep : C.Holds step step' Eq) (fuel : Nat) :
    C.Holds (loop test body step fuel) (loop test' body' step' (fuel + more)) Eq := by
  induction fuel with
  | zero =>
      -- without more fuel the second loop makes no turn either
      refine C.outOfFuel ?_
      rintro rfl
      rfl
  | succ fuel ih =>
      rw [Nat.succ_add, Exec.loop, Exec.loop]
      refine C.bindEq htest fun holds => ?_
      cases holds with
      | false => exact C.pure rfl
      | true =>
          refine C.bindEq hbody fun flow => ?_
          -- a body that is done or ends in `continue` is followed by the step
          cases flow with
          | done => exact C.bindEq hstep fun _ => ih
          | jump j =>
              cases j with
              | leave => exact C.pure rfl
              | next => exact C.bindEq hstep fun _ => ih
          | returned v => exact C.pure rfl

section
variable {enter enter' : Enter}

mutual

/-- Running alike statements corresponds. -/
theorem run (henter : C.Enters enter enter') (fuel : Nat) : ∀ {s s' : Stmt}, s.Alike C.At s' →
    C.Holds (run limits fuel enter s) (run limits' (fuel + more) enter' s') Eq
  | .declareVar _ _ _ _, _, .declareVar name type hsize hl => by
      rw [Exec.run, Exec.run]
      exact C.bindEq (C.runVarDeclaration henter name type hsize hl) fun _ => C.pure rfl
  | .declareFun _ _ _ _, _, .declareFun name result params hl => by
      rw [Exec.run, Exec.run]
      exact C.bindEq (C.runFunDeclaration name result params hl) fun _ => C.pure rfl
  | .defineFun _ _ _ _ _, _, .defineFun name _ params hbody hl => by
      rw [Exec.run, Exec.run]
      exact C.bindEq (C.runFunDefinition name params hbody hl) fun _ => C.pure rfl
  | .block _ _, _, .block hbody _ => by
      rw [Exec.run, Exec.run]
      exact C.inInnerScope (runAll henter fuel hbody)
  | .group _, _, .group hbody => by
      rw [Exec.run, Exec.run]
      exact runAll henter fuel hbody
  | .ifElse _ _ _ _, _, .ifElse hcondition hyes hno _ => by
      rw [Exec.run, Exec.run]
      refine C.bindEq (C.evalCondition henter hcondition) fun holds => ?_
      cases holds with
      | true => exact run henter fuel hyes
      | false => exact run henter fuel hno
  | .whileLoop _ _ _, _, .whileLoop hcondition hbody _ => by
      rw [Exec.run, Exec.run]
      exact C.loop (C.evalCondition henter hcondition) (C.inInnerScope (run henter fuel hbody))
        (C.pure rfl) fuel
  | .forLoop _ _ _ _ _, _, .forLoop hinit hcondition hstep hbody _ => by
      rw [Exec.run, Exec.run]
      refine C.bindEq (run henter fuel hinit) fun _ => ?_
      exact C.loop (C.evalCondition henter hcondition) (C.inInnerScope (run henter fuel hbody))
        (C.bindEq (C.eval henter hstep) fun _ => C.pure rfl) fuel
  | .breakLoop _, _, .breakLoop _ => C.pure rfl
  | .continueLoop _, _, .continueLoop _ => C.pure rfl
  | .returnValue none _, _, .returnValue .none _ => C.pure rfl
  | .returnValue (some _) _, _, .returnValue (.some he) _ => by
      rw [Exec.run, Exec.run]
      exact C.bindEq (C.eval henter he) fun v => C.pure rfl
  | .intrinsic _ _ _, _, .intrinsic name hargs hl => by
      rw [Exec.run, Exec.run]
      exact C.bindEq (C.runIntrinsic henter name hargs hl) fun _ => C.pure rfl
  | .expression _, _, .expression he => by
      rw [Exec.run, Exec.run]
      exact C.bindEq (C.eval henter he) fun _ => C.pure rfl

theorem runAll (henter : C.Enters enter enter') (fuel : Nat) : ∀ {ss ss' : List Stmt},
    Stmt.AlikeAll C.At ss ss' →
    C.Holds (runAll limits fuel enter ss) (runAll limits' (fuel + more) enter' ss') Eq
  | [], _, .nil => C.pure rfl
  | _ :: _, _, .cons hs hss => by
      rw [Exec.runAll, Exec.runAll]
      refine C.bindEq (run henter fuel hs) fun flow => ?_
      cases flow with
      | done => exact runAll henter fuel hss
      | jump j => exact C.pure rfl
      | returned v => exact C.pure rfl

end

end

/-! ## Calls and programs -/

theorem passArguments (hl : C.At l l') : ∀ (ps : List Param) (vs : List Value),
    C.Holds (passArguments l ps vs) (passArguments l' ps vs) Eq
  | [], _ => C.pure rfl
  | _ :: _, [] => C.pure rfl
  | p :: ps, v :: vs => by
      rw [Exec.passArguments, Exec.passArguments]
      exact C.bindEq (C.onVariables.declareVariable p.name _ hl) fun _ => passArguments hl ps vs

theorem callResult (name : String) (flow : Flow) :
    C.Holds (callResult name flow) (callResult name flow) Eq := by
  cases flow with
  | done => exact C.pure rfl
  | jump j => exact C.defect _
  | returned v => exact C.pure rfl

/-- Entering alike functions corresponds, also if the second run may nest calls deeper. -/
theorem enter (fuel : Nat) : C.Enters (enter limits fuel) (enter limits' (fuel + more)) := by
  induction fuel with
  | zero =>
      intro c c' vs l l' _ _
      refine C.outOfFuel ?_
      rintro rfl
      rfl
  | succ fuel ih =>
      intro c c' vs l l' hc hl
      rw [Nat.succ_add, Exec.enter, Exec.enter]
      dsimp only
      -- the calls in both bodies have one unit of fuel less
      rw [← hc.name, ← hc.params]
      refine C.bindEq (C.checkDepth c.name hl) fun _ => ?_
      refine C.bindEq (C.log (.called c.name vs.length hl)) fun _ => ?_
      have hbody := C.bindEq (C.passArguments hl c.params vs) fun _ => C.runAll ih fuel hc.body
      exact C.bindEq (C.inCall hbody) fun flow => C.callResult c.name flow

theorem bindNodes (fuel : Nat) : ∀ {ss ss' : List Stmt}, Stmt.AlikeAll C.At ss ss' →
    C.Holds (bindNodes limits fuel ss) (bindNodes limits' (fuel + more) ss') Eq
  | [], _, .nil => C.pure rfl
  | _ :: _, _, .cons hs hss => by
      rw [Exec.bindNodes, Exec.bindNodes]
      exact C.bindEq (C.run (C.enter fuel) fuel hs) fun _ => bindNodes fuel hss

/-- Calling `main` corresponds. -/
theorem callMain (fuel : Nat) :
    C.Holds (callMain limits fuel) (callMain limits' (fuel + more)) Eq := by
  refine C.bindEq (C.log (.refl _)) fun _ => ?_
  refine C.bindEq (C.eval (C.enter fuel) (.call entryPoint .nil C.start)) fun v => ?_
  exact C.bindEq (C.log (.refl _)) fun _ => C.pure rfl

/-- Running alike programs corresponds. -/
theorem runProgram (fuel : Nat) {p p' : Program} (hp : Stmt.AlikeAll C.At p.nodes p'.nodes) :
    C.Holds (runProgram limits fuel p) (runProgram limits' (fuel + more) p') Eq := by
  rw [runProgram_eq, runProgram_eq, hp.length]
  refine C.bindEq (C.log (.refl _)) fun _ => ?_
  exact C.bindEq (C.bindNodes fuel hp) fun _ => C.callMain fuel

end Comparison
end Exec
end PocketC
