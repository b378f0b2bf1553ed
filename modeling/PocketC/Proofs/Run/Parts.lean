/-
  PocketC.Proofs.Run.Parts

  The parts of a run.  Evaluating an expression is a part of a run, and so are running a
  statement, entering a function and each change of what a symbol is bound to.  A part
  begins others one after another, each on the machine that the one before it left, and
  a part that stops begins no more of them.

  The machines on which the parts of a run begin and end are the moments of the run.  What
  a run does between two neighbouring ones is opening or closing a scope, counting a
  call, or recording and printing a text.
-/

import Mathlib.Logic.Relation
import PocketC.Proofs.Run.Steps

namespace PocketC

/-! ## Tasks -/

/-- What a part of a run does. -/
inductive Task where
  | eval (e : Expr)
  | evalAll (es : List Expr)
  | evalElements (es : List Expr)
  | store (name : String) (new : Value) (l : Location)
  | assignElement (name : String) (index : Int) (new : Value) (l : Location)
  | enter (callee : Callee) (args : List Value) (l : Location)
  | pass (params : List Param) (args : List Value) (l : Location)
  | declareVar (name : String) (v : Variable) (l : Location)
  | declareFun (name result : String) (params : List Param) (l : Location)
  | defineFun (name : String) (params : List Param) (body : List Stmt) (l : Location)
  | run (s : Stmt)
  | runAll (ss : List Stmt)
  /-- as many turns of a loop, whose step may be missing -/
  | loop (condition : Expr) (body : Stmt) (step : Option Expr) (turns : Nat)
  | bindNodes (ss : List Stmt)
  | program (p : Program)

/-- A part of a run: what it does, with which fuel, and on which machine it begins. -/
structure Part where
  fuel : Nat
  task : Task
  start : Machine

namespace Exec

/-- Runs the step of a loop, if it has one. -/
def runStep (enter : Enter) : Option Expr → Exec Unit
  | none => pure ()
  | some e => do
    let _ ← eval enter e
    return ()

end Exec

open Exec

/-- The machine that a part leaves, whether it gives a result or stops. -/
def Part.finish (limits : Limits) (p : Part) : Machine :=
  let enter := Exec.enter limits p.fuel
  match p.task with
  | .eval e => final (eval enter e p.start)
  | .evalAll es => final (evalAll enter es p.start)
  | .evalElements es => final (evalElements enter es p.start)
  | .store name new l => final (store name new l p.start)
  | .assignElement name index new l => final (assignElement name index new l p.start)
  | .enter callee args l => final (enter callee args l p.start)
  | .pass params args l => final (passArguments l params args p.start)
  | .declareVar name v l => final (declareVariable name v l p.start)
  | .declareFun name result params l => final (runFunDeclaration name result params l p.start)
  | .defineFun name params body l => final (runFunDefinition name params body l p.start)
  | .run s => final (run limits p.fuel enter s p.start)
  | .runAll ss => final (runAll limits p.fuel enter ss p.start)
  | .loop condition body step turns =>
    final (loop (evalCondition enter condition) (inInnerScope (run limits p.fuel enter body))
      (runStep enter step) turns p.start)
  | .bindNodes ss => final (bindNodes limits p.fuel ss p.start)
  | .program program => final (runProgram limits p.fuel program p.start)

namespace Machine

/-- The machine on which a call opens its scope. -/
def called (m : Machine) (callee : Callee) (args : List Value) (l : Location) : Machine :=
  { m.log (.called callee.name args.length l) with activeCalls := m.activeCalls + 1 }

/-- The machine on which a call passes its arguments, in the scope that it opened. -/
def entered (m : Machine) (callee : Callee) (args : List Value) (l : Location) : Machine :=
  (m.called callee args l).opened ScopeTree.global

theorem WellFormed.called {m : Machine} (hm : m.WellFormed) (callee : Callee) (args : List Value)
    (l : Location) : (m.called callee args l).WellFormed :=
  ⟨hm.current_live, hm.nested⟩

theorem WellFormed.entered {m : Machine} (hm : m.WellFormed) (callee : Callee)
    (args : List Value) (l : Location) : (m.entered callee args l).WellFormed :=
  (hm.called callee args l).opened hm.global_live

end Machine

namespace Part

section
variable (limits : Limits)

/-- The part `p` begins the part `r` by itself. -/
inductive Begins : Part → Part → Prop where
  -- expressions
  | binaryLeft {fuel op a b l m} :
      Begins ⟨fuel, .eval (.binary op a b l), m⟩ ⟨fuel, .eval a, m⟩
  | binaryRight {fuel op a b l m v q} : eval (Exec.enter limits fuel) a m = .ok v q →
      Begins ⟨fuel, .eval (.binary op a b l), m⟩ ⟨fuel, .eval b, q⟩
  | negated {fuel a l m} : Begins ⟨fuel, .eval (.negate a l), m⟩ ⟨fuel, .eval a, m⟩
  | assigned {fuel name e l m} : Begins ⟨fuel, .eval (.assign name e l), m⟩ ⟨fuel, .eval e, m⟩
  | store {fuel name e l m v q} : eval (Exec.enter limits fuel) e m = .ok v q →
      Begins ⟨fuel, .eval (.assign name e l), m⟩ ⟨fuel, .store name v l, q⟩
  | elementIndex {fuel name index e l m} :
      Begins ⟨fuel, .eval (.assignElement name index e l), m⟩ ⟨fuel, .eval index, m⟩
  | elementAssigned {fuel name index e l m i n q} :
      eval (Exec.enter limits fuel) index m = .ok i q → i.toNumber .number = .ok n →
      Begins ⟨fuel, .eval (.assignElement name index e l), m⟩ ⟨fuel, .eval e, q⟩
  | elementStore {fuel name index e l m i n q v r} :
      eval (Exec.enter limits fuel) index m = .ok i q → i.toNumber .number = .ok n →
      eval (Exec.enter limits fuel) e q = .ok v r →
      Begins ⟨fuel, .eval (.assignElement name index e l), m⟩
        ⟨fuel, .assignElement name n v l, r⟩
  | arguments {fuel name args l m callee q} :
      findCallee name args.length l m = .ok callee q →
      Begins ⟨fuel, .eval (.call name args l), m⟩ ⟨fuel, .evalAll args, q⟩
  | call {fuel name args l m callee q vs r} :
      findCallee name args.length l m = .ok callee q →
      evalAll (Exec.enter limits fuel) args q = .ok vs r →
      Begins ⟨fuel, .eval (.call name args l), m⟩ ⟨fuel, .enter callee vs l, r⟩
  | elements {fuel es l m} : Begins ⟨fuel, .eval (.array es l), m⟩ ⟨fuel, .evalElements es, m⟩
  | readIndex {fuel name index l m} :
      Begins ⟨fuel, .eval (.element name index l), m⟩ ⟨fuel, .eval index, m⟩
  | argument {fuel e es m} : Begins ⟨fuel, .evalAll (e :: es), m⟩ ⟨fuel, .eval e, m⟩
  | otherArguments {fuel e es m v q} : eval (Exec.enter limits fuel) e m = .ok v q →
      Begins ⟨fuel, .evalAll (e :: es), m⟩ ⟨fuel, .evalAll es, q⟩
  | element {fuel e es m} : Begins ⟨fuel, .evalElements (e :: es), m⟩ ⟨fuel, .eval e, m⟩
  | otherElements {fuel e es m v q} : eval (Exec.enter limits fuel) e m = .ok v q →
      v ≠ .void → Begins ⟨fuel, .evalElements (e :: es), m⟩ ⟨fuel, .evalElements es, q⟩
  -- calls
  | passing {fuel callee args l m} : m.activeCalls < limits.calls →
      Begins ⟨fuel + 1, .enter callee args l, m⟩
        ⟨fuel, .pass callee.params args l, m.entered callee args l⟩
  | callBody {fuel callee args l m q} : m.activeCalls < limits.calls →
      passArguments l callee.params args (m.entered callee args l) = .ok () q →
      Begins ⟨fuel + 1, .enter callee args l, m⟩ ⟨fuel, .runAll callee.body, q⟩
  | parameter {fuel p ps v vs l m} :
      Begins ⟨fuel, .pass (p :: ps) (v :: vs) l, m⟩ ⟨fuel, .declareVar p.name ⟨p.type, v⟩ l, m⟩
  | otherParameters {fuel p ps v vs l m q} :
      declareVariable p.name ⟨p.type, v⟩ l m = .ok () q →
      Begins ⟨fuel, .pass (p :: ps) (v :: vs) l, m⟩ ⟨fuel, .pass ps vs l, q⟩
  -- declarations
  | newVariable {fuel name type l m} : Begins ⟨fuel, .run (.declareVar name type none l), m⟩
      ⟨fuel, .declareVar name (.new type) l, m⟩
  | arraySize {fuel name type e l m} :
      Begins ⟨fuel, .run (.declareVar name type (some e) l), m⟩ ⟨fuel, .eval e, m⟩
  | newArray {fuel name type e l m n q v} : evalNumber (Exec.enter limits fuel) e m = .ok n q →
      Exec.newArray limits name n = .ok v →
      Begins ⟨fuel, .run (.declareVar name type (some e) l), m⟩
        ⟨fuel, .declareVar name ⟨type, v⟩ l, q⟩
  | declaration {fuel name result ps l m} :
      Begins ⟨fuel, .run (.declareFun name result ps l), m⟩ ⟨fuel, .declareFun name result ps l, m⟩
  | definition {fuel name result ps body l m} :
      Begins ⟨fuel, .run (.defineFun name result ps body l), m⟩
        ⟨fuel, .defineFun name ps body l, m⟩
  -- statements
  | block {fuel ss l m} :
      Begins ⟨fuel, .run (.block ss l), m⟩ ⟨fuel, .runAll ss, m.opened m.current⟩
  | group {fuel ss m} : Begins ⟨fuel, .run (.group ss), m⟩ ⟨fuel, .runAll ss, m⟩
  | condition {fuel e yes no l m} :
      Begins ⟨fuel, .run (.ifElse e yes no l), m⟩ ⟨fuel, .eval e, m⟩
  | yes {fuel e yes no l m q} : evalCondition (Exec.enter limits fuel) e m = .ok true q →
      Begins ⟨fuel, .run (.ifElse e yes no l), m⟩ ⟨fuel, .run yes, q⟩
  | no {fuel e yes no l m q} : evalCondition (Exec.enter limits fuel) e m = .ok false q →
      Begins ⟨fuel, .run (.ifElse e yes no l), m⟩ ⟨fuel, .run no, q⟩
  | whileLoop {fuel e body l m} : Begins ⟨fuel, .run (.whileLoop e body l), m⟩
      ⟨fuel, .loop e body none fuel, m⟩
  | initializer {fuel init e step body l m} :
      Begins ⟨fuel, .run (.forLoop init e step body l), m⟩ ⟨fuel, .run init, m⟩
  | forLoop {fuel init e step body l m flow q} :
      run limits fuel (Exec.enter limits fuel) init m = .ok flow q →
      Begins ⟨fuel, .run (.forLoop init e step body l), m⟩ ⟨fuel, .loop e body (some step) fuel, q⟩
  | returned {fuel e l m} : Begins ⟨fuel, .run (.returnValue (some e) l), m⟩ ⟨fuel, .eval e, m⟩
  | intrinsicArguments {fuel name args l m} : args.isEmpty = false →
      Begins ⟨fuel, .run (.intrinsic name args l), m⟩ ⟨fuel, .evalAll args, m⟩
  | expression {fuel e m} : Begins ⟨fuel, .run (.expression e), m⟩ ⟨fuel, .eval e, m⟩
  | statement {fuel s ss m} : Begins ⟨fuel, .runAll (s :: ss), m⟩ ⟨fuel, .run s, m⟩
  | otherStatements {fuel s ss m q} :
      run limits fuel (Exec.enter limits fuel) s m = .ok .done q →
      Begins ⟨fuel, .runAll (s :: ss), m⟩ ⟨fuel, .runAll ss, q⟩
  -- loops
  | test {fuel e body step turns m} :
      Begins ⟨fuel, .loop e body step (turns + 1), m⟩ ⟨fuel, .eval e, m⟩
  | turn {fuel e body step turns m q} : evalCondition (Exec.enter limits fuel) e m = .ok true q →
      Begins ⟨fuel, .loop e body step (turns + 1), m⟩ ⟨fuel, .run body, q.opened q.current⟩
  | step {fuel e body step turns m q flow r} :
      evalCondition (Exec.enter limits fuel) e m = .ok true q →
      inInnerScope (run limits fuel (Exec.enter limits fuel) body) q = .ok flow r →
      flow = .done ∨ flow = .jump .next →
      Begins ⟨fuel, .loop e body (some step) (turns + 1), m⟩ ⟨fuel, .eval step, r⟩
  | otherTurns {fuel e body step turns m q flow r s} :
      evalCondition (Exec.enter limits fuel) e m = .ok true q →
      inInnerScope (run limits fuel (Exec.enter limits fuel) body) q = .ok flow r →
      flow = .done ∨ flow = .jump .next → runStep (Exec.enter limits fuel) step r = .ok () s →
      Begins ⟨fuel, .loop e body step (turns + 1), m⟩ ⟨fuel, .loop e body step turns, s⟩
  -- programs
  | node {fuel s ss m} : Begins ⟨fuel, .bindNodes (s :: ss), m⟩ ⟨fuel, .run s, m⟩
  | otherNodes {fuel s ss m flow q} :
      run limits fuel (Exec.enter limits fuel) s m = .ok flow q →
      Begins ⟨fuel, .bindNodes (s :: ss), m⟩ ⟨fuel, .bindNodes ss, q⟩
  | nodes {fuel p m} : Begins ⟨fuel, .program p, m⟩
      ⟨fuel, .bindNodes p.nodes, m.log (.binding p.nodes.length)⟩
  | main {fuel p m q} :
      bindNodes limits fuel p.nodes (m.log (.binding p.nodes.length)) = .ok () q →
      Begins ⟨fuel, .program p, m⟩ ⟨fuel, .eval (.call entryPoint [] .start), q.log .callingEntry⟩

/-- The part `r` is `p` or begun by a part that is within `p`. -/
def Within : Part → Part → Prop := Relation.ReflTransGen (Begins limits)

/-- A machine on which a part within `p` begins or ends. -/
def Moment (p : Part) (m : Machine) : Prop :=
  ∃ r, Within limits p r ∧ (m = r.start ∨ m = r.finish limits)

end

/-- A run of a program on a machine with nothing bound. -/
def ofProgram (fuel : Nat) (p : Program) (m : Machine) : Part := ⟨fuel, .program p, m.reset⟩

variable {limits : Limits} {p r : Part}

theorem Within.refl (p : Part) : Within limits p p := Relation.ReflTransGen.refl

theorem Within.begins {s : Part} (h : Within limits p r) (hb : Begins limits r s) :
    Within limits p s :=
  h.tail hb

end Part
end PocketC
