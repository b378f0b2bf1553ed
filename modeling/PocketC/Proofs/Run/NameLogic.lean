/-
  PocketC.Proofs.Run.NameLogic

  Logics for properties that ask nothing of values.  Reading and changing variables
  and looking up, declaring and defining functions are built from three steps:
  resolving a symbol, declaring it and binding it anew.  A property that has rules
  for these three, with a statement about what symbols are bound to, has the rules
  of a whole logic; without the rule for declaring it still has those for expressions.
-/

import PocketC.Proofs.Run.Logic

namespace PocketC
namespace Exec

/-- The rules for a property, of evaluating expressions, that asks nothing of values. -/
structure NameExprRules extends Lifting where
  /-- what is known of what a symbol is bound to -/
  Bound : Symbol → Binding → Prop
  /-- what is known of every function that a call enters -/
  Fn : Callee → Prop
  bound_var (name : String) (v : Variable) : Bound (.var name) (.var v)
  fn_of_bound {name : String} {arity : Nat} {f : Function} {body : List Stmt} :
    Bound (.fn name arity) (.fn f) → f.body = some body → Fn ⟨name, f.params, body⟩
  resolve (y : Symbol) : Holds (resolve y) fun r => ∀ b, r = some b → Bound y b
  rebind {y : Symbol} {b : Binding} : Bound y b → Holds (rebind y b) fun _ => True

/-- The rules for a property, of what is run inside of one function, that asks nothing of
    values. -/
structure NameRules (limits : Limits) extends NameExprRules where
  /-- which definitions may be run -/
  Def : Callee → Prop
  -- names
  bound_declared (name result : String) (params : List Param) :
    Bound (.fn name params.length) (.fn (.declared result params))
  bound_define {c : Callee} {f g : Function} : Def c →
    Bound (.fn c.name c.params.length) (.fn f) → f.define c.params c.body = some g →
    Bound (.fn c.name c.params.length) (.fn g)
  declare {y : Symbol} {b : Binding} : Bound y b → Holds (declare y b) fun _ => True
  -- definitions
  definitions {c : Callee} : Fn c → ∀ d ∈ Stmt.definitionsAll c.body, Def d
  missingDeclaration {c : Callee} {l : Location} {Q : Unit → Prop} : Def c →
    Holds (Exec.fault (.missingDeclaration c.name c.params.length) l) Q
  secondBody {c : Callee} {l : Location} {Q : Unit → Prop} : Def c →
    Holds (Exec.fault (.secondBody c.name c.params.length) l) Q
  -- scopes, calls and output
  inInnerScope {α : Type} {x : Exec α} {Q : α → Prop} : Holds x Q → Holds (inInnerScope x) Q
  checkDepth (name : String) (l : Location) : Holds (checkDepth limits name l) fun _ => True
  log {e : Event} : e.aboutScope = false → Holds (log e) fun _ => True
  escaped {c : Callee} {j : Jump} : Fn c → Stmt.escapesAny j c.body = true →
    Holds (defect (.jumpEscaped j c.name) : Exec Value) fun _ => True
  print (text : String) (l : Location) : Holds (print text l) fun _ => True

/-- The rules for a property of every run that asks nothing of values. -/
structure NameLogic (limits : Limits) extends NameRules limits where
  inCall {α : Type} {x : Exec α} {Q : α → Prop} :
    Holds x Q → Holds (inCall (inNewScope ScopeTree.global x)) Q
  outOfFuel {α : Type} {Q : α → Prop} : Holds outOfFuel Q

namespace NameExprRules

variable (L : NameExprRules)

/-! ## Variables -/

theorem variableNamed (name : String) (l : Location) :
    L.Holds (variableNamed name l) fun _ => True := by
  refine L.bind (L.resolve (.var name)) fun r _ => ?_
  split
  · exact L.pure trivial
  · exact L.fault rfl

theorem rebindVariable (name : String) (v : Variable) :
    L.Holds (Exec.rebind (.var name) (.var v)) fun _ => True :=
  L.rebind (L.bound_var name v)

theorem checkStorable (v : Value) (l : Location) :
    L.Holds (checkStorable v l) fun _ => True := by
  cases v with
  | void => exact L.fault rfl
  | _ => exact L.pure trivial

theorem load (name : String) (l : Location) : L.Holds (load name l) fun _ => True := by
  refine L.bind (L.variableNamed name l) fun v _ => ?_
  split
  · exact L.pure trivial
  · exact L.fault rfl

theorem loadElement (name : String) (index : Int) (l : Location) :
    L.Holds (loadElement name index l) fun _ => True := by
  refine L.bind (L.variableNamed name l) fun v _ => ?_
  refine L.bind (L.ofExcept (Ordinary.elementsOf name v.value) fun _ _ => trivial) fun es _ => ?_
  refine L.bind (L.ofExcept (Ordinary.positionIn name es.length index) fun _ _ => trivial)
    fun i _ => ?_
  dsimp only
  split
  · exact L.pure trivial
  · exact L.fault rfl

theorem store (name : String) (new : Value) (l : Location) :
    L.Holds (store name new l) fun _ => True := by
  refine L.bind (L.checkStorable new l) fun _ _ => ?_
  refine L.bind (L.variableNamed name l) fun v _ => ?_
  refine L.bind (L.ofExcept (Ordinary.fitting name v.value new) fun _ _ => trivial)
    fun stored _ => ?_
  exact L.bind (L.rebindVariable name _) fun _ _ => L.pure trivial

theorem assignElement (name : String) (index : Int) (new : Value) (l : Location) :
    L.Holds (assignElement name index new l) fun _ => True := by
  refine L.bind (L.checkStorable new l) fun _ _ => ?_
  refine L.bind (L.variableNamed name l) fun v _ => ?_
  refine L.bind (L.ofExcept (Ordinary.elementsOf name v.value) fun _ _ => trivial) fun es _ => ?_
  refine L.bind (L.ofExcept (Ordinary.positionIn name es.length index) fun _ _ => trivial)
    fun i _ => ?_
  exact L.bind (L.rebindVariable name _) fun _ _ => L.pure trivial

/-! ## Functions -/

theorem findCallee (name : String) (arity : Nat) (l : Location) :
    L.Holds (findCallee name arity l) L.Fn := by
  refine L.bind (L.resolve (.fn name arity)) fun r hr => ?_
  -- only a function with a body is ready to be entered
  split
  · rename_i f
    split
    · rename_i body hbody
      exact L.pure (L.fn_of_bound (hr _ rfl) hbody)
    · exact L.fault rfl
  · exact L.fault rfl

/-- The rules of a property that asks nothing of values. -/
def toExprRules : ExprRules where
  toLifting := L.toLifting
  Val := fun _ => True
  Fn := L.Fn
  int := fun _ => trivial
  char := fun _ => trivial
  string := fun _ => trivial
  void := trivial
  array := fun _ => trivial
  load := L.load
  loadElement := L.loadElement
  store := fun name v l _ => L.store name v l
  assignElement := fun name index v l _ => L.assignElement name index v l
  findCallee := L.findCallee

end NameExprRules

namespace NameRules

variable {limits : Limits} (L : NameRules limits)

/-! ## Declarations -/

theorem declareVariable (name : String) (v : Variable) (l : Location) :
    L.Holds (declareVariable name v l) fun _ => True := by
  refine L.bind (L.declare (L.bound_var name v)) fun free _ => ?_
  split
  · exact L.pure trivial
  · exact L.fault rfl

theorem runFunDeclaration (name result : String) (params : List Param) (l : Location) :
    L.Holds (runFunDeclaration name result params l) fun _ => True := by
  refine L.bind (L.declare (L.bound_declared name result params)) fun free _ => ?_
  split
  · exact L.pure trivial
  · exact L.log rfl

theorem runFunDefinition {c : Callee} (l : Location) (hc : L.Def c) :
    L.Holds (runFunDefinition c.name c.params c.body l) fun _ => True := by
  refine L.bind (L.resolve (.fn c.name c.params.length)) fun r hr => ?_
  -- the function is declared without a body, declared with one, or not declared
  split
  · rename_i f
    split
    · rename_i g hg
      exact L.rebind (L.bound_define hc (hr _ rfl) hg)
    · exact L.secondBody hc
  · exact L.missingDeclaration hc

/-- The rules of a property that asks nothing of values. -/
def toRules : Rules limits where
  toExprRules := L.toNameExprRules.toExprRules
  Def := L.Def
  declareNew := fun name type l => L.declareVariable name (.new type) l
  declareArray := fun name _ _ l _ => L.declareVariable name _ l
  declareParam := fun p _ l _ => L.declareVariable p.name _ l
  declareFun := L.runFunDeclaration
  defineFun := L.runFunDefinition
  definitions := L.definitions
  inInnerScope := L.inInnerScope
  checkDepth := L.checkDepth
  log := L.log
  escaped := L.escaped
  print := L.print

end NameRules

/-- The logic of a property that asks nothing of values. -/
def NameLogic.toLogic {limits : Limits} (L : NameLogic limits) : Logic limits where
  toRules := L.toNameRules.toRules
  inCall := L.inCall
  outOfFuel := L.outOfFuel

end Exec
end PocketC
