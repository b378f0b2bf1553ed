/-
  PocketC.Names.Binding

  Names and what they are bound to.  A function is known by its name and the
  number of its parameters, never by their types, so `f()` and `f(int a)` are
  two functions, and neither is the variable `f`.
-/

import PocketC.Value
import PocketC.Tree.Stmt

namespace PocketC

/-- What a binding is found by. -/
inductive Symbol where
  | var (name : String)
  | fn (name : String) (arity : Nat)
deriving DecidableEq, Inhabited

/-- The text of a symbol. -/
def Symbol.text : Symbol → String
  | .var name => name
  | .fn name arity => name ++ "/" ++ arity.repr

/-- A variable: its declared type and what it holds. -/
structure Variable where
  type : String
  value : Value
deriving Inhabited

/-- A variable that nothing was assigned to. -/
def Variable.new (type : String) : Variable := ⟨type, .uninitialized⟩

/-- A function: its signature, and its body once that is known. -/
structure Function where
  result : String
  params : List Param
  body : Option (List Stmt)
deriving Inhabited

namespace Function

/-- A function of which only the signature is known. -/
def declared (result : String) (params : List Param) : Function := ⟨result, params, none⟩

/-- The function with a body, and with the parameter names that the body uses;
    `none` if it has a body already. -/
def define (f : Function) (params : List Param) (body : List Stmt) : Option Function :=
  match f.body with
  | some _ => none
  | none => some { f with params := params, body := some body }

end Function

/-- What a symbol is bound to. -/
inductive Binding where
  | var (v : Variable)
  | fn (f : Function)
deriving Inhabited

end PocketC
