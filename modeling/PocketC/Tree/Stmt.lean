/-
  PocketC.Tree.Stmt

  Statements and programs.  A group is a row of statements that one construct of
  the source stands for: the declarations and initial assignments of
  `int a = 1, b;`, or the declaration and the definition of a function.
-/

import PocketC.Tree.Expr

namespace PocketC

/-- A parameter of a function. -/
structure Param where
  type : String
  name : String
deriving DecidableEq, Inhabited

/-- A statement. -/
inductive Stmt where
  /-- a variable; with a size expression, an array of that many elements -/
  | declareVar (name type : String) (size : Option Expr) (location : Location)
  /-- the signature of a function -/
  | declareFun (name result : String) (params : List Param) (location : Location)
  /-- the body of a function whose signature is declared -/
  | defineFun (name result : String) (params : List Param) (body : List Stmt)
      (location : Location)
  /-- `{ ... }`, with names of its own -/
  | block (body : List Stmt) (location : Location)
  /-- a row of statements without names of its own -/
  | group (body : List Stmt)
  | ifElse (condition : Expr) (thenBranch elseBranch : Stmt) (location : Location)
  | whileLoop (condition : Expr) (body : Stmt) (location : Location)
  | forLoop (init : Stmt) (condition step : Expr) (body : Stmt) (location : Location)
  | breakLoop (location : Location)
  | continueLoop (location : Location)
  | returnValue (value : Option Expr) (location : Location)
  /-- a built-in operation -/
  | intrinsic (name : String) (args : List Expr) (location : Location)
  | expression (value : Expr)
deriving Inhabited

/-- The place of a statement; a group has that of its first statement. -/
def Stmt.location : Stmt → Option Location
  | .declareVar _ _ _ l | .declareFun _ _ _ l | .defineFun _ _ _ _ l | .block _ l
  | .ifElse _ _ _ l | .whileLoop _ _ l | .forLoop _ _ _ _ l | .breakLoop l
  | .continueLoop l | .returnValue _ l | .intrinsic _ _ l => some l
  | .expression e => some e.location
  | .group [] => none
  | .group (s :: _) => s.location

/-- A program: its variables and functions in order. -/
structure Program where
  nodes : List Stmt
deriving Inhabited

end PocketC
