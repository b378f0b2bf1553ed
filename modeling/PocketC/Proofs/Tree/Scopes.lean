/-
  PocketC.Proofs.Tree.Scopes

  What a statement does to scopes, as it is written: how many it may open one inside of
  the other, and which symbols it may declare in the scope that it is run in.

  A block and the body of a loop are run in scopes of their own.  The initializer of a
  loop is not: it declares in the scope that the loop is run in, and its symbols are left
  out, since they are all that a branch of a conditional may declare around itself.  The
  body of a function is run in the scopes of its calls, and does nothing where it is
  defined.
-/

import Mathlib.Data.List.MinMax
import PocketC.Proofs.Tree.Written

namespace PocketC
namespace Stmt

/-! ## Nested scopes -/

mutual

/-- How many scopes the statement may open one inside of the other, without those of calls. -/
def nesting : Stmt → Nat
  | .block body _ => nestingAll body + 1
  | .group body => nestingAll body
  | .ifElse _ yes no _ => max (nesting yes) (nesting no)
  | .whileLoop _ body _ => nesting body + 1
  | .forLoop init _ _ body _ => max (nesting init) (nesting body + 1)
  | _ => 0

/-- How many scopes one of the statements may open one inside of the other. -/
def nestingAll : List Stmt → Nat
  | [] => 0
  | s :: ss => max (nesting s) (nestingAll ss)

end

/-! ## Declared symbols -/

mutual

/-- The symbols that the statement may declare in the scope that it is run in, but for those that
    initializers of loops declare. -/
def declares : Stmt → List Symbol
  | .declareVar name _ _ _ => [.var name]
  | .declareFun name _ params _ => [.fn name params.length]
  | .group body => declaresAll body
  | .ifElse _ yes no _ => declares yes ++ declares no
  | _ => []

/-- The symbols that some statements may declare in the scope that they are run in. -/
def declaresAll : List Stmt → List Symbol
  | [] => []
  | s :: ss => declares s ++ declaresAll ss

end

end Stmt

/-- The most scopes that the nodes of the program, or the body of one function, may open one inside
    of the other. -/
def Program.nesting (p : Program) : Nat :=
  ((p.nodes :: (Stmt.definitionsAll p.nodes).map (·.body)).map Stmt.nestingAll).foldr max 0

namespace Program

variable {p : Program} {c : Callee}

theorem nestingAll_nodes_le (p : Program) : Stmt.nestingAll p.nodes ≤ p.nesting :=
  List.le_max_of_le' 0 List.mem_cons_self (Nat.le_refl _)

theorem Defines.nestingAll_le (h : p.Defines c) : Stmt.nestingAll c.body ≤ p.nesting := by
  refine List.le_max_of_le' 0 (List.mem_map.mpr ⟨c.body, ?_, rfl⟩) (Nat.le_refl _)
  exact List.mem_cons_of_mem _ (List.mem_map.mpr ⟨c, h.mem_definitionsAll, rfl⟩)

end Program
end PocketC
