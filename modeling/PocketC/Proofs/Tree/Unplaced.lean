/-
  PocketC.Proofs.Tree.Unplaced

  Tokens and trees with their places forgotten: two of them are the same up to places
  if they are equal without.
-/

import PocketC.Token.Basic
import PocketC.Tree.Stmt

namespace PocketC

/-- The token at no place in particular. -/
def Token.unplaced (t : Token) : Token := { t with location := .start }

/-! ## Expressions -/

namespace Expr

mutual

/-- The expression with all its places forgotten. -/
def unplaced : Expr → Expr
  | .int n _ => .int n .start
  | .char c _ => .char c .start
  | .string s _ => .string s .start
  | .var name _ => .var name .start
  | .binary op left right _ => .binary op (unplaced left) (unplaced right) .start
  | .negate operand _ => .negate (unplaced operand) .start
  | .assign name value _ => .assign name (unplaced value) .start
  | .assignElement name index value _ =>
      .assignElement name (unplaced index) (unplaced value) .start
  | .call name args _ => .call name (unplacedAll args) .start
  | .array elements _ => .array (unplacedAll elements) .start
  | .element name index _ => .element name (unplaced index) .start

/-- The expressions with all their places forgotten. -/
def unplacedAll : List Expr → List Expr
  | [] => []
  | e :: es => unplaced e :: unplacedAll es

end

theorem unplacedAll_eq_map (es : List Expr) : unplacedAll es = es.map unplaced := by
  induction es with
  | nil => rfl
  | cons e es ih => rw [unplacedAll, ih, List.map_cons]

/-- Nothing but the places is forgotten. -/
example : (call "f" [var "x" ⟨3, 6⟩] ⟨3, 4⟩).unplaced = call "f" [var "x" .start] .start := by
  cbv

end Expr

/-! ## Statements -/

namespace Stmt

mutual

/-- The statement with all its places forgotten. -/
def unplaced : Stmt → Stmt
  | .declareVar name type size _ => .declareVar name type (size.map Expr.unplaced) .start
  | .declareFun name result params _ => .declareFun name result params .start
  | .defineFun name result params body _ =>
      .defineFun name result params (unplacedAll body) .start
  | .block body _ => .block (unplacedAll body) .start
  | .group body => .group (unplacedAll body)
  | .ifElse condition yes no _ => .ifElse condition.unplaced (unplaced yes) (unplaced no) .start
  | .whileLoop condition body _ => .whileLoop condition.unplaced (unplaced body) .start
  | .forLoop init condition step body _ =>
      .forLoop (unplaced init) condition.unplaced step.unplaced (unplaced body) .start
  | .breakLoop _ => .breakLoop .start
  | .continueLoop _ => .continueLoop .start
  | .returnValue value _ => .returnValue (value.map Expr.unplaced) .start
  | .intrinsic name args _ => .intrinsic name (Expr.unplacedAll args) .start
  | .expression value => .expression value.unplaced

/-- The statements with all their places forgotten. -/
def unplacedAll : List Stmt → List Stmt
  | [] => []
  | s :: ss => unplaced s :: unplacedAll ss

end

theorem unplacedAll_eq_map (ss : List Stmt) : unplacedAll ss = ss.map unplaced := by
  induction ss with
  | nil => rfl
  | cons s ss ih => rw [unplacedAll, ih, List.map_cons]

theorem unplacedAll_flatten (groups : List (List Stmt)) :
    unplacedAll groups.flatten = (groups.map unplacedAll).flatten := by
  induction groups with
  | nil => rfl
  | cons group groups ih => simp_all [unplacedAll_eq_map]

theorem unplaced_eq_group_nil {s : Stmt} : s.unplaced = .group [] ↔ s = .group [] := by
  cases s with
  | group ss => cases ss <;> simp [unplaced, unplacedAll]
  | _ => simp [unplaced]

end Stmt

/-- The program with all its places forgotten. -/
def Program.unplaced (p : Program) : Program := ⟨p.nodes.map Stmt.unplaced⟩

end PocketC
