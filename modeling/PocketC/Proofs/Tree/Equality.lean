/-
  PocketC.Proofs.Tree.Equality

  Whether two trees are the same can be decided, so that the tree of a source text can be
  computed and compared.
-/

import PocketC.Tree.Stmt

namespace PocketC
namespace Expr

mutual

/-- Whether two expressions are the same, places included. -/
def same : Expr → Expr → Bool
  | .int n l, .int n' l' => n = n' && l = l'
  | .char c l, .char c' l' => c = c' && l = l'
  | .string s l, .string s' l' => s = s' && l = l'
  | .var name l, .var name' l' => name = name' && l = l'
  | .binary op a b l, .binary op' a' b' l' => op = op' && same a a' && same b b' && l = l'
  | .negate a l, .negate a' l' => same a a' && l = l'
  | .assign name e l, .assign name' e' l' => name = name' && same e e' && l = l'
  | .assignElement name i e l, .assignElement name' i' e' l' =>
    name = name' && same i i' && same e e' && l = l'
  | .call name args l, .call name' args' l' => name = name' && sameAll args args' && l = l'
  | .array es l, .array es' l' => sameAll es es' && l = l'
  | .element name i l, .element name' i' l' => name = name' && same i i' && l = l'
  | _, _ => false

/-- Whether two rows are of the same expressions. -/
def sameAll : List Expr → List Expr → Bool
  | [], [] => true
  | a :: as, b :: bs => same a b && sameAll as bs
  | _, _ => false

end

mutual

theorem same_iff : ∀ a b : Expr, same a b = true ↔ a = b
  | .int .., b | .char .., b | .string .., b | .var .., b => by
      cases b <;> simp [same]
  | .binary _ x y _, b => by
      cases b with
      | binary _ x' y' _ => simp [same, and_assoc, same_iff x x', same_iff y y']
      | _ => simp [same]
  | .negate x _, b => by
      cases b with
      | negate x' _ => simp [same, same_iff x x']
      | _ => simp [same]
  | .assign _ x _, b => by
      cases b with
      | assign _ x' _ => simp [same, and_assoc, same_iff x x']
      | _ => simp [same]
  | .assignElement _ x y _, b => by
      cases b with
      | assignElement _ x' y' _ => simp [same, and_assoc, same_iff x x', same_iff y y']
      | _ => simp [same]
  | .call _ xs _, b => by
      cases b with
      | call _ xs' _ => simp [same, and_assoc, sameAll_iff xs xs']
      | _ => simp [same]
  | .array xs _, b => by
      cases b with
      | array xs' _ => simp [same, sameAll_iff xs xs']
      | _ => simp [same]
  | .element _ x _, b => by
      cases b with
      | element _ x' _ => simp [same, and_assoc, same_iff x x']
      | _ => simp [same]

theorem sameAll_iff : ∀ as bs : List Expr, sameAll as bs = true ↔ as = bs
  | [], bs => by cases bs <;> simp [sameAll]
  | a :: as, bs => by
      cases bs with
      | nil => simp [sameAll]
      | cons b bs => simp [sameAll, same_iff a b, sameAll_iff as bs]

end

instance : DecidableEq Expr := fun a b => decidable_of_iff _ (same_iff a b)

end Expr

namespace Stmt

mutual

/-- Whether two statements are the same, places included. -/
def same : Stmt → Stmt → Bool
  | .declareVar name type size l, .declareVar name' type' size' l' =>
    name = name' && type = type' && size = size' && l = l'
  | .declareFun name result ps l, .declareFun name' result' ps' l' =>
    name = name' && result = result' && ps = ps' && l = l'
  | .defineFun name result ps body l, .defineFun name' result' ps' body' l' =>
    name = name' && result = result' && ps = ps' && sameAll body body' && l = l'
  | .block body l, .block body' l' => sameAll body body' && l = l'
  | .group body, .group body' => sameAll body body'
  | .ifElse e yes no l, .ifElse e' yes' no' l' => e = e' && same yes yes' && same no no' && l = l'
  | .whileLoop e body l, .whileLoop e' body' l' => e = e' && same body body' && l = l'
  | .forLoop init e step body l, .forLoop init' e' step' body' l' =>
    same init init' && e = e' && step = step' && same body body' && l = l'
  | .breakLoop l, .breakLoop l' => l = l'
  | .continueLoop l, .continueLoop l' => l = l'
  | .returnValue e l, .returnValue e' l' => e = e' && l = l'
  | .intrinsic name args l, .intrinsic name' args' l' => name = name' && args = args' && l = l'
  | .expression e, .expression e' => e = e'
  | _, _ => false

/-- Whether two rows are of the same statements. -/
def sameAll : List Stmt → List Stmt → Bool
  | [], [] => true
  | s :: ss, r :: rs => same s r && sameAll ss rs
  | _, _ => false

end

mutual

theorem same_iff : ∀ s r : Stmt, same s r = true ↔ s = r
  | .declareVar .., r | .declareFun .., r | .breakLoop .., r | .continueLoop .., r
  | .returnValue .., r | .intrinsic .., r | .expression .., r => by
      cases r <;> simp [same, and_assoc]
  | .defineFun _ _ _ body _, r => by
      cases r with
      | defineFun _ _ _ body' _ => simp [same, and_assoc, sameAll_iff body body']
      | _ => simp [same]
  | .block body _, r => by
      cases r with
      | block body' _ => simp [same, sameAll_iff body body']
      | _ => simp [same]
  | .group body, r => by
      cases r with
      | group body' => simp [same, sameAll_iff body body']
      | _ => simp [same]
  | .ifElse _ yes no _, r => by
      cases r with
      | ifElse _ yes' no' _ => simp [same, and_assoc, same_iff yes yes', same_iff no no']
      | _ => simp [same]
  | .whileLoop _ body _, r => by
      cases r with
      | whileLoop _ body' _ => simp [same, and_assoc, same_iff body body']
      | _ => simp [same]
  | .forLoop init _ _ body _, r => by
      cases r with
      | forLoop init' _ _ body' _ => simp [same, and_assoc, same_iff init init', same_iff body body']
      | _ => simp [same]

theorem sameAll_iff : ∀ ss rs : List Stmt, sameAll ss rs = true ↔ ss = rs
  | [], rs => by cases rs <;> simp [sameAll]
  | s :: ss, rs => by
      cases rs with
      | nil => simp [sameAll]
      | cons r rs => simp [sameAll, same_iff s r, sameAll_iff ss rs]

end

instance : DecidableEq Stmt := fun s r => decidable_of_iff _ (same_iff s r)

end Stmt

deriving instance DecidableEq for Program

end PocketC
