/-
  PocketC.Proofs.Tree.Contents

  What a statement contains: the jumps that leave it because no loop of its own
  is around them, the definitions of functions in it, and loops.

  A loop takes every jump of its parts, also of its initializer.  The body of a
  function is not part of the statement that defines it: a jump in it stays in
  it.  Its definitions count, since running the body may run them.
-/

import PocketC.Run.Expr

namespace PocketC
namespace Stmt

/-! ## Jumps -/

mutual

/-- Whether a jump `j` in the statement may leave it. -/
def escapes (j : Jump) : Stmt → Bool
  | .block body _ => escapesAny j body
  | .group body => escapesAny j body
  | .ifElse _ yes no _ => escapes j yes || escapes j no
  | .breakLoop _ => j == .leave
  | .continueLoop _ => j == .next
  | _ => false

/-- Whether a jump `j` in one of the statements may leave it. -/
def escapesAny (j : Jump) : List Stmt → Bool
  | [] => false
  | s :: ss => escapes j s || escapesAny j ss

end

/-- Statements that no jump may leave. -/
def closed (body : List Stmt) : Prop := ∀ j, escapesAny j body = false

theorem escapesAny_eq_false_iff {j : Jump} {body : List Stmt} :
    escapesAny j body = false ↔ ∀ s ∈ body, s.escapes j = false := by
  induction body with
  | nil => simp [escapesAny]
  | cons s ss ih => simp [escapesAny, ih]

/-! ## Definitions -/

mutual

/-- The functions that the statement defines, those that their bodies define
    among them. -/
def definitions : Stmt → List Callee
  | .defineFun name _ params body _ => ⟨name, params, body⟩ :: definitionsAll body
  | .block body _ => definitionsAll body
  | .group body => definitionsAll body
  | .ifElse _ yes no _ => definitions yes ++ definitions no
  | .whileLoop _ body _ => definitions body
  | .forLoop init _ _ body _ => definitions init ++ definitions body
  | _ => []

/-- The functions that some statements define. -/
def definitionsAll : List Stmt → List Callee
  | [] => []
  | s :: ss => definitions s ++ definitionsAll ss

end

theorem definitionsAll_eq_flatMap (body : List Stmt) :
    definitionsAll body = body.flatMap definitions := by
  induction body with
  | nil => rfl
  | cons s ss ih => simp [definitionsAll, ih]

mutual

/-- What the body of a defined function defines is defined by the statement. -/
theorem definitions_body {c d : Callee} : ∀ s : Stmt, c ∈ s.definitions →
    d ∈ definitionsAll c.body → d ∈ s.definitions
  | .defineFun name _ params body _, hc, hd => by
      rw [definitions] at hc ⊢
      -- `c` is the function defined here, or one that its body defines
      rcases List.mem_cons.mp hc with rfl | hc
      · exact List.mem_cons_of_mem _ hd
      · exact List.mem_cons_of_mem _ (definitionsAll_body body hc hd)
  | .block body _, hc, hd => by
      rw [definitions] at hc ⊢
      exact definitionsAll_body body hc hd
  | .group body, hc, hd => by
      rw [definitions] at hc ⊢
      exact definitionsAll_body body hc hd
  | .ifElse _ yes no _, hc, hd => by
      rw [definitions, List.mem_append] at hc ⊢
      exact hc.imp (fun h => definitions_body yes h hd) (fun h => definitions_body no h hd)
  | .whileLoop _ body _, hc, hd => by
      rw [definitions] at hc ⊢
      exact definitions_body body hc hd
  | .forLoop init _ _ body _, hc, hd => by
      rw [definitions, List.mem_append] at hc ⊢
      exact hc.imp (fun h => definitions_body init h hd) (fun h => definitions_body body h hd)
  | .declareVar .., hc, _ | .declareFun .., hc, _ | .breakLoop _, hc, _ | .continueLoop _, hc, _
  | .returnValue .., hc, _ | .intrinsic .., hc, _ | .expression _, hc, _ => by
      simp [definitions] at hc

theorem definitionsAll_body {c d : Callee} : ∀ ss : List Stmt, c ∈ definitionsAll ss →
    d ∈ definitionsAll c.body → d ∈ definitionsAll ss
  | [], hc, _ => by simp [definitionsAll] at hc
  | s :: ss, hc, hd => by
      rw [definitionsAll, List.mem_append] at hc ⊢
      exact hc.imp (fun h => definitions_body s h hd) (fun h => definitionsAll_body ss h hd)

end

/-! ## Loops -/

mutual

/-- Whether there is a loop in the statement or in the body of a function that it defines. -/
def hasLoop : Stmt → Bool
  | .whileLoop .. | .forLoop .. => true
  | .defineFun _ _ _ body _ => hasLoopAny body
  | .block body _ => hasLoopAny body
  | .group body => hasLoopAny body
  | .ifElse _ yes no _ => hasLoop yes || hasLoop no
  | _ => false

/-- Whether there is a loop in one of the statements. -/
def hasLoopAny : List Stmt → Bool
  | [] => false
  | s :: ss => hasLoop s || hasLoopAny ss

end

theorem hasLoopAny_eq_false_iff {body : List Stmt} :
    hasLoopAny body = false ↔ ∀ s ∈ body, s.hasLoop = false := by
  induction body with
  | nil => simp [hasLoopAny]
  | cons s ss ih => simp [hasLoopAny, ih]

mutual

/-- A loop in the body of a defined function is a loop of the statement. -/
theorem hasLoop_body {c : Callee} : ∀ s : Stmt, c ∈ s.definitions → s.hasLoop = false →
    hasLoopAny c.body = false
  | .defineFun name _ params body _, hc, h => by
      rw [definitions] at hc
      rw [hasLoop] at h
      rcases List.mem_cons.mp hc with rfl | hc
      · exact h
      · exact hasLoopAny_body body hc h
  | .block body _, hc, h | .group body, hc, h => by
      rw [definitions] at hc
      rw [hasLoop] at h
      exact hasLoopAny_body body hc h
  | .ifElse _ yes no _, hc, h => by
      rw [definitions, List.mem_append] at hc
      rw [hasLoop, Bool.or_eq_false_iff] at h
      exact hc.elim (fun hc => hasLoop_body yes hc h.1) (fun hc => hasLoop_body no hc h.2)
  | .whileLoop .., _, h | .forLoop .., _, h => by
      rw [hasLoop] at h
      cases h
  | .declareVar .., hc, _ | .declareFun .., hc, _ | .breakLoop _, hc, _ | .continueLoop _, hc, _
  | .returnValue .., hc, _ | .intrinsic .., hc, _ | .expression _, hc, _ => by
      simp [definitions] at hc

theorem hasLoopAny_body {c : Callee} : ∀ ss : List Stmt, c ∈ definitionsAll ss →
    hasLoopAny ss = false → hasLoopAny c.body = false
  | [], hc, _ => by simp [definitionsAll] at hc
  | s :: ss, hc, h => by
      rw [definitionsAll, List.mem_append] at hc
      rw [hasLoopAny, Bool.or_eq_false_iff] at h
      exact hc.elim (fun hc => hasLoop_body s hc h.1) (fun hc => hasLoopAny_body ss hc h.2)

end

end Stmt
end PocketC
