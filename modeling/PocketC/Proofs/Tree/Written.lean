/-
  PocketC.Proofs.Tree.Written

  What is written in a program: the statements of its nodes, down to those in branches,
  loops and bodies of functions, and the expressions in them, down to their parts.
-/

import Mathlib.Logic.Relation
import PocketC.Proofs.Tree.Contents

namespace PocketC

/-! ## Expressions and statements -/

namespace Expr

/-- The expressions that an expression is put together from. -/
def parts : Expr → List Expr
  | .binary _ left right _ => [left, right]
  | .negate operand _ => [operand]
  | .assign _ value _ => [value]
  | .assignElement _ index value _ => [index, value]
  | .call _ args _ => args
  | .array elements _ => elements
  | .element _ index _ => [index]
  | _ => []

/-- The expression is `a` or has it among its parts, however deep. -/
def Has : Expr → Expr → Prop := Relation.ReflTransGen fun e a => a ∈ e.parts

end Expr

namespace Stmt

/-- The statements that a statement is put together from. -/
def parts : Stmt → List Stmt
  | .defineFun _ _ _ body _ => body
  | .block body _ => body
  | .group body => body
  | .ifElse _ yes no _ => [yes, no]
  | .whileLoop _ body _ => [body]
  | .forLoop init _ _ body _ => [init, body]
  | _ => []

/-- The expressions that stand in a statement and in none of its parts. -/
def expressions : Stmt → List Expr
  | .declareVar _ _ size _ => size.toList
  | .ifElse condition _ _ _ => [condition]
  | .whileLoop condition _ _ => [condition]
  | .forLoop _ condition step _ _ => [condition, step]
  | .returnValue value _ => value.toList
  | .intrinsic _ args _ => args
  | .expression value => [value]
  | _ => []

/-- The statement is `r` or has it among its parts, however deep. -/
def Has : Stmt → Stmt → Prop := Relation.ReflTransGen fun s r => r ∈ s.parts

/-- A statement defines what its parts define. -/
theorem definitions_part {s r : Stmt} (h : r ∈ s.parts) : r.definitions ⊆ s.definitions := by
  have hall : ∀ {body : List Stmt}, r ∈ body → r.definitions ⊆ definitionsAll body := by
    intro body hr c hc
    rw [definitionsAll_eq_flatMap]
    exact List.mem_flatMap.mpr ⟨r, hr, hc⟩
  cases s with
  | defineFun name result ps body l =>
      rw [definitions]
      exact List.subset_cons_of_subset _ (hall h)
  | block body l | group body =>
      rw [definitions]
      exact hall h
  | ifElse c yes no l =>
      rw [definitions]
      obtain rfl | rfl : r = yes ∨ r = no := by simpa [parts] using h
      · exact List.subset_append_left _ _
      · exact List.subset_append_right _ _
  | whileLoop c body l =>
      rw [definitions, List.mem_singleton.mp h]
      exact List.Subset.refl _
  | forLoop init c step body l =>
      rw [definitions]
      obtain rfl | rfl : r = init ∨ r = body := by simpa [parts] using h
      · exact List.subset_append_left _ _
      · exact List.subset_append_right _ _
  | _ => cases h

theorem Has.definitions {s r : Stmt} (h : s.Has r) : r.definitions ⊆ s.definitions := by
  induction h with
  | refl => exact List.Subset.refl _
  | tail _ hpart ih => exact List.Subset.trans (definitions_part hpart) ih

end Stmt

/-! ## Programs -/

namespace Program

/-- The statement is one of the program's. -/
def HasStmt (p : Program) (s : Stmt) : Prop := ∃ n ∈ p.nodes, n.Has s

/-- The expression is one of the program's. -/
def HasExpr (p : Program) (e : Expr) : Prop :=
  ∃ s, p.HasStmt s ∧ ∃ d ∈ s.expressions, d.Has e

/-- The program defines the function. -/
def Defines (p : Program) (c : Callee) : Prop :=
  ∃ result l, p.HasStmt (.defineFun c.name result c.params c.body l)

variable {p : Program} {s r : Stmt} {e a : Expr} {c : Callee}

theorem hasStmt_node (h : s ∈ p.nodes) : p.HasStmt s := ⟨s, h, .refl⟩

theorem HasStmt.part (h : p.HasStmt s) (hr : r ∈ s.parts) : p.HasStmt r := by
  obtain ⟨n, hn, hs⟩ := h
  exact ⟨n, hn, hs.tail hr⟩

theorem HasStmt.expression (h : p.HasStmt s) (he : e ∈ s.expressions) : p.HasExpr e :=
  ⟨s, h, e, he, .refl⟩

theorem HasExpr.part (h : p.HasExpr e) (ha : a ∈ e.parts) : p.HasExpr a := by
  obtain ⟨s, hs, d, hd, he⟩ := h
  exact ⟨s, hs, d, hd, he.tail ha⟩

theorem Defines.body (h : p.Defines c) (hs : s ∈ c.body) : p.HasStmt s := by
  obtain ⟨result, l, hc⟩ := h
  exact hc.part hs

theorem Defines.mem_definitionsAll (h : p.Defines c) : c ∈ Stmt.definitionsAll p.nodes := by
  obtain ⟨result, l, n, hn, hc⟩ := h
  rw [Stmt.definitionsAll_eq_flatMap]
  refine List.mem_flatMap.mpr ⟨n, hn, hc.definitions ?_⟩
  rw [Stmt.definitions]
  exact List.mem_cons_self

end Program
end PocketC
