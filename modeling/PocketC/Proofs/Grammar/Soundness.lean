/-
  PocketC.Proofs.Grammar.Soundness

  What reading an expression has read derives the expression that it gives: one lemma
  for each reading of `PocketC.Grammar.Expr`, about any reading of the inner expressions
  that has this property, and the whole by induction on the bound.
-/

import PocketC.Proofs.Grammar.Derivation

namespace PocketC
namespace Grammar

open Parse

/-- Where the reading succeeds, the tokens that it has read derive the phrase of its result. -/
def Reads {α : Type} (x : Parse α) (phrase : α → Phrase) : Prop :=
  ∀ p a q, x p = .ok a q → ∃ w, p = q.prepend w ∧ Derives (phrase a) w

/-! ## Choices by the next tokens -/

theorem value_eq (expr : Parse Expr) (bound : Nat) (p : Parser) :
    value expr bound p = match p.next with
      | .intLiteral => literal .intLiteral intMeaning .int p
      | .stringLiteral => literal .stringLiteral stringMeaning .string p
      | .charLiteral => literal .charLiteral charMeaning .char p
      | .openBrace => arrayLiteral expr bound p
      | .identifier =>
        if p.cursor.sees .openParen 1 then call expr bound p else nameOrElement expr p
      | _ => parenthesized expr p := by
  rw [value, bind_ok (peek_eq 0 p)]
  unfold Parser.next
  cases (p.cursor.peek 0).kind with
  | identifier =>
      refine (bind_ok (sees_eq .openParen 1 p)).trans ?_
      dsimp only
      split <;> rfl
  | _ => rfl

theorem chain_eq (operator : Kind → Option BinaryOp) (operand : Parse Expr) (bound : Nat)
    (left : Expr) (p : Parser) :
    chain operator operand (bound + 1) left p = match operator p.next with
      | none => .ok left p
      | some op => (do
          let _ ← expect p.next
          let right ← operand
          chain operator operand bound
            (.binary op left right (p.cursor.peek 0).location)) p := by
  rw [chain, bind_ok (peek_eq 0 p)]
  unfold Parser.next
  cases operator (p.cursor.peek 0).kind <;> rfl

/-- Whether `name =` is next. -/
def assignmentNext (s : Cursor) : Bool := s.sees .identifier 0 && s.sees .assign 1

theorem expressionWith_eq (expr : Parse Expr) (bound : Nat) (p : Parser) :
    expressionWith expr bound p =
      if assignmentNext p.cursor then nameAssignment expr p
      else if elementAssignmentNext p.cursor then elementAssignment expr p
      else equality bound (unary (value expr bound) bound) p := by
  have hname : atAssignment p = .ok (assignmentNext p.cursor) p := rfl
  have helement : atElementAssignment p = .ok (elementAssignmentNext p.cursor) p := rfl
  rw [expressionWith, bind_ok hname]
  split
  · rfl
  · rw [bind_ok helement]
    split <;> rfl

/-! ## Lists -/

section
variable {expr : Parse Expr} (hexpr : Reads expr (.expr .assignment))
include hexpr

theorem reads_sequence (bound : Nat) : Reads (Parse.sequence expr bound) .list := by
  induction bound with
  | zero =>
      intro p es q h
      simp only [Parse.sequence, bind_eq_ok] at h
      obtain ⟨e, r, he, hpure⟩ := h
      cases hpure
      obtain ⟨w, hp, hw⟩ := hexpr p e q he
      exact ⟨w, hp, .one hw⟩
  | succ bound ih =>
      intro p es q h
      simp only [Parse.sequence, bind_eq_ok] at h
      obtain ⟨e, p₁, he, again, p₂, ha, h⟩ := h
      obtain ⟨v, rfl, hv⟩ := hexpr p e p₁ he
      cases again with
      | true =>
          simp only [if_true, bind_eq_ok] at h
          obtain ⟨es', p₃, hes, hpure⟩ := h
          cases hpure
          obtain ⟨comma, hc, rfl⟩ := accept_eq_true (by decide) ha
          obtain ⟨w, rfl, hw⟩ := ih p₂ es' q hes
          exact ⟨v ++ comma :: w, by simp, .more hc hv hw⟩
      | false =>
          cases h
          cases accept_eq_false ha
          exact ⟨v, rfl, .one hv⟩

theorem reads_listUntil (stop : Kind) (bound : Nat) :
    Reads (listUntil stop expr bound) .args := by
  intro p es q h
  rw [listUntil, bind_ok (sees_eq stop 0 p)] at h
  split at h
  · cases h
    exact ⟨[], rfl, .noArgs⟩
  · obtain ⟨w, hw, hes⟩ := reads_sequence hexpr bound p es q h
    exact ⟨w, hw, .args hes⟩

/-! ## Values -/

theorem reads_call (bound : Nat) : Reads (call expr bound) (.expr .value) := by
  intro p e q h
  simp only [call, bind_eq_ok] at h
  obtain ⟨l, p₁, hl, name, p₂, hname, opening, p₃, hopen, es, p₄, hes, closing, p₅, hclose,
    hpure⟩ := h
  cases hl
  cases hpure
  obtain ⟨t, ht, rfl, rfl⟩ := identifier_eq_ok hname
  obtain ⟨ho, rfl⟩ := expect_eq_ok (by decide) hopen
  obtain ⟨w, rfl, hw⟩ := reads_listUntil hexpr .closeParen bound p₃ es p₄ hes
  obtain ⟨hc, rfl⟩ := expect_eq_ok (by decide) hclose
  exact ⟨t :: opening :: w ++ [closing], by simp, .call ht ho hc hw⟩

theorem reads_nameOrElement : Reads (nameOrElement expr) (.expr .value) := by
  intro p e q h
  simp only [nameOrElement, bind_eq_ok] at h
  obtain ⟨l, p₁, hl, name, p₂, hname, indexed, p₃, hi, h⟩ := h
  cases hl
  obtain ⟨t, ht, rfl, rfl⟩ := identifier_eq_ok hname
  cases indexed with
  | true =>
      simp only [if_true, bind_eq_ok] at h
      obtain ⟨i, p₄, hindex, closing, p₅, hclose, hpure⟩ := h
      cases hpure
      obtain ⟨opening, ho, rfl⟩ := accept_eq_true (by decide) hi
      obtain ⟨w, rfl, hw⟩ := hexpr p₃ i p₄ hindex
      obtain ⟨hc, rfl⟩ := expect_eq_ok (by decide) hclose
      exact ⟨t :: opening :: w ++ [closing], by simp, .element ht ho hc hw⟩
  | false =>
      cases h
      cases accept_eq_false hi
      exact ⟨[t], rfl, .var ht⟩

theorem reads_arrayLiteral (bound : Nat) : Reads (arrayLiteral expr bound) (.expr .value) := by
  intro p e q h
  simp only [arrayLiteral, bind_eq_ok] at h
  obtain ⟨opening, p₁, hopen, es, p₂, hes, closing, p₃, hclose, hpure⟩ := h
  cases hpure
  obtain ⟨ho, rfl⟩ := expect_eq_ok (by decide) hopen
  obtain ⟨w, rfl, hw⟩ := reads_listUntil hexpr .closeBrace bound p₁ es p₂ hes
  obtain ⟨hc, rfl⟩ := expect_eq_ok (by decide) hclose
  exact ⟨opening :: w ++ [closing], by simp, .array ho hc hw⟩

theorem reads_parenthesized : Reads (parenthesized expr) (.expr .value) := by
  intro p e q h
  simp only [parenthesized, bind_eq_ok] at h
  obtain ⟨opening, p₁, hopen, e', p₂, he, closing, p₃, hclose, hpure⟩ := h
  cases hpure
  obtain ⟨ho, rfl⟩ := expect_eq_ok (by decide) hopen
  obtain ⟨w, rfl, hw⟩ := hexpr p₁ e p₂ he
  obtain ⟨hc, rfl⟩ := expect_eq_ok (by decide) hclose
  exact ⟨opening :: w ++ [closing], by simp, .paren ho hc hw⟩

omit hexpr in
/-- A literal is one token with a meaning; `hder` says that such a token derives its node. -/
theorem reads_literal {α : Type} {k : Kind} {meaning : String → Option α}
    {node : α → Location → Expr} (hk : k ≠ .endOfInput)
    (hder : ∀ (t : Token) (a : α), t.kind = k → meaning t.text = some a →
      Derives (.expr .value (node a t.location)) [t]) :
    Reads (literal k meaning node) (.expr .value) := by
  intro p e q h
  simp only [literal, bind_eq_ok] at h
  obtain ⟨t, p₁, ht, h⟩ := h
  obtain ⟨hkind, rfl⟩ := expect_eq_ok hk ht
  cases ha : meaning t.text with
  | some a =>
      rw [ha] at h
      cases h
      exact ⟨[t], rfl, hder t a hkind ha⟩
  | none =>
      rw [ha] at h
      cases h

theorem reads_value (bound : Nat) : Reads (value expr bound) (.expr .value) := by
  intro p e q h
  rw [value_eq] at h
  split at h
  · exact reads_literal (by decide) (fun _ _ => .int) p e q h
  · exact reads_literal (by decide) (fun _ _ => .string) p e q h
  · exact reads_literal (by decide) (fun _ _ => .char) p e q h
  · exact reads_arrayLiteral hexpr bound p e q h
  · split at h
    · exact reads_call hexpr bound p e q h
    · exact reads_nameOrElement hexpr p e q h
  · exact reads_parenthesized hexpr p e q h

end

/-! ## Operators -/

theorem reads_unary {value : Parse Expr} (hvalue : Reads value (.expr .value)) (bound : Nat) :
    Reads (unary value bound) (.expr .unary) := by
  induction bound with
  | zero =>
      intro p e q h
      obtain ⟨w, hp, hw⟩ := hvalue p e q h
      exact ⟨w, hp, .unary hw⟩
  | succ bound ih =>
      intro p e q h
      simp only [Grammar.unary, bind_eq_ok] at h
      obtain ⟨l, p₁, hl, negative, p₂, hn, h⟩ := h
      cases hl
      cases negative with
      | true =>
          simp only [if_true, bind_eq_ok] at h
          obtain ⟨e', p₃, he, hpure⟩ := h
          cases hpure
          obtain ⟨sign, hs, rfl⟩ := accept_eq_true (by decide) hn
          obtain ⟨w, rfl, hw⟩ := ih p₂ e' q he
          exact ⟨sign :: w, by simp, .negate hs hw⟩
      | false =>
          cases accept_eq_false hn
          obtain ⟨w, hp, hw⟩ := hvalue _ e q h
          exact ⟨w, hp, .unary hw⟩

section
variable {level : BinaryTier} {operand : Parse Expr}
  (hoperand : Reads operand (.expr level.operand))
include hoperand

theorem reads_chain (bound : Nat) : ∀ left : Expr,
    Reads (chain level.operator operand bound left) (.operands level left) := by
  induction bound with
  | zero =>
      intro left p e q h
      cases h
      exact ⟨[], rfl, .noOperand⟩
  | succ bound ih =>
      intro left p e q h
      rw [chain_eq] at h
      split at h
      · cases h
        exact ⟨[], rfl, .noOperand⟩
      · rename_i op hop
        simp only [bind_eq_ok] at h
        obtain ⟨sign, p₂, hsign, right, p₃, hright, hchain⟩ := h
        obtain ⟨rfl, hkind⟩ := BinaryTier.operator_eq_some_iff.mp hop
        -- an operator is a token of the row and not its end
        have hend : p.next ≠ .endOfInput := by
          rw [← hkind]
          cases op <;> decide
        obtain ⟨hs, rfl⟩ := expect_eq_ok hend hsign
        obtain ⟨v, rfl, hv⟩ := hoperand p₂ right p₃ hright
        obtain ⟨w, rfl, hw⟩ := ih _ p₃ e q hchain
        exact ⟨sign :: v ++ w, by simp, .operand hkind.symm hv hw⟩

theorem reads_tier (bound : Nat) :
    Reads (tier level.operator bound operand) (.expr (.binary level)) := by
  intro p e q h
  simp only [tier, bind_eq_ok] at h
  obtain ⟨left, p₁, hleft, hchain⟩ := h
  obtain ⟨v, rfl, hv⟩ := hoperand p left p₁ hleft
  obtain ⟨w, rfl, hw⟩ := reads_chain hoperand bound left p₁ e q hchain
  exact ⟨v ++ w, by simp, .binary hv hw⟩

end

theorem reads_equality {unary : Parse Expr} (hunary : Reads unary (.expr .unary))
    (bound : Nat) : Reads (equality bound unary) (.expr (.binary .equality)) := by
  have hmul : Reads (tier multiplicativeOp bound unary) (.expr (.binary .multiplicative)) :=
    @reads_tier .multiplicative _ hunary bound
  have hadd : Reads (tier additiveOp bound _) (.expr (.binary .additive)) :=
    @reads_tier .additive _ hmul bound
  have hrel : Reads (tier relationalOp bound _) (.expr (.binary .relational)) :=
    @reads_tier .relational _ hadd bound
  exact @reads_tier .equality _ hrel bound

/-! ## Assignments -/

section
variable {expr : Parse Expr} (hexpr : Reads expr (.expr .assignment))
include hexpr

theorem reads_nameAssignment : Reads (nameAssignment expr) (.expr .assignment) := by
  intro p e q h
  simp only [nameAssignment, bind_eq_ok] at h
  obtain ⟨l, p₁, hl, name, p₂, hname, sign, p₃, hsign, e', p₄, he, hpure⟩ := h
  cases hl
  cases hpure
  obtain ⟨t, ht, rfl, rfl⟩ := identifier_eq_ok hname
  obtain ⟨hs, rfl⟩ := expect_eq_ok (by decide) hsign
  obtain ⟨w, rfl, hw⟩ := hexpr p₃ e' q he
  exact ⟨t :: sign :: w, by simp, .assign ht hs hw⟩

theorem reads_elementAssignment : Reads (elementAssignment expr) (.expr .assignment) := by
  intro p e q h
  simp only [elementAssignment, bind_eq_ok] at h
  obtain ⟨l, p₁, hl, name, p₂, hname, opening, p₃, hopen, i, p₄, hi, closing, p₅, hclose,
    sign, p₆, hsign, e', p₇, he, hpure⟩ := h
  cases hl
  cases hpure
  obtain ⟨t, ht, rfl, rfl⟩ := identifier_eq_ok hname
  obtain ⟨ho, rfl⟩ := expect_eq_ok (by decide) hopen
  obtain ⟨v, rfl, hv⟩ := hexpr p₃ i p₄ hi
  obtain ⟨hc, rfl⟩ := expect_eq_ok (by decide) hclose
  obtain ⟨hs, rfl⟩ := expect_eq_ok (by decide) hsign
  obtain ⟨w, rfl, hw⟩ := hexpr p₆ e' q he
  exact ⟨t :: opening :: v ++ closing :: sign :: w, by simp, .assignElement ht ho hc hs hv hw⟩

theorem reads_expressionWith (bound : Nat) :
    Reads (expressionWith expr bound) (.expr .assignment) := by
  intro p e q h
  rw [expressionWith_eq] at h
  split at h
  · exact reads_nameAssignment hexpr p e q h
  · split at h
    · exact reads_elementAssignment hexpr p e q h
    · have hunary := reads_unary (reads_value hexpr bound) bound
      obtain ⟨w, hp, hw⟩ := reads_equality hunary bound p e q h
      exact ⟨w, hp, .equality hw⟩

end

/-- What reading an expression has read derives it. -/
theorem reads_expression (bound : Nat) : Reads (expression bound) (.expr .assignment) := by
  induction bound with
  | zero => exact fun p e q h => by cases h
  | succ bound ih => exact reads_expressionWith ih (bound + 1)

end Grammar
end PocketC
