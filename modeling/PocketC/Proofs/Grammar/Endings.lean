/-
  PocketC.Proofs.Grammar.Endings

  What the next tokens have to do with the statement that is read.  It is a declaration
  exactly if two names are in front of it, which is how a branch of a conditional tells,
  and it ends in a conditional without an `else` only if there is none behind it.
-/

import PocketC.Proofs.Grammar.Forms
import PocketC.Proofs.Grammar.Soundness

namespace PocketC

/-- Whether it is a row of statements without names of its own. -/
def Stmt.isGroup : Stmt → Bool
  | group _ => true
  | _ => false

/-- A branch of a conditional is no group. -/
theorem Stmt.isGroup_enclosed (s : Stmt) (l : Location) : (s.enclosed l).isGroup = false := by
  cases s <;> rfl

theorem Stmt.openEnded_enclosed (s : Stmt) (l : Location) :
    (s.enclosed l).openEnded = s.openEnded := by
  cases s <;> rfl

/-- Behind an `else` its branch tells whether the conditional is open. -/
theorem Stmt.openEnded_ifElse (c : Expr) (yes : Stmt) {no : Stmt} (l : Location)
    (h : no.isGroup = false) : (ifElse c yes no l).openEnded = no.openEnded := by
  cases no with
  | group body => cases h
  | _ => rfl

/-! ## Results -/

namespace Parse

variable {α β : Type}

/-- What a reading gives satisfies `Q`, whatever it is that it reads. -/
def Results (x : Parse α) (Q : α → Prop) : Prop := ∀ p a q, x p = .ok a q → Q a

namespace Results

theorem pure {a : α} {Q : α → Prop} (h : Q a) : Results (pure a) Q := by
  rintro p _ q ⟨⟩
  exact h

/-- Nothing is asked of the first reading. -/
theorem bind {x : Parse α} {f : α → Parse β} {Q : β → Prop} (h : ∀ a, Results (f a) Q) :
    Results (x >>= f) Q := by
  intro p b q hb
  obtain ⟨a, r, _, hf⟩ := bind_eq_ok.mp hb
  exact h a r b q hf

end Results
end Parse

namespace Grammar

open Parse

/-! ## Choices by the next token -/

theorem simple_eq (bound : Nat) (p : Parser) :
    simple bound p = match p.next with
      | .kwBreak => jump .kwBreak .breakLoop p
      | .kwContinue => jump .kwContinue .continueLoop p
      | .kwReturn => returning bound p
      | .intrinsic => intrinsicCall bound p
      | _ => variablesOrExpression bound p := by
  rw [simple, bind_ok (peek_eq 0 p)]
  unfold Parser.next
  cases (p.cursor.peek 0).kind <;> rfl

theorem statementWith_eq (statement : Parse Stmt) (bound : Nat) (p : Parser) :
    statementWith statement bound p = match p.next with
      | .openBrace => (do
          let l ← here
          let body ← braces statement bound
          return .block body l : Parse Stmt) p
      | .kwIf => conditional statement bound p
      | .kwWhile => whileStatement statement bound p
      | .kwFor => forStatement statement bound p
      | _ => (do let s ← simple bound; let _ ← expect .semicolon; return s) p := by
  rw [statementWith, bind_ok (peek_eq 0 p)]
  unfold Parser.next
  cases (p.cursor.peek 0).kind <;> rfl

theorem jump_prepend {k : Kind} {node : Location → Stmt} {t : Token} (q : Parser)
    (ht : t.kind = k) :
    jump k node (q.prepend [t]) =
      if q.openLoops = 0 then .error ⟨.jumpOutsideLoop k, t.location⟩ q
      else .ok (node t.location) q := by
  rw [jump, bind_ok (expect_prepend [] ht), Parser.prepend_nil]
  show (if q.openLoops = 0 then _ else _ : Parse Stmt) q = _
  split <;> rfl

/-- Whether two names are next. -/
def declarationNext (p : Parser) : Bool :=
  p.cursor.sees .identifier 0 && p.cursor.sees .identifier 1

theorem atDeclaration_eq (p : Parser) : atDeclaration p = .ok (declarationNext p) p := rfl

theorem next_of_declarationNext {p : Parser} (h : declarationNext p = true) :
    p.next = .identifier := by
  rw [declarationNext, Bool.and_eq_true] at h
  exact beq_iff_eq.mp h.1

/-! ## Declarations -/

/-- The statement is no declaration, and an `else` behind it is no part of it. -/
def Closed (s : Stmt) : Prop := s.isGroup = false ∧ s.openEnded = false

theorem closed_jump {k : Kind} {node : Location → Stmt} (h : ∀ l, Closed (node l)) :
    Results (jump k node) Closed := by
  refine .bind fun token => .bind fun p => ?_
  split
  · exact fun p a q h => nomatch h
  · exact .pure (h token.location)

theorem closed_returning (bound : Nat) : Results (returning bound) Closed := by
  refine .bind fun token => .bind fun bare => ?_
  split
  · exact .pure ⟨rfl, rfl⟩
  · exact .bind fun e => .pure ⟨rfl, rfl⟩

theorem closed_intrinsicCall (bound : Nat) : Results (intrinsicCall bound) Closed :=
  .bind fun _ => .bind fun _ => .bind fun _ => .bind fun _ => .pure ⟨rfl, rfl⟩

theorem isGroup_of_variablesOrExpression {bound : Nat} {p q : Parser} {s : Stmt}
    (h : variablesOrExpression bound p = .ok s q) :
    s.isGroup = declarationNext p ∧ s.openEnded = false := by
  rw [variablesOrExpression, bind_ok (atDeclaration_eq p)] at h
  cases hd : declarationNext p with
  | true =>
      have hgroup : Results (declarators bound) fun s => s.isGroup = true ∧ s.openEnded = false :=
        .bind fun _ => .bind fun _ => .pure ⟨rfl, rfl⟩
      rw [hd, if_pos rfl] at h
      exact hgroup p s q h
  | false =>
      have hexpr : Results (do return Stmt.expression (← expression bound)) Closed :=
        .bind fun _ => .pure ⟨rfl, rfl⟩
      rw [hd, if_neg Bool.false_ne_true] at h
      exact hexpr p s q h

/-- A statement that begins with a keyword or a brace is no declaration. -/
theorem isGroup_of_keyword {x : Parse Stmt} {p q : Parser} {s : Stmt}
    (hx : Results x fun s => s.isGroup = false) (hs : x p = .ok s q)
    (hnext : p.next ≠ .identifier) : s.isGroup = declarationNext p := by
  rw [hx p s q hs]
  exact (eq_false_of_ne_true fun hd => hnext (next_of_declarationNext hd)).symm

theorem isGroup_of_simple {bound : Nat} {p q : Parser} {s : Stmt}
    (h : simple bound p = .ok s q) : s.isGroup = declarationNext p ∧ s.openEnded = false := by
  rw [simple_eq] at h
  have hkeyword : ∀ {x : Parse Stmt}, Results x Closed → x p = .ok s q → p.next ≠ .identifier →
      s.isGroup = declarationNext p ∧ s.openEnded = false := by
    intro x hx hs hnext
    exact ⟨isGroup_of_keyword (fun p a q h => (hx p a q h).1) hs hnext, (hx p s q hs).2⟩
  cases hnext : p.next with
  | kwBreak =>
      rw [hnext] at h
      exact hkeyword (closed_jump fun _ => ⟨rfl, rfl⟩) h (by rw [hnext]; decide)
  | kwContinue =>
      rw [hnext] at h
      exact hkeyword (closed_jump fun _ => ⟨rfl, rfl⟩) h (by rw [hnext]; decide)
  | kwReturn =>
      rw [hnext] at h
      exact hkeyword (closed_returning bound) h (by rw [hnext]; decide)
  | intrinsic =>
      rw [hnext] at h
      exact hkeyword (closed_intrinsicCall bound) h (by rw [hnext]; decide)
  | _ =>
      rw [hnext] at h
      exact isGroup_of_variablesOrExpression h

/-- A statement that is read is a declaration exactly if two names are in front. -/
theorem isGroup_of_statement {b : Nat} {p q : Parser} {s : Stmt}
    (h : statement b p = .ok s q) : s.isGroup = declarationNext p := by
  cases b with
  | zero => cases h
  | succ b =>
      rw [statement, statementWith_eq] at h
      cases hnext : p.next with
      | openBrace =>
          rw [hnext] at h
          dsimp only at h
          refine isGroup_of_keyword ?_ h (by rw [hnext]; decide)
          exact .bind fun _ => .bind fun _ => .pure rfl
      | kwIf =>
          rw [hnext] at h
          dsimp only at h
          refine isGroup_of_keyword ?_ h (by rw [hnext]; decide)
          exact .bind fun _ => .bind fun _ => .bind fun _ => .bind fun _ => .pure rfl
      | kwWhile =>
          rw [hnext] at h
          dsimp only at h
          refine isGroup_of_keyword ?_ h (by rw [hnext]; decide)
          exact .bind fun _ => .bind fun _ => .bind fun _ => .pure rfl
      | kwFor =>
          rw [hnext] at h
          dsimp only at h
          refine isGroup_of_keyword ?_ h (by rw [hnext]; decide)
          exact .bind fun _ => .bind fun _ => .bind fun _ => .bind fun _ => .bind fun _ =>
            .bind fun _ => .bind fun _ => .bind fun _ => .bind fun _ => .pure rfl
      | _ =>
          rw [hnext] at h
          simp only [bind_eq_ok] at h
          obtain ⟨_, _, hs, _, _, _, hpure⟩ := h
          cases hpure
          exact (isGroup_of_simple hs).1

/-- A branch of a conditional is the statement that is read, in a block if it is a
    declaration. -/
theorem branch_eq (b : Nat) :
    branch (statement b) = (do
      let l ← here
      let s ← statement b
      return s.enclosed l) := by
  funext p
  rw [branch, bind_ok (atDeclaration_eq p), bind_ok (here_eq p)]
  cases hs : statement b p with
  | ok s q =>
      have hgroup := isGroup_of_statement hs
      cases hd : declarationNext p with
      | true =>
          rw [hd] at hgroup
          rw [if_pos rfl, bind_ok (here_eq p), bind_ok hs, bind_ok hs]
          cases s with
          | group ss => rfl
          | _ => cases hgroup
      | false =>
          rw [hd] at hgroup
          rw [if_neg Bool.false_ne_true, bind_ok hs, hs]
          cases s with
          | group ss => cases hgroup
          | _ => rfl
  | error e q =>
      rw [bind_apply, hs]
      split
      · rw [bind_ok (here_eq p), bind_apply, hs]
      · exact hs

/-! ## Open statements -/

theorem isGroup_of_branch (b : Nat) :
    Results (branch (statement b)) fun s => s.isGroup = false := by
  rw [branch_eq]
  exact .bind fun l => .bind fun s => .pure (s.isGroup_enclosed l)

theorem elseBranch_none {x : Parse Stmt} {p : Parser} (hp : p.next ≠ .kwElse) :
    elseBranch x p = .ok (.group []) p := by
  rw [elseBranch, bind_ok (accept_of_ne hp)]
  rfl

/-- Where the reading gives an open statement, no `else` is next. -/
def LeavesNoElse (x : Parse Stmt) : Prop :=
  ∀ p s q, x p = .ok s q → s.openEnded = true → q.next ≠ .kwElse

namespace LeavesNoElse

variable {α : Type} {x : Parse Stmt}

theorem ofResults (h : Results x fun s => s.openEnded = false) : LeavesNoElse x := by
  intro p s q hs hopen
  rw [h p s q hs] at hopen
  cases hopen

/-- Nothing is asked of the first reading. -/
theorem bind {y : Parse α} {f : α → Parse Stmt} (h : ∀ a, LeavesNoElse (f a)) :
    LeavesNoElse (y >>= f) := by
  intro p s q hs
  obtain ⟨a, r, _, hf⟩ := bind_eq_ok.mp hs
  exact h a r s q hf

/-- A statement that ends in another one is open as that one is. -/
theorem map {node : Stmt → Stmt} (h : LeavesNoElse x)
    (hnode : ∀ s, (node s).openEnded = s.openEnded) : LeavesNoElse (do return node (← x)) := by
  intro p s q hs hopen
  obtain ⟨t, r, ht, hpure⟩ := bind_eq_ok.mp hs
  cases hpure
  rw [hnode] at hopen
  exact h p t q ht hopen

/-- A loop ends where its body does. -/
theorem insideLoop (h : LeavesNoElse x) : LeavesNoElse (insideLoop x) := by
  intro p s q hs hopen
  unfold Parse.insideLoop at hs
  split at hs
  · rename_i hinner
    cases hs
    have hlast := h _ _ _ hinner hopen
    exact hlast
  · cases hs

end LeavesNoElse

section
variable {b : Nat} (h : LeavesNoElse (statement b))
include h

theorem leavesNoElse_branch : LeavesNoElse (branch (statement b)) := by
  rw [branch_eq]
  exact .bind fun l => h.map fun s => s.openEnded_enclosed l

theorem leavesNoElse_conditional (bound : Nat) :
    LeavesNoElse (conditional (statement b) bound) := by
  refine .bind fun token => .bind fun test => .bind fun yes => ?_
  intro p s q hs hopen
  obtain ⟨no, r, helse, hpure⟩ := bind_eq_ok.mp hs
  cases hpure
  rw [elseBranch] at helse
  obtain ⟨other, r, haccept, hno⟩ := bind_eq_ok.mp helse
  -- without an `else` none was next, and with one the conditional is open as its branch is
  cases other with
  | true =>
      rw [if_pos rfl] at hno
      rw [Stmt.openEnded_ifElse test yes token.location (isGroup_of_branch b r no q hno)] at hopen
      exact leavesNoElse_branch h r no q hno hopen
  | false =>
      cases hno
      rw [accept_eq] at haccept
      split at haccept
      · cases haccept
      · cases haccept
        assumption

theorem leavesNoElse_whileStatement (bound : Nat) :
    LeavesNoElse (whileStatement (statement b) bound) :=
  .bind fun _ => .bind fun _ => h.insideLoop.map fun _ => rfl

theorem leavesNoElse_forStatement (bound : Nat) :
    LeavesNoElse (forStatement (statement b) bound) :=
  .bind fun _ => .bind fun _ => .bind fun _ => .bind fun _ => .bind fun _ => .bind fun _ =>
    .bind fun _ => .bind fun _ => h.insideLoop.map fun _ => rfl

end

/-- No `else` is next where a statement ends that it would belong to. -/
theorem leavesNoElse_statement (b : Nat) : LeavesNoElse (statement b) := by
  induction b with
  | zero => exact fun _ _ _ h => nomatch h
  | succ b ih =>
      intro p s q h
      rw [statement, statementWith_eq] at h
      cases hnext : p.next with
      | openBrace =>
          rw [hnext] at h
          refine LeavesNoElse.bind (fun l => LeavesNoElse.bind fun body => ?_) p s q h
          exact .ofResults (.pure rfl)
      | kwIf =>
          rw [hnext] at h
          exact leavesNoElse_conditional ih (b + 1) p s q h
      | kwWhile =>
          rw [hnext] at h
          exact leavesNoElse_whileStatement ih (b + 1) p s q h
      | kwFor =>
          rw [hnext] at h
          exact leavesNoElse_forStatement ih (b + 1) p s q h
      | _ =>
          rw [hnext] at h
          simp only [bind_eq_ok] at h
          obtain ⟨_, _, hs, _, _, _, hpure⟩ := h
          cases hpure
          rw [(isGroup_of_simple hs).2]
          exact nofun

end Grammar
end PocketC
