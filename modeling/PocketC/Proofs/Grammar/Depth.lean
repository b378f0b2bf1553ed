/-
  PocketC.Proofs.Grammar.Depth

  How deep the readings without bounds recur.  `Ranked r d` says that the readings `r` end
  wherever so few tokens are left that a depth of `d` is enough for them.  A reading that
  recurs on as many tokens as it was given itself recurs to one of a lower rank, and the
  others have passed over a token; so one turn of the readings makes a depth of one more
  enough, and four times as many turns as there are tokens left are enough for everything.
-/

import PocketC.Proofs.Grammar.Progress
import PocketC.Proofs.Grammar.Completeness

namespace PocketC

open Parse Grammar

namespace Readings

/-! ## Ranks -/

/-- What a depth of `d` is enough for: four for each of `n` tokens left, and the rank of the
    reading.  There the readings end as the grammar's do with bounds that are not below `n`, and a
    success leaves as many tokens fewer as is said. -/
structure Ranked (r : Readings) (d : Nat) : Prop where
  assignBehind : ∀ {s depth offset}, offset ≤ s.length → s.length < offset + d →
    r.assignBehind s (depth + 1) offset = some (some (assignFollows depth (s.rest.drop offset)))
  bracket : ∀ {s}, s.sees .openBracket 1 = true → s.length ≤ d →
    r.assignBehind s 0 1 = some (some (assignFollows 0 (s.rest.drop 2)))
  unary : ∀ {n b m}, 4 * n + 1 ≤ d → n ≤ b + 1 → n ≤ m →
    EndsAs n 1 r.unary (Grammar.unary (Grammar.value (Grammar.expression b) (b + 1)) m)
  chain : ∀ {n b m level left}, 4 * n + 1 ≤ d → n ≤ b + 1 → n ≤ m →
    EndsAs n 0 (r.chain level left)
      (Grammar.chain level.operator (operandWithin b level) m left)
  expression : ∀ {n b}, 4 * n + 2 ≤ d → n ≤ b → EndsAs n 1 r.expression (Grammar.expression b)
  expressions : ∀ {n b m}, 4 * n + 3 ≤ d → n ≤ b → n ≤ m →
    EndsAs n 1 r.expressions (sequence (Grammar.expression b) m)
  groups : ∀ {n b m type}, 4 * n + 1 ≤ d → n ≤ b → n ≤ m →
    EndsAs n 1 (r.groups type) (sequence (Grammar.declarator type b) m)
  statement : ∀ {n b}, 4 * n + 3 ≤ d → n ≤ b → EndsAs n 1 r.statement (Grammar.statement b)
  statements : ∀ {n b m}, 4 * n + 4 ≤ d → n ≤ b → n ≤ m →
    EndsAs n 0 r.statements (manyUntil .closeBrace (Grammar.statement b) m)
  paramList : ∀ {n m}, 4 * n + 1 ≤ d → n ≤ m → EndsAs n 1 r.paramList (sequence param m)
  nodes : ∀ {n b m}, 4 * n + 1 ≤ d → n ≤ b → n ≤ m →
    EndsAs n 0 r.nodes (manyUntil .endOfInput (Grammar.topLevel b) m)

variable {r : Readings} {d n b m : Nat}

/-! ## The search for the end of an index -/

theorem peek_of_drop_nil {s : Cursor} {offset : Nat} (h : s.rest.drop offset = []) :
    s.peek offset = .endAt s.endLocation :=
  Cursor.peek_of_length_le (List.drop_eq_nil_iff.mp h)

theorem peek_of_drop_cons {s : Cursor} {offset : Nat} {t : Token} {ts : List Token}
    (h : s.rest.drop offset = t :: ts) :
    s.peek offset = t ∧ offset < s.length ∧ s.rest.drop (offset + 1) = ts := by
  have hlt : offset < s.rest.length := by
    refine Nat.lt_of_not_le fun hle => ?_
    rw [List.drop_eq_nil_of_le hle] at h
    cases h
  rw [List.drop_eq_getElem_cons hlt] at h
  obtain ⟨ht, hts⟩ := List.cons.inj h
  exact ⟨by rw [Cursor.peek, List.getElem?_eq_getElem hlt, Option.getD_some, ht], hlt, hts⟩

/-- The token a row begins with is the one the cursor sees there. -/
theorem sees_eq_any_head (s : Cursor) (offset : Nat) {k : Kind} (hk : k ≠ .endOfInput) :
    s.sees k offset = (s.rest.drop offset).head?.any (·.kind == k) := by
  cases hdrop : s.rest.drop offset with
  | nil =>
      rw [Cursor.sees, peek_of_drop_nil hdrop]
      exact beq_false_of_ne hk.symm
  | cons t ts =>
      rw [Cursor.sees, (peek_of_drop_cons hdrop).1]
      rfl

/-- A token that is seen is there. -/
theorem lt_length_of_sees {s : Cursor} {offset : Nat} {k : Kind} (hk : k ≠ .endOfInput)
    (h : s.sees k offset = true) : offset < s.length := by
  refine Nat.lt_of_not_le fun hle => hk ?_
  rw [Cursor.sees, Cursor.peek_of_length_le hle] at h
  exact (beq_iff_eq.mp h).symm

namespace Ranked

/-- A turn of the search passes over a token, and the search ends where there is none. -/
theorem assignBehind_turn (h : Ranked r d) {s : Cursor} {depth offset : Nat}
    (hlt : s.length < offset + (d + 1)) :
    r.turn.assignBehind s (depth + 1) offset =
      some (some (assignFollows depth (s.rest.drop offset))) := by
  cases hdrop : s.rest.drop offset with
  | nil => simp [turn, peek_of_drop_nil hdrop, Token.endAt, assignFollows]
  | cons t ts =>
      obtain ⟨hpeek, hoffset, hts⟩ := peek_of_drop_cons hdrop
      have hnext : ∀ depth, r.assignBehind s (depth + 1) (offset + 1) =
          some (some (assignFollows depth ts)) := by
        intro depth
        rw [← hts]
        exact h.assignBehind hoffset (by omega)
      cases hk : t.kind with
      | openBracket => simp only [turn, hpeek, assignFollows, hk, hnext]
      | closeBracket =>
          cases depth with
          | zero =>
              have hseen : s.sees .assign (offset + 1) = _ :=
                sees_eq_any_head s (offset + 1) (by decide)
              simp only [turn, hpeek, assignFollows, hk, hseen, hts]
          | succ depth => simp only [turn, hpeek, assignFollows, hk, hnext]
      | endOfInput => simp only [turn, hpeek, assignFollows, hk]
      | _ => simp only [turn, hpeek, assignFollows, hk, hnext]

/-- The search begins at a bracket that opens, so that there is one to close. -/
theorem bracket_turn (h : Ranked r d) {s : Cursor} (hopen : s.sees .openBracket 1 = true)
    (hd : s.length ≤ d + 1) :
    r.turn.assignBehind s 0 1 = some (some (assignFollows 0 (s.rest.drop 2))) := by
  have hkind : (s.peek 1).kind = .openBracket := beq_iff_eq.mp hopen
  simp only [turn, hkind]
  exact h.assignBehind (lt_length_of_sees (by decide) hopen) (by omega)

/-- The search answers what the grammar does. -/
theorem elementAssignmentNext (h : Ranked r d) {s : Cursor} (hd : s.length ≤ d) :
    r.elementAssignmentNext s = some (some (Grammar.elementAssignmentNext s)) := by
  unfold Readings.elementAssignmentNext Grammar.elementAssignmentNext
  cases hopen : s.sees .openBracket 1 with
  | false => simp
  | true => cases s.sees .identifier 0 <;> simp [h.bracket hopen hd]

theorem atElementAssignment (h : Ranked r d) (hd : n ≤ d) :
    EndsAs n 0 r.atElementAssignment Grammar.atElementAssignment where
  ends p hp := by
    unfold Readings.atElementAssignment
    rw [h.elementAssignmentNext (Nat.le_trans hp hd)]
    rfl
  leaves _ _ := Nat.le_refl _

/-! ## Expressions -/

theorem arguments (h : Ranked r d) {stop : Kind} (hd : 4 * n + 3 ≤ d) (hb : n ≤ b) (hm : n ≤ m) :
    EndsAs n 0 (r.arguments stop) (listUntil stop (Grammar.expression b) m) :=
  .listUntil (h.expressions hd hb hm)

theorem call (h : Ranked r d) (hd : 4 * n ≤ d) (hb : n ≤ b + 1) (hm : n ≤ m) :
    EndsAs n 1 r.call (Grammar.call (Grammar.expression b) m) := by
  refine .here fun l => .identifier fun hname name => ?_
  refine .expect (by decide) fun hopen _ => ?_
  refine (h.arguments (by omega) (by omega) (by omega)).bind fun _ args => ?_
  exact .expect (by decide) fun _ _ => .pure _

theorem nameOrElement (h : Ranked r d) (hd : 4 * n ≤ d) (hb : n ≤ b + 1) :
    EndsAs n 1 r.nameOrElement (Grammar.nameOrElement (Grammar.expression b)) := by
  refine .here fun l => .identifier fun hname name => ?_
  refine .accept (by decide) (fun hopen => ?_) (.pure _)
  exact (h.expression (by omega) (by omega)).andThen fun index =>
    .expect (by decide) fun _ _ => .pure _

theorem arrayLiteral (h : Ranked r d) (hd : 4 * n ≤ d) (hb : n ≤ b + 1) (hm : n ≤ m) :
    EndsAs n 1 r.arrayLiteral (Grammar.arrayLiteral (Grammar.expression b) m) := by
  refine .expect (by decide) fun hopen token => ?_
  refine (h.arguments (by omega) (by omega) (by omega)).bind fun _ elements => ?_
  exact .expect (by decide) fun _ _ => .pure _

theorem parenthesized (h : Ranked r d) (hd : 4 * n ≤ d) (hb : n ≤ b + 1) :
    EndsAs n 1 r.parenthesized (Grammar.parenthesized (Grammar.expression b)) := by
  refine .expect (by decide) fun hopen _ => ?_
  exact (h.expression (by omega) (by omega)).andThen fun e =>
    .expect (by decide) fun _ _ => .pure _

theorem value (h : Ranked r d) (hd : 4 * n ≤ d) (hb : n ≤ b + 1) (hm : n ≤ m) :
    EndsAs n 1 r.value (Grammar.value (Grammar.expression b) m) := by
  refine .peek fun token => ?_
  cases token.kind with
  | intLiteral => exact .step (leaves_literal (by decide) _ _)
  | stringLiteral => exact .step (leaves_literal (by decide) _ _)
  | charLiteral => exact .step (leaves_literal (by decide) _ _)
  | openBrace => exact h.arrayLiteral hd hb hm
  | identifier => exact .sees (h.call hd hb hm) (h.nameOrElement hd hb)
  | _ => exact h.parenthesized hd hb

/-- A unary expression has passed over its sign, or is a value. -/
theorem unary_turn (h : Ranked r d) (hd : 4 * n ≤ d) (hb : n ≤ b + 1) (hm : n ≤ m) :
    EndsAs n 1 r.turn.unary (Grammar.unary (Grammar.value (Grammar.expression b) (b + 1)) m) := by
  refine .ofSucc (fun m hm => ?_) (fun p hend => ?_) hm
  · refine .here fun l => .accept (by decide) (fun hminus => ?_) (h.value hd hb hb)
    exact (h.unary (by omega) (by omega) (by omega)).andThen fun e => .pure _
  · have hminus : p.next ≠ .minus := by
      rw [hend]
      decide
    rw [unary_value 0 hminus, unary_value 1 hminus]

theorem tier (h : Ranked r d) {level : BinaryTier} {operand : Unbounded Expr}
    (hd : 4 * n + 1 ≤ d) (hb : n ≤ b + 1) (hoperand : EndsAs n 1 operand (operandWithin b level)) :
    EndsAs n 1 (r.tier level operand)
      (Grammar.tier level.operator (b + 1) (operandWithin b level)) := by
  refine hoperand.bind fun hpos left => ?_
  exact (h.chain hd hb hb).mono (by omega) (Nat.zero_le _)

theorem operand (h : Ranked r d) (level : BinaryTier) (hd : 4 * n + 1 ≤ d) (hb : n ≤ b + 1) :
    EndsAs n 1 (r.operand level) (operandWithin b level) := by
  have hunary : EndsAs n 1 r.unary (operandWithin b .multiplicative) := h.unary hd hb hb
  have hmultiplicative : EndsAs n 1 _ (operandWithin b .additive) := h.tier hd hb hunary
  have hadditive : EndsAs n 1 _ (operandWithin b .relational) := h.tier hd hb hmultiplicative
  cases level with
  | multiplicative => exact hunary
  | additive => exact hmultiplicative
  | relational => exact hadditive
  | equality => exact h.tier hd hb hadditive

/-- An operator of a chain is passed over, and so is the operand behind it. -/
theorem chain_turn (h : Ranked r d) {level : BinaryTier} {left : Expr} (hd : 4 * n ≤ d)
    (hb : n ≤ b + 1) (hm : n ≤ m) : EndsAs n 0 (r.turn.chain level left)
      (Grammar.chain level.operator (operandWithin b level) m left) := by
  refine .ofSucc (x := fun m => Grammar.chain level.operator (operandWithin b level) m left)
    (fun m hm => .peek fun token => ?_) (fun p hend => ?_) hm
  · cases hop : level.operator token.kind with
    | none => exact .pure left
    | some op =>
        have hkind : token.kind ≠ .endOfInput := by
          rw [← (BinaryTier.operator_eq_some_iff.mp hop).2]
          cases op <;> decide
        -- what is left behind the operator is enough for its operand and for the next round
        refine .expect hkind fun hsign _ => ?_
        refine (h.operand level (by omega) (by omega)).andThen fun right => ?_
        exact h.chain (by omega) (by omega) (by omega)
  · have hsettled : (Tier.binary level).Settled p.next := by
      rw [hend]
      exact Tier.settled_of_none rfl
    rw [chain_settled left hsettled, chain_settled left hsettled]

theorem nameAssignment (h : Ranked r d) (hd : 4 * n ≤ d) (hb : n ≤ b + 1) :
    EndsAs n 1 r.nameAssignment (Grammar.nameAssignment (Grammar.expression b)) := by
  refine .here fun l => .identifier fun hname name => ?_
  refine .expect (by decide) fun hsign _ => ?_
  exact (h.expression (by omega) (by omega)).andThen fun value => .pure _

theorem elementAssignment (h : Ranked r d) (hd : 4 * n ≤ d) (hb : n ≤ b + 1) :
    EndsAs n 1 r.elementAssignment (Grammar.elementAssignment (Grammar.expression b)) := by
  refine .here fun l => .identifier fun hname name => ?_
  refine .expect (by decide) fun hopen _ => ?_
  refine (h.expression (by omega) (by omega)).andThen fun index => ?_
  refine .expect (by decide) fun hclose _ => .expect (by decide) fun hsign _ => ?_
  exact (h.expression (by omega) (by omega)).andThen fun value => .pure _

/-- An expression in an expression is behind a token of it. -/
theorem expression_turn (h : Ranked r d) (hd : 4 * n + 1 ≤ d) (hb : n ≤ b) :
    EndsAs n 1 r.turn.expression (Grammar.expression b) := by
  refine .ofSucc (fun b hb => ?_) (fun p hend => ?_) hb
  · refine .look (fun _ => ⟨_, rfl⟩) fun assignment => ?_
    cases assignment with
    | true => exact h.nameAssignment (by omega) hb
    | false =>
        refine (h.atElementAssignment (by omega)).bind fun _ element => ?_
        cases element with
        | true => exact h.elementAssignment (by omega) hb
        -- nothing is passed over here: the operands are of a lower rank
        | false => exact h.tier hd hb (h.operand .equality hd hb)
  · rw [expression_of_end 0 hend, expression_of_end 1 hend]

theorem expressions_turn (h : Ranked r d) (hd : 4 * n + 2 ≤ d) (hb : n ≤ b) (hm : n ≤ m) :
    EndsAs n 1 r.turn.expressions (sequence (Grammar.expression b) m) :=
  .separated (h.expression hd hb) hm fun _ _ _ =>
    h.expressions (by omega) (by omega) (by omega)

/-! ## Declarations -/

theorem arraySuffix (h : Ranked r d) (type : String) (hd : 4 * n ≤ d) (hb : n ≤ b) :
    EndsAs n 0 (r.arraySuffix type) (Grammar.arraySuffix type b) := by
  refine .accept (by decide) (fun hopen => ?_) (.pure _)
  refine .accept (by decide) (fun hclose => .pure _) ?_
  exact (h.expression (by omega) (by omega)).andThen fun size => .expect (by decide) fun _ _ =>
    .pure _

theorem declarator (h : Ranked r d) (type : String) (hd : 4 * n ≤ d) (hb : n ≤ b) :
    EndsAs n 1 (r.declarator type) (Grammar.declarator type b) := by
  refine .here fun l => .identifier fun hname name => ?_
  refine (h.arraySuffix type (by omega) (by omega)).andThen fun suffix => ?_
  refine .accept (by decide) (fun hassign => ?_) (.pure _)
  exact (h.expression (by omega) (by omega)).andThen fun value => .pure _

theorem groups_turn (h : Ranked r d) (type : String) (hd : 4 * n ≤ d) (hb : n ≤ b) (hm : n ≤ m) :
    EndsAs n 1 (r.turn.groups type) (sequence (Grammar.declarator type b) m) :=
  .separated (h.declarator type hd hb) hm fun _ _ _ => h.groups (by omega) (by omega) (by omega)

theorem declarators (h : Ranked r d) (hd : 4 * n ≤ d) (hb : n ≤ b) :
    EndsAs n 1 r.declarators (Grammar.declarators b) :=
  .identifier fun _ type =>
    (h.groups (by omega) (by omega) (by omega)).andThen fun groups => .pure _

/-! ## Statements -/

theorem returning (h : Ranked r d) (hd : 4 * n ≤ d) (hb : n ≤ b) :
    EndsAs n 1 r.returning (Grammar.returning b) := by
  refine .expect (by decide) fun hreturn token => .sees (.pure _) ?_
  exact (h.expression (by omega) (by omega)).andThen fun value => .pure _

theorem intrinsicCall (h : Ranked r d) (hd : 4 * n ≤ d) (hb : n ≤ b) :
    EndsAs n 1 r.intrinsicCall (Grammar.intrinsicCall b) := by
  refine .expect (by decide) fun hname token => .expect (by decide) fun hopen _ => ?_
  refine (h.arguments (by omega) (by omega) (by omega)).andThen fun args => ?_
  exact .expect (by decide) fun _ _ => .pure _

theorem variablesOrExpression (h : Ranked r d) (hd : 4 * n + 2 ≤ d) (hb : n ≤ b) :
    EndsAs n 1 r.variablesOrExpression (Grammar.variablesOrExpression b) := by
  refine .look (fun _ => ⟨_, rfl⟩) fun declaration => ?_
  cases declaration with
  | true => exact h.declarators (by omega) hb
  | false => exact (h.expression hd hb).bind fun _ e => .pure _

theorem simple (h : Ranked r d) (hd : 4 * n + 2 ≤ d) (hb : n ≤ b) :
    EndsAs n 1 r.simple (Grammar.simple b) := by
  refine .peek fun token => ?_
  cases token.kind with
  | kwBreak => exact .step (leaves_jump (by decide) _)
  | kwContinue => exact .step (leaves_jump (by decide) _)
  | kwReturn => exact h.returning (by omega) hb
  | intrinsic => exact h.intrinsicCall (by omega) hb
  | _ => exact h.variablesOrExpression hd hb

theorem braces (h : Ranked r d) (hd : 4 * n ≤ d) (hb : n ≤ b + 1) (hm : n ≤ m) :
    EndsAs n 1 r.braces (Grammar.braces (Grammar.statement b) m) := by
  refine .expect (by decide) fun hopen _ => ?_
  refine (h.statements (by omega) (by omega) (by omega)).andThen fun body => ?_
  exact .expect (by decide) fun _ _ => .pure _

theorem branch (h : Ranked r d) (hd : 4 * n + 3 ≤ d) (hb : n ≤ b) :
    EndsAs n 1 r.branch (Grammar.branch (Grammar.statement b)) := by
  refine .look (fun _ => ⟨_, rfl⟩) fun declaration => ?_
  cases declaration with
  | true =>
      refine .here fun l => ?_
      exact (h.statement hd hb).bind fun _ s => .pure _
  | false => exact h.statement hd hb

theorem condition (h : Ranked r d) (hd : 4 * n ≤ d) (hb : n ≤ b) :
    EndsAs n 1 r.condition (Grammar.condition b) := by
  refine .expect (by decide) fun hopen _ => ?_
  exact (h.expression (by omega) (by omega)).andThen fun e => .expect (by decide) fun _ _ => .pure _

theorem elseBranch (h : Ranked r d) (hd : 4 * n ≤ d) (hb : n ≤ b + 1) :
    EndsAs n 0 r.elseBranch (Grammar.elseBranch (Grammar.statement b)) := by
  refine .accept (by decide) (fun helse => ?_) (.pure _)
  exact (h.branch (by omega) (by omega)).mono (Nat.le_refl _) (Nat.zero_le 1)

theorem conditional (h : Ranked r d) (hd : 4 * n ≤ d) (hb : n ≤ b + 1) :
    EndsAs n 1 r.conditional (Grammar.conditional (Grammar.statement b) (b + 1)) := by
  refine .expect (by decide) fun hif token => ?_
  refine (h.condition (by omega) (by omega)).andThen fun test => ?_
  refine (h.branch (by omega) (by omega)).andThen fun yes => ?_
  exact (h.elseBranch (by omega) (by omega)).andThen fun no => .pure _

/-- How many loops are open makes no difference to the tokens. -/
theorem loopBody (h : Ranked r d) (hd : 4 * n + 3 ≤ d) (hb : n ≤ b) :
    EndsAs n 1 r.loopBody (insideLoop (Grammar.statement b)) where
  ends p hp := by
    have hends := (h.statement hd hb).ends { p with openLoops := p.openLoops + 1 } hp
    unfold Readings.loopBody insideLoop
    rw [hends]
    cases Grammar.statement b { p with openLoops := p.openLoops + 1 } <;> rfl
  leaves p hp := by
    have hleaves := (h.statement hd hb).leaves { p with openLoops := p.openLoops + 1 } hp
    unfold insideLoop
    cases hs : Grammar.statement b { p with openLoops := p.openLoops + 1 } <;>
      rw [hs] at hleaves <;> exact hleaves

theorem whileStatement (h : Ranked r d) (hd : 4 * n ≤ d) (hb : n ≤ b + 1) :
    EndsAs n 1 r.whileStatement (Grammar.whileStatement (Grammar.statement b) (b + 1)) := by
  refine .expect (by decide) fun hwhile token => ?_
  refine (h.condition (by omega) (by omega)).andThen fun test => ?_
  exact (h.loopBody (by omega) (by omega)).andThen fun body => .pure _

theorem forStatement (h : Ranked r d) (hd : 4 * n ≤ d) (hb : n ≤ b + 1) :
    EndsAs n 1 r.forStatement (Grammar.forStatement (Grammar.statement b) (b + 1)) := by
  refine .expect (by decide) fun hfor token => .expect (by decide) fun hopen _ => ?_
  -- two tokens are passed over, so all that follows is within reach of a statement
  refine (h.variablesOrExpression (by omega) (by omega)).andThen fun init => ?_
  refine .expect (by decide) fun hfirst _ => ?_
  refine (h.expression (by omega) (by omega)).andThen fun test => ?_
  refine .expect (by decide) fun hsecond _ => ?_
  refine (h.expression (by omega) (by omega)).andThen fun step => ?_
  refine .expect (by decide) fun hclose _ => ?_
  exact (h.loopBody (by omega) (by omega)).andThen fun body => .pure _

/-- A statement in a statement is behind a token of it. -/
theorem statement_turn (h : Ranked r d) (hd : 4 * n + 2 ≤ d) (hb : n ≤ b) :
    EndsAs n 1 r.turn.statement (Grammar.statement b) := by
  refine .ofSucc (fun b hb => .peek fun token => ?_) (fun p hend => ?_) hb
  · cases token.kind with
    | openBrace =>
        refine .here fun l => ?_
        exact (h.braces (by omega) hb hb).bind fun _ body => .pure _
    | kwIf => exact h.conditional (by omega) hb
    | kwWhile => exact h.whileStatement (by omega) hb
    | kwFor => exact h.forStatement (by omega) hb
    | _ => exact (h.simple hd hb).bind fun _ s => .expect (by decide) fun _ _ => .pure _
  · rw [statement_of_end 0 hend, statement_of_end 1 hend]

theorem statements_turn (h : Ranked r d) (hd : 4 * n + 3 ≤ d) (hb : n ≤ b) (hm : n ≤ m) :
    EndsAs n 0 r.turn.statements (manyUntil .closeBrace (Grammar.statement b) m) :=
  .repeated (h.statement hd hb) hm fun _ _ _ => h.statements (by omega) (by omega) (by omega)

/-! ## Programs -/

theorem paramList_turn (h : Ranked r d) (hd : 4 * n ≤ d) (hm : n ≤ m) :
    EndsAs n 1 r.turn.paramList (sequence param m) :=
  .separated (.step leaves_param) hm fun _ _ _ => h.paramList (by omega) (by omega)

theorem params (h : Ranked r d) (hd : 4 * n + 1 ≤ d) (hb : n ≤ b) :
    EndsAs n 0 r.params (Grammar.params b) := by
  refine .sees (.pure _) (.look (fun _ => ⟨_, rfl⟩) fun void => ?_)
  cases void with
  | true => exact .expect (by decide) fun _ _ => .pure _
  | false => exact (h.paramList hd hb).mono (Nat.le_refl n) (Nat.zero_le 1)

theorem function (h : Ranked r d) (hd : 4 * n ≤ d) (hb : n ≤ b) :
    EndsAs n 1 r.function (Grammar.function b) := by
  refine .here fun l => ?_
  refine .identifier fun hresult result => .identifier fun hname name => ?_
  refine .expect (by decide) fun hopen _ => ?_
  refine (h.params (by omega) (by omega)).andThen fun ps => .expect (by decide) fun hclose _ => ?_
  refine .sees ?_ (.expect (by decide) fun _ _ => .pure _)
  exact (h.braces (by omega) (by omega) (by omega)).andThen fun body => .pure _

theorem topLevel (h : Ranked r d) (hd : 4 * n ≤ d) (hb : n ≤ b) :
    EndsAs n 1 r.topLevel (Grammar.topLevel b) := by
  refine .sees (h.function hd hb) ((h.declarators hd hb).bind fun _ s => ?_)
  exact .expect (by decide) fun _ _ => .pure _

theorem nodes_turn (h : Ranked r d) (hd : 4 * n ≤ d) (hb : n ≤ b) (hm : n ≤ m) :
    EndsAs n 0 r.turn.nodes (manyUntil .endOfInput (Grammar.topLevel b) m) :=
  .repeated (h.topLevel hd hb) hm fun _ _ _ => h.nodes (by omega) (by omega) (by omega)

theorem program (h : Ranked r d) (hd : 4 * n ≤ d) : EndsAs n 0 r.program Grammar.program := by
  refine .expect (by decide) fun hstart _ => .tokensLeft fun m hm => ?_
  refine (h.nodes (by omega) (Nat.le_refl m) (Nat.le_refl m)).bind fun _ nodes => ?_
  exact (EndsAs.step leaves_expect_end).bind fun _ _ => .pure _

/-! ## Turns -/

/-- A turn makes a depth of one more enough. -/
theorem turn (h : Ranked r d) : Ranked r.turn (d + 1) where
  assignBehind _ hlt := h.assignBehind_turn hlt
  bracket hopen hd := h.bracket_turn hopen hd
  unary hd hb hm := h.unary_turn (by omega) hb hm
  chain hd hb hm := h.chain_turn (by omega) hb hm
  expression hd hb := h.expression_turn (by omega) hb
  expressions hd hb hm := h.expressions_turn (by omega) hb hm
  groups hd hb hm := h.groups_turn _ (by omega) hb hm
  statement hd hb := h.statement_turn (by omega) hb
  statements hd hb hm := h.statements_turn (by omega) hb hm
  paramList hd hm := h.paramList_turn (by omega) hm
  nodes hd hb hm := h.nodes_turn (by omega) hb hm

end Ranked

/-- So many turns are enough for a depth of as many. -/
theorem ranked_within (d : Nat) : Ranked (within d) d := by
  induction d with
  | zero =>
      -- only a search has rank 0, and that has a bracket in front of it
      constructor
      case bracket =>
        intro s hopen hd
        have hlong := lt_length_of_sees (by decide) hopen
        omega
      all_goals
        intros
        omega
  | succ d ih => exact ih.turn

end Readings

end PocketC
