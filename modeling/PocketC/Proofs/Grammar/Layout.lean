/-
  PocketC.Proofs.Grammar.Layout

  Layout does not matter for reading.  Two rows of tokens of the same kinds and texts are
  read in the same way, wherever their tokens stand: the trees differ in the places of
  their nodes alone, and so do the errors.  There is one lemma for each reading, which puts
  together the rules of its steps.
-/

import PocketC.Grammar.Program
import PocketC.Proofs.Grammar.Parallel
import PocketC.Proofs.Tree.Alike

namespace PocketC
namespace Grammar

open Parse Location

/-! ## Expressions -/

theorem parallel_literal {α : Type} (k : Kind) (meaning : String → Option α)
    {node : α → Location → Expr} (hnode : ∀ a l l', (node a l).Alike Anywhere (node a l')) :
    Alike (literal k meaning node) (literal k meaning node) (Expr.Alike Anywhere) := by
  refine .bind (.expect k) fun t u htu => ?_
  rw [Token.text_of_unplaced htu, Token.kind_of_unplaced htu]
  -- whether the literal has a meaning is a matter of its text
  cases meaning u.text with
  | some a => exact .pure (hnode a _ _)
  | none => exact .misfit _ _ _

section
variable {expr : Parse Expr} (hexpr : Alike expr expr (Expr.Alike Anywhere)) (bound : Nat)
include hexpr

theorem parallel_exprs (stop : Kind) :
    Alike (listUntil stop expr bound) (listUntil stop expr bound) (Expr.AlikeAll Anywhere) :=
  .listUntil stop hexpr .nil (fun _ _ _ _ => .cons) bound

theorem parallel_call :
    Alike (call expr bound) (call expr bound) (Expr.Alike Anywhere) := by
  refine .bind .here fun _ _ _ => .bindEq .identifier fun name => ?_
  refine .bind (.expect _) fun _ _ _ => ?_
  refine .bind (parallel_exprs hexpr bound _) fun args args' hargs => ?_
  exact .bind (.expect _) fun _ _ _ => .pure (.call name hargs trivial)

theorem parallel_nameOrElement :
    Alike (nameOrElement expr) (nameOrElement expr) (Expr.Alike Anywhere) := by
  refine .bind .here fun _ _ _ => .bindEq .identifier fun name => ?_
  refine .bindEq (.accept _) fun opened => ?_
  cases opened with
  | true =>
      refine .bind hexpr fun index index' hindex => ?_
      exact .bind (.expect _) fun _ _ _ => .pure (.element name hindex trivial)
  | false => exact .pure (.var name trivial)

theorem parallel_arrayLiteral :
    Alike (arrayLiteral expr bound) (arrayLiteral expr bound) (Expr.Alike Anywhere) := by
  refine .bind (.expect _) fun _ _ _ => ?_
  refine .bind (parallel_exprs hexpr bound _) fun es es' hes => ?_
  exact .bind (.expect _) fun _ _ _ => .pure (.array hes trivial)

theorem parallel_parenthesized :
    Alike (parenthesized expr) (parenthesized expr) (Expr.Alike Anywhere) := by
  refine .bind (.expect _) fun _ _ _ => .bind hexpr fun e e' he => ?_
  exact .bind (.expect _) fun _ _ _ => .pure he

theorem parallel_value :
    Alike (value expr bound) (value expr bound) (Expr.Alike Anywhere) := by
  refine .bind (.peek 0) fun t u htu => ?_
  rw [Token.kind_of_unplaced htu]
  split
  · exact parallel_literal _ _ fun n _ _ => .int n trivial
  · exact parallel_literal _ _ fun s _ _ => .string s trivial
  · exact parallel_literal _ _ fun c _ _ => .char c trivial
  · exact parallel_arrayLiteral hexpr bound
  · refine .bindEq (.sees _ 1) fun called => ?_
    cases called with
    | true => exact parallel_call hexpr bound
    | false => exact parallel_nameOrElement hexpr
  · exact parallel_parenthesized hexpr

end

theorem parallel_unary {value : Parse Expr}
    (hvalue : Alike value value (Expr.Alike Anywhere)) (bound : Nat) :
    Alike (unary value bound) (unary value bound) (Expr.Alike Anywhere) := by
  induction bound with
  | zero => exact hvalue
  | succ bound ih =>
      rw [unary]
      refine .bind .here fun _ _ _ => .bindEq (.accept _) fun negated => ?_
      cases negated with
      | true => exact .bind ih fun e e' he => .pure (.negate he trivial)
      | false => exact hvalue

section
variable {operand : Parse Expr} (hoperand : Alike operand operand (Expr.Alike Anywhere))
include hoperand

theorem parallel_chain (operator : Kind → Option BinaryOp) (bound : Nat) :
    ∀ left left' : Expr, left.Alike Anywhere left' →
      Alike (chain operator operand bound left) (chain operator operand bound left')
        (Expr.Alike Anywhere) := by
  induction bound with
  | zero => exact fun _ _ hleft => .pure hleft
  | succ bound ih =>
      intro left left' hleft
      rw [chain, chain]
      refine .bind (.peek 0) fun t u htu => ?_
      rw [Token.kind_of_unplaced htu]
      -- both chains end here, or go on with the same operator
      cases operator u.kind with
      | none => exact .pure hleft
      | some op =>
          refine .bind (.expect _) fun _ _ _ => .bind hoperand fun right right' hright => ?_
          exact ih _ _ (.binary op hleft hright trivial)

theorem parallel_tier (operator : Kind → Option BinaryOp) (bound : Nat) :
    Alike (tier operator bound operand) (tier operator bound operand)
      (Expr.Alike Anywhere) :=
  .bind hoperand (parallel_chain hoperand operator bound)

theorem parallel_equality (bound : Nat) :
    Alike (equality bound operand) (equality bound operand) (Expr.Alike Anywhere) :=
  parallel_tier (parallel_tier (parallel_tier (parallel_tier hoperand _ bound) _ bound) _ bound)
    _ bound

end

/-! ### Assignments -/

theorem headIs_unplaced (k : Kind) (ts : List Token) :
    ts.head?.any (·.kind == k) = (ts.map Token.unplaced).head?.any (·.kind == k) := by
  cases ts <;> rfl

/-- Whether an assignment follows depends on the kinds of the tokens. -/
theorem assignFollows_of_unplaced (depth : Nat) {ts us : List Token}
    (h : ts.map Token.unplaced = us.map Token.unplaced) :
    assignFollows depth ts = assignFollows depth us := by
  induction ts generalizing depth us with
  | nil =>
      rw [List.map_nil, eq_comm, List.map_eq_nil_iff] at h
      rw [h]
  | cons t ts ih =>
      cases us with
      | nil => cases h
      | cons u us =>
          obtain ⟨htu, hrest⟩ := List.cons.inj h
          rw [assignFollows.eq_def, assignFollows.eq_def]
          dsimp only
          rw [Token.kind_of_unplaced htu, headIs_unplaced .assign ts, hrest,
            ← headIs_unplaced .assign us]
          split
          · exact ih _ hrest
          · rfl
          · exact ih _ hrest
          · rfl
          · exact ih _ hrest

theorem parallel_atElementAssignment :
    Alike atElementAssignment atElementAssignment Eq := by
  refine .ofLook (fun _ => rfl) (fun _ => rfl) fun p p' hp => ?_
  -- the closing bracket is searched behind the name and the opening one
  have hrest : (p.cursor.rest.drop 2).map Token.unplaced =
      (p'.cursor.rest.drop 2).map Token.unplaced := by
    rw [List.map_drop, List.map_drop, hp.rest]
  rw [elementAssignmentNext, elementAssignmentNext, hp.sees, hp.sees,
    assignFollows_of_unplaced 0 hrest]

theorem parallel_atAssignment : Alike atAssignment atAssignment Eq := by
  refine .ofLook (fun _ => rfl) (fun _ => rfl) fun p p' hp => ?_
  rw [hp.sees, hp.sees]

section
variable {expr : Parse Expr} (hexpr : Alike expr expr (Expr.Alike Anywhere))
include hexpr

theorem parallel_nameAssignment :
    Alike (nameAssignment expr) (nameAssignment expr) (Expr.Alike Anywhere) := by
  refine .bind .here fun _ _ _ => .bindEq .identifier fun name => ?_
  refine .bind (.expect _) fun _ _ _ => .bind hexpr fun e e' he => ?_
  exact .pure (.assign name he trivial)

theorem parallel_elementAssignment :
    Alike (elementAssignment expr) (elementAssignment expr) (Expr.Alike Anywhere) := by
  refine .bind .here fun _ _ _ => .bindEq .identifier fun name => ?_
  refine .bind (.expect _) fun _ _ _ => .bind hexpr fun index index' hindex => ?_
  refine .bind (.expect _) fun _ _ _ => .bind (.expect _) fun _ _ _ => ?_
  exact .bind hexpr fun e e' he => .pure (.assignElement name hindex he trivial)

theorem parallel_expressionWith (bound : Nat) :
    Alike (expressionWith expr bound) (expressionWith expr bound)
      (Expr.Alike Anywhere) := by
  refine .bindEq parallel_atAssignment fun named => ?_
  cases named with
  | true => exact parallel_nameAssignment hexpr
  | false =>
      refine .bindEq parallel_atElementAssignment fun indexed => ?_
      cases indexed with
      | true => exact parallel_elementAssignment hexpr
      | false => exact parallel_equality (parallel_unary (parallel_value hexpr bound) bound) bound

end

theorem parallel_expression (bound : Nat) :
    Alike (expression bound) (expression bound) (Expr.Alike Anywhere) := by
  induction bound with
  | zero => exact .unexpected _
  | succ bound ih => exact parallel_expressionWith ih (bound + 1)

/-! ## Statements -/

theorem parallel_arraySuffix (type : String) (bound : Nat) :
    Alike (arraySuffix type bound) (arraySuffix type bound) fun r r' =>
      r.1 = r'.1 ∧ Option.Rel (Expr.Alike Anywhere) r.2 r'.2 := by
  refine .bindEq (.accept _) fun opened => ?_
  cases opened with
  | false => exact .pure ⟨rfl, .none⟩
  | true =>
      refine .bindEq (.accept _) fun closed => ?_
      cases closed with
      | true => exact .pure ⟨rfl, .none⟩
      | false =>
          refine .bind (parallel_expression bound) fun size size' hsize => ?_
          exact .bind (.expect _) fun _ _ _ => .pure ⟨rfl, .some hsize⟩

theorem parallel_declarator (type : String) (bound : Nat) :
    Alike (declarator type bound) (declarator type bound) (Stmt.AlikeAll Anywhere) := by
  refine .bind .here fun _ _ _ => .bindEq .identifier fun name => ?_
  refine .bind (parallel_arraySuffix type bound) ?_
  rintro ⟨type, size⟩ ⟨type', size'⟩ ⟨htype, hsize⟩
  cases htype
  have hdeclare : ∀ l l', Stmt.Alike Anywhere (.declareVar name type size l)
      (.declareVar name type size' l') := fun _ _ => .declareVar name type hsize trivial
  refine .bindEq (.accept _) fun assigned => ?_
  cases assigned with
  | true =>
      refine .bind (parallel_expression bound) fun e e' he => .pure ?_
      exact .cons (hdeclare _ _) (.cons (.expression (.assign name he trivial)) .nil)
  | false => exact .pure (.cons (hdeclare _ _) .nil)

theorem parallel_declarators (bound : Nat) :
    Alike (declarators bound) (declarators bound) (Stmt.Alike Anywhere) := by
  refine .bindEq .identifier fun type => ?_
  have hgroups : Alike (sequence (declarator type bound) bound)
      (sequence (declarator type bound) bound)
      (fun groups groups' => Stmt.AlikeAll Anywhere groups.flatten groups'.flatten) :=
    .sequence (parallel_declarator type bound) .nil (fun _ _ _ _ hg hgs => hg.append hgs) bound
  exact .bind hgroups fun _ _ h => .pure (.group h)

theorem parallel_jump (keyword : Kind) {node : Location → Stmt}
    (hnode : ∀ l l', (node l).Alike Anywhere (node l')) :
    Alike (jump keyword node) (jump keyword node) (Stmt.Alike Anywhere) := by
  refine .bind (.expect _) fun t u _ => ?_
  -- how many loops are open is the same for both
  have hloops : Alike (get : Parse Parser) get fun p p' => p.openLoops = p'.openLoops :=
    .ofLook (fun _ => rfl) (fun _ => rfl) fun _ _ hp => hp.openLoops
  refine .bind hloops fun p p' hp => ?_
  rw [hp]
  split
  · exact .misfit _ _ _
  · exact .pure (hnode _ _)

theorem parallel_returning (bound : Nat) :
    Alike (returning bound) (returning bound) (Stmt.Alike Anywhere) := by
  refine .bind (.expect _) fun _ _ _ => .bindEq (.sees _ 0) fun bare => ?_
  cases bare with
  | true => exact .pure (.returnValue .none trivial)
  | false =>
      exact .bind (parallel_expression bound) fun e e' he => .pure (.returnValue (.some he) trivial)

theorem parallel_intrinsicCall (bound : Nat) :
    Alike (intrinsicCall bound) (intrinsicCall bound) (Stmt.Alike Anywhere) := by
  refine .bind (.expect _) fun t u htu => .bind (.expect _) fun _ _ _ => ?_
  refine .bind (parallel_exprs (parallel_expression bound) bound _) fun args args' hargs => ?_
  refine .bind (.expect _) fun _ _ _ => ?_
  rw [Token.text_of_unplaced htu]
  exact .pure (.intrinsic u.text hargs trivial)

theorem parallel_atDeclaration : Alike atDeclaration atDeclaration Eq := by
  refine .ofLook (fun _ => rfl) (fun _ => rfl) fun p p' hp => ?_
  rw [hp.sees, hp.sees]

theorem parallel_variablesOrExpression (bound : Nat) :
    Alike (variablesOrExpression bound) (variablesOrExpression bound)
      (Stmt.Alike Anywhere) := by
  refine .bindEq parallel_atDeclaration fun declares => ?_
  cases declares with
  | true => exact parallel_declarators bound
  | false => exact .bind (parallel_expression bound) fun e e' he => .pure (.expression he)

theorem parallel_simple (bound : Nat) :
    Alike (simple bound) (simple bound) (Stmt.Alike Anywhere) := by
  refine .bind (.peek 0) fun t u htu => ?_
  rw [Token.kind_of_unplaced htu]
  split
  · exact parallel_jump _ fun _ _ => .breakLoop trivial
  · exact parallel_jump _ fun _ _ => .continueLoop trivial
  · exact parallel_returning bound
  · exact parallel_intrinsicCall bound
  · exact parallel_variablesOrExpression bound

theorem parallel_condition (bound : Nat) :
    Alike (condition bound) (condition bound) (Expr.Alike Anywhere) :=
  parallel_parenthesized (parallel_expression bound)

section
variable {statement : Parse Stmt}
variable (hstatement : Alike statement statement (Stmt.Alike Anywhere)) (bound : Nat)
include hstatement

theorem parallel_stmts (stop : Kind) :
    Alike (manyUntil stop statement bound) (manyUntil stop statement bound)
      (Stmt.AlikeAll Anywhere) :=
  .manyUntil stop hstatement .nil (fun _ _ _ _ => .cons) bound

theorem parallel_braces :
    Alike (braces statement bound) (braces statement bound) (Stmt.AlikeAll Anywhere) := by
  refine .bind (.expect _) fun _ _ _ => ?_
  refine .bind (parallel_stmts hstatement bound _) fun body body' hbody => ?_
  exact .bind (.expect _) fun _ _ _ => .pure hbody

theorem parallel_branch :
    Alike (branch statement) (branch statement) (Stmt.Alike Anywhere) := by
  refine .bindEq parallel_atDeclaration fun declares => ?_
  cases declares with
  | true =>
      refine .bind .here fun _ _ _ => .bind hstatement fun s s' hs => ?_
      exact .pure (.block (.cons hs .nil) trivial)
  | false => exact hstatement

theorem parallel_elseBranch :
    Alike (elseBranch statement) (elseBranch statement) (Stmt.Alike Anywhere) := by
  refine .bindEq (.accept _) fun written => ?_
  cases written with
  | true => exact parallel_branch hstatement
  | false => exact .pure (.group .nil)

theorem parallel_conditional :
    Alike (conditional statement bound) (conditional statement bound)
      (Stmt.Alike Anywhere) := by
  refine .bind (.expect _) fun _ _ _ => .bind (parallel_condition bound) fun test test' htest => ?_
  refine .bind (parallel_branch hstatement) fun yes yes' hyes => ?_
  refine .bind (parallel_elseBranch hstatement) fun no no' hno => ?_
  exact .pure (.ifElse htest hyes hno trivial)

theorem parallel_whileStatement :
    Alike (whileStatement statement bound) (whileStatement statement bound)
      (Stmt.Alike Anywhere) := by
  refine .bind (.expect _) fun _ _ _ => .bind (parallel_condition bound) fun test test' htest => ?_
  refine .bind (.insideLoop hstatement) fun body body' hbody => ?_
  exact .pure (.whileLoop htest hbody trivial)

theorem parallel_forStatement :
    Alike (forStatement statement bound) (forStatement statement bound)
      (Stmt.Alike Anywhere) := by
  refine .bind (.expect _) fun _ _ _ => .bind (.expect _) fun _ _ _ => ?_
  refine .bind (parallel_variablesOrExpression bound) fun init init' hinit => ?_
  refine .bind (.expect _) fun _ _ _ => ?_
  refine .bind (parallel_expression bound) fun test test' htest => ?_
  refine .bind (.expect _) fun _ _ _ => ?_
  refine .bind (parallel_expression bound) fun step step' hstep => ?_
  refine .bind (.expect _) fun _ _ _ => ?_
  refine .bind (.insideLoop hstatement) fun body body' hbody => ?_
  exact .pure (.forLoop hinit htest hstep hbody trivial)

theorem parallel_statementWith :
    Alike (statementWith statement bound) (statementWith statement bound)
      (Stmt.Alike Anywhere) := by
  refine .bind (.peek 0) fun t u htu => ?_
  rw [Token.kind_of_unplaced htu]
  split
  · refine .bind .here fun _ _ _ => .bind (parallel_braces hstatement bound) fun _ _ hbody => ?_
    exact .pure (.block hbody trivial)
  · exact parallel_conditional hstatement bound
  · exact parallel_whileStatement hstatement bound
  · exact parallel_forStatement hstatement bound
  · refine .bind (parallel_simple bound) fun s s' hs => ?_
    exact .bind (.expect _) fun _ _ _ => .pure hs

end

theorem parallel_statement (bound : Nat) :
    Alike (statement bound) (statement bound) (Stmt.Alike Anywhere) := by
  induction bound with
  | zero => exact .unexpected _
  | succ bound ih => exact parallel_statementWith ih (bound + 1)

/-! ## Programs -/

theorem parallel_param : Alike param param Eq := by
  refine .bindEq .identifier fun type => .bindEq .identifier fun name => ?_
  refine .bindEq (.accept _) fun opened => ?_
  cases opened with
  | true => exact .bind (.expect _) fun _ _ _ => .pure rfl
  | false => exact .pure rfl

theorem parallel_atVoid : Alike atVoid atVoid Eq := by
  refine .ofLook (fun _ => rfl) (fun _ => rfl) fun p p' hp => ?_
  rw [hp.sees, hp.sees, Token.text_of_unplaced (hp.peek 0)]

theorem parallel_params (bound : Nat) : Alike (params bound) (params bound) Eq := by
  refine .bindEq (.sees _ 0) fun none => ?_
  cases none with
  | true => exact .pure rfl
  | false =>
      refine .bindEq parallel_atVoid fun void => ?_
      cases void with
      | true => exact .bind (.expect _) fun _ _ _ => .pure rfl
      | false =>
          refine .sequence parallel_param rfl ?_ bound
          rintro p _ ps _ rfl rfl
          rfl

theorem parallel_function (bound : Nat) :
    Alike (function bound) (function bound) (Stmt.Alike Anywhere) := by
  refine .bind .here fun _ _ _ => .bindEq .identifier fun result => ?_
  refine .bindEq .identifier fun name => .bind (.expect _) fun _ _ _ => ?_
  refine .bindEq (parallel_params bound) fun ps => .bind (.expect _) fun _ _ _ => ?_
  have hdeclare : ∀ l l', Stmt.Alike Anywhere (.declareFun name result ps l)
      (.declareFun name result ps l') := fun _ _ => .declareFun name result ps trivial
  refine .bindEq (.sees _ 0) fun defined => ?_
  cases defined with
  | true =>
      refine .bind (parallel_braces (parallel_statement bound) bound) fun _ _ hbody => .pure ?_
      exact .group (.cons (hdeclare _ _) (.cons (.defineFun name result ps hbody trivial) .nil))
  | false => exact .bind (.expect _) fun _ _ _ => .pure (hdeclare _ _)

theorem parallel_topLevel (bound : Nat) :
    Alike (topLevel bound) (topLevel bound) (Stmt.Alike Anywhere) := by
  refine .bindEq (.sees _ 2) fun function => ?_
  cases function with
  | true => exact parallel_function bound
  | false =>
      refine .bind (parallel_declarators bound) fun s s' hs => ?_
      exact .bind (.expect _) fun _ _ _ => .pure hs

/-- A program is read in the same way wherever its tokens stand. -/
theorem parallel_program :
    Alike program program fun p p' => Stmt.AlikeAll Anywhere p.nodes p'.nodes := by
  refine .bind (.expect _) fun _ _ _ => .bindEq .tokensLeft fun bound => ?_
  refine .bind (parallel_stmts (parallel_topLevel bound) bound _) fun _ _ hnodes => ?_
  exact .bind (.expect _) fun _ _ _ => .pure hnodes

end Grammar
end PocketC
