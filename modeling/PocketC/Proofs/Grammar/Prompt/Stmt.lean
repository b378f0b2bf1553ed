/-
  PocketC.Proofs.Grammar.Prompt.Stmt

  Reading a statement is prompt.  As for expressions there is one lemma for each reading,
  about inner statements whose reading is prompt.  An `else` is read with the innermost
  conditional that has none, so no `else` is next behind a branch that is open.
-/

import PocketC.Proofs.Grammar.Endings
import PocketC.Proofs.Grammar.Prompt.Expr

namespace PocketC
namespace Grammar

open Parse

variable {loops : Nat}

/-! ## Variables -/

theorem prompt_arraySuffix (type : String) (b b' : Nat) :
    Prompt loops b b' (Suffix type) (arraySuffix type b) (arraySuffix type b') := by
  refine .accept (by decide) (fun opening ho => ?_) (.pure .none)
  refine .accept (by decide) (fun closing hc => .pure (.unsized ho hc)) ?_
  refine ((prompt_expression loops b b').le (by omega) (by omega)).bind fun e w he => ?_
  exact .expect (by decide) fun closing hc => .pure (.sized ho hc he)

theorem prompt_declaratorAfter (type : String) {name : Token} (hn : name.kind = .identifier)
    (b b' : Nat) :
    Prompt loops b b' (fun ss w => Declarator type ss (name :: w))
      (declaratorAfter type b name) (declaratorAfter type b' name) := by
  refine (prompt_arraySuffix type b b').bind fun suffix v hv => ?_
  refine .accept (by decide) (fun sign hs => ?_) (.pure ?_)
  · refine ((prompt_expression loops b b').le (by omega) (by omega)).bind fun e w he => .pure ?_
    rw [List.append_nil]
    exact .initialized hn hv hs he
  · rw [List.append_nil]
    exact .bare hn hv

theorem prompt_declarator (type : String) (b b' : Nat) :
    Prompt loops b b' (Declarator type) (declarator type b) (declarator type b') := by
  rw [declarator_eq, declarator_eq]
  refine .expect (by decide) fun name hn => ?_
  exact (prompt_declaratorAfter type hn b b').le (by omega) (by omega)

theorem prompt_declaratorsAfter {type : Token} (ht : type.kind = .identifier) (b b' : Nat) :
    Prompt loops b b' (fun s w => Variables s (type :: w)) (declaratorsAfter b type)
      (declaratorsAfter b' type) := by
  have hone : Prompt loops b b' (Declarator type.text) (declarator type.text b)
      (declarator type.text b') := prompt_declarator type.text b b'
  have hlist := hone.sequence (fun _ _ h => h.ne_nil) b b'
  refine (hlist.le (by omega) (by omega)).bind fun groups w hgroups => .pure ?_
  rw [List.append_nil]
  exact .intro ht hgroups

theorem prompt_variablesOrExpression (b b' : Nat) :
    Prompt loops (b + 1) (b' + 1) VariablesOrExpression (variablesOrExpression (b + 1))
      (variablesOrExpression (b' + 1)) := by
  have hname : Prompt loops (b + 1) (b' + 1) VariablesOrExpression
      (expect .identifier >>= variablesOrExpressionAfter b)
      (expect .identifier >>= variablesOrExpressionAfter b') := by
    refine .expect (by decide) fun first hn => .sees ?_ ?_
    · refine ((prompt_declaratorsAfter hn (b + 1) (b' + 1)).le (by omega) (by omega)).mono ?_
      exact fun s w hs => .declaration hs
    · have hexpr := prompt_expression loops b b'
      refine (prompt_expressionAfter (Nat.le_refl _) (Nat.le_refl _) hexpr hn).bind ?_
      intro e w he
      refine .pure ?_
      rw [List.append_nil]
      exact .expression he
  have hother : Prompt loops (b + 1) (b' + 1) VariablesOrExpression
      (do return Stmt.expression (← expression (b + 1)))
      (do return Stmt.expression (← expression (b' + 1))) := by
    refine (prompt_expression loops (b + 1) (b' + 1)).bind fun e w he => .pure ?_
    rw [List.append_nil]
    exact .expression he
  exact hname.byNext hother (fun _ hp => variablesOrExpression_name hp)
    (fun _ hp => variablesOrExpression_other hp) (fun _ hp => variablesOrExpression_name hp)
    fun _ hp => variablesOrExpression_other hp

/-! ## Simple statements -/

/-- A jump outside of a loop is reported at once. -/
theorem promptAt_jump {room : Nat} {L : Rows Stmt} {k : Kind} {node : Location → Stmt} {p : Parser}
    (hk : k ≠ .endOfInput)
    (hL : ∀ t : Token, t.kind = k → p.openLoops ≠ 0 → L (node t.location) [t])
    (hp : p.next = k) : PromptAt room L (jump k node) (jump k node) p := by
  obtain ⟨t, q, ht, rfl⟩ := Parser.exists_prepend_of_next hp hk
  have hinside : Inside [t] := inside_singleton (ht ▸ hk)
  unfold PromptAt
  rw [jump_prepend q ht]
  split
  · rename_i hzero
    refine .blamed [] t rfl hinside ⟨rfl, ht⟩ rfl fun q' hq _ => ?_
    rw [List.nil_append, jump_prepend q' ht, if_pos (hq.trans hzero)]
  · rename_i hopen
    refine .ok [t] rfl hinside (hL t ht hopen) fun q' hq _ => ?_
    rw [jump_prepend q' ht, if_neg (by rw [hq.openLoops]; exact hopen)]

theorem prompt_returning (b b' : Nat) :
    Prompt loops (b + 1) (b' + 1) (Simple loops) (returning (b + 1)) (returning (b' + 1)) := by
  refine .expect (by decide) fun t ht => .sees (.pure (.done ht)) ?_
  refine ((prompt_expression loops _ _).le (by omega) (by omega)).bind fun e w he => .pure ?_
  rw [List.append_nil]
  exact .value ht he

theorem prompt_intrinsicCall (b b' : Nat) :
    Prompt loops (b + 1) (b' + 1) (Simple loops) (intrinsicCall (b + 1))
      (intrinsicCall (b' + 1)) := by
  refine .expect (by decide) fun name hn => .expect (by decide) fun opening ho => ?_
  have hargs := prompt_args (prompt_expression loops (b + 1) (b' + 1)) (Nat.le_refl _)
    (Nat.le_refl _) .closeParen
  refine (hargs.le (by omega) (by omega)).bind fun es w hes => ?_
  exact .expect (by decide) fun closing hc => .pure (.intrinsic hn ho hc hes)

theorem prompt_simple (b b' : Nat) :
    Prompt loops (b + 1) (b' + 1) (Simple loops) (simple (b + 1)) (simple (b' + 1)) where
  reads p hp hlen := by
    have hother : Prompt loops (b + 1) (b' + 1) (Simple loops) (variablesOrExpression (b + 1))
        (variablesOrExpression (b' + 1)) :=
      (prompt_variablesOrExpression b b').mono fun s w hs => .other hs
    cases hnext : p.next with
    | kwBreak =>
        have hjump : PromptAt (b' + 1) (Simple loops) (jump .kwBreak .breakLoop)
            (jump .kwBreak .breakLoop) p :=
          promptAt_jump (by decide) (fun t ht hopen => .leave ht (hp ▸ hopen)) hnext
        refine hjump.congrNext ?_ ?_ <;>
          intro q hq <;> rw [simple_eq, hq, hnext]
    | kwContinue =>
        have hjump : PromptAt (b' + 1) (Simple loops) (jump .kwContinue .continueLoop)
            (jump .kwContinue .continueLoop) p :=
          promptAt_jump (by decide) (fun t ht hopen => .next ht (hp ▸ hopen)) hnext
        refine hjump.congrNext ?_ ?_ <;>
          intro q hq <;> rw [simple_eq, hq, hnext]
    | kwReturn =>
        refine ((prompt_returning b b').reads p hp hlen).congrNext ?_ ?_ <;>
          intro q hq <;> rw [simple_eq, hq, hnext]
    | intrinsic =>
        refine ((prompt_intrinsicCall b b').reads p hp hlen).congrNext ?_ ?_ <;>
          intro q hq <;> rw [simple_eq, hq, hnext]
    | _ =>
        refine (hother.reads p hp hlen).congrNext ?_ ?_ <;>
          intro q hq <;> rw [simple_eq, hq, hnext]
  some := ⟨_, _, .done (t := ⟨.kwReturn, none, .start⟩) rfl⟩

/-! ## Compound statements -/

theorem prompt_condition (b b' : Nat) :
    Prompt loops b b' (fun e w => ∃ opening closing v, opening.kind = .openParen ∧
        closing.kind = .closeParen ∧ Expression e v ∧ w = opening :: v ++ [closing])
      (condition b) (condition b') := by
  refine .expect (by decide) fun opening ho => ?_
  refine ((prompt_expression loops b b').le (by omega) (by omega)).bind fun e w he => ?_
  exact .expect (by decide) fun closing hc => .pure ⟨opening, closing, w, ho, hc, he, rfl⟩

/-- A statement that a `;` ends, where no brace is in front. -/
theorem promptAt_simpleStatement {b b' : Nat} {p : Parser} (hp : p.openLoops = loops)
    (hlen : p.cursor.length ≤ b + 1) (hbrace : p.next ≠ .openBrace) :
    PromptAt (b' + 1) (fun s w => Forms loops (.statement s) w)
      (do let s ← simple (b + 1); let _ ← expect .semicolon; return s)
      (do let s ← simple (b' + 1); let _ ← expect .semicolon; return s) p := by
  have hsimple := (prompt_simple b b').reads p hp hlen
  -- a row that begins with a brace would be formed as a block
  have hfirst := hsimple.first (P := fun t => t.kind ≠ .openBrace) (fun _ _ h => h.ne_nil) hbrace
    ⟨_, _, _, by decide, .done (t := ⟨.kwReturn, none, .start⟩) rfl⟩
  refine hfirst.bind ?_ ?_
  · rintro s q w - rfl ⟨hs, t, ts, rfl, ht⟩
    have hsemi : Prompt loops (b + 1) (b' + 1 - (t :: ts).length)
        (fun a w => Forms loops (.statement a) (t :: ts ++ w))
        (do let _ ← expect .semicolon; return s) (do let _ ← expect .semicolon; return s) :=
      .expect (by decide) fun semi hsemi => .pure (.simple hs ht hsemi)
    rw [Parser.length_prepend] at hlen
    exact hsemi.reads q hp (by omega)
  · rintro s w ⟨hs, t, ts, rfl, ht⟩
    exact ⟨s, [⟨.semicolon, none, .start⟩], .simple hs ht rfl⟩

/-- Behind an open branch an `else` would have been read with it. -/
theorem promptAt_elseBranch {b b' room : Nat} {keyword opening closing : Token} {c : Expr}
    {yes : Stmt} {u v : List Token} {q : Parser} (hk : keyword.kind = .kwIf)
    (ho : opening.kind = .openParen) (hc : closing.kind = .closeParen) (hu : Expression c u)
    (hyes : Forms loops (.branch yes) v) (hq : q.next ≠ .kwElse) :
    PromptAt room
      (fun s w => Forms loops (.statement s) (keyword :: opening :: u ++ closing :: (v ++ w)))
      (do let no ← elseBranch (statement b)
          return Stmt.ifElse c yes no keyword.location)
      (do let no ← elseBranch (statement b')
          return Stmt.ifElse c yes no keyword.location) q := by
  have hnone : ∀ (b : Nat) (q : Parser), q.next ≠ .kwElse →
      (do let no ← elseBranch (statement b)
          return Stmt.ifElse c yes no keyword.location) q =
        .ok (.ifElse c yes (.group []) keyword.location) q := by
    intro b q hq
    rw [bind_ok (elseBranch_none hq)]
    rfl
  have hpure : PromptAt room
      (fun s w => Forms loops (.statement s) (keyword :: opening :: u ++ closing :: (v ++ w)))
      (pure (.ifElse c yes (.group []) keyword.location))
      (pure (.ifElse c yes (.group []) keyword.location)) q := by
    refine .pure ?_
    rw [List.append_nil]
    exact .ifThen hk ho hc hu hyes
  exact hpure.congrNext (fun r hr => hnone b r (hr ▸ hq)) fun r hr => hnone b' r (hr ▸ hq)

section
variable {b b' size room : Nat} (hsize : size ≤ b) (hroom : room ≤ b')
  (hstatement : ∀ loops, Prompt loops size room (fun s w => Forms loops (.statement s) w)
    (statement b) (statement b'))
include hstatement

theorem prompt_bracesAfter (loops : Nat) {n n' : Nat} (hn : size ≤ n) (hn' : room ≤ n') :
    Prompt loops size room (fun ss w => ∃ closing v, closing.kind = .closeBrace ∧
        Forms loops (.statements ss) v ∧ w = v ++ [closing])
      (bracesAfter (statement b) n) (bracesAfter (statement b') n') := by
  have hne : ∀ (s : Stmt) (w : List Token), Forms loops (.statement s) w → w ≠ [] := by
    intro s w h
    obtain ⟨t, ts, rfl⟩ := h.exists_cons
    exact List.cons_ne_nil t ts
  have hmany := (hstatement loops).manyUntil hne .closeBrace n n'
  refine (hmany.le (by omega) (by omega)).bind fun ss w hss => ?_
  exact .expect (by decide) fun closing hc => .pure ⟨closing, w, hc, .ofRepeated hss, rfl⟩

theorem prompt_branch :
    Prompt loops size room (fun s w => Forms loops (.branch s) w) (branch (statement b))
      (branch (statement b')) where
  reads p hp hlen := by
    rw [branch_eq, branch_eq]
    refine .look (fun t => t.location) (fun _ => rfl) ?_
    refine ((hstatement loops).reads p hp hlen).bind ?_ ?_
    · rintro s q w - rfl hs
      obtain ⟨t, ts, rfl⟩ := hs.exists_cons
      refine .pure ?_
      rw [List.append_nil]
      exact .branch hs
    · intro s w hs
      obtain ⟨t, ts, rfl⟩ := hs.exists_cons
      refine ⟨s.enclosed t.location, [], ?_⟩
      rw [List.append_nil]
      exact .branch hs
  some := Forms.exists_branch loops

section
variable {keyword opening closing : Token} {c : Expr} {u : List Token} (hk : keyword.kind = .kwIf)
  (ho : opening.kind = .openParen) (hc : closing.kind = .closeParen) (hu : Expression c u)
include hk ho hc hu

/-- What is behind a closed branch, an `else` with another one or nothing. -/
theorem prompt_elseBranch {yes : Stmt} {v : List Token} (hyes : Forms loops (.branch yes) v)
    (hclosed : yes.openEnded = false) :
    Prompt loops size room
      (fun s w => Forms loops (.statement s) (keyword :: opening :: u ++ closing :: (v ++ w)))
      (do let no ← elseBranch (statement b)
          return Stmt.ifElse c yes no keyword.location)
      (do let no ← elseBranch (statement b')
          return Stmt.ifElse c yes no keyword.location) := by
  rw [elseBranch, elseBranch, bind_assoc, bind_assoc]
  refine .accept (by decide) (fun other hother => ?_) (.pure ?_)
  · refine ((prompt_branch hstatement).le (by omega) (by omega)).bind fun no w hno => .pure ?_
    rw [List.append_nil]
    have hall := Forms.ifElse hk ho hc hu hyes hclosed hother hno
    simpa using hall
  · rw [List.append_nil]
    exact .ifThen hk ho hc hu hyes

/-- The branches of a conditional, behind its condition. -/
theorem prompt_branches :
    Prompt loops size room
      (fun s w => Forms loops (.statement s) (keyword :: opening :: u ++ closing :: w))
      (do let yes ← branch (statement b)
          let no ← elseBranch (statement b)
          return .ifElse c yes no keyword.location)
      (do let yes ← branch (statement b')
          let no ← elseBranch (statement b')
          return .ifElse c yes no keyword.location) where
  reads p hp hlen := by
    refine ((prompt_branch hstatement).reads p hp hlen).bind ?_ fun yes v hyes =>
      ⟨_, [], by rw [List.append_nil]; exact .ifThen hk ho hc hu hyes⟩
    rintro yes q v hread rfl hyes
    rw [Parser.length_prepend] at hlen
    cases hopen : yes.openEnded with
    | true =>
        refine promptAt_elseBranch hk ho hc hu hyes ?_
        exact leavesNoElse_branch (leavesNoElse_statement b) _ yes q hread hopen
    | false =>
        have helse := (prompt_elseBranch hstatement hk ho hc hu hyes hopen).reads q hp (by omega)
        exact helse.le (Nat.sub_le room v.length)
  some := by
    obtain ⟨yes, v, hyes⟩ := Forms.exists_branch loops
    exact ⟨_, v, .ifThen hk ho hc hu hyes⟩

end

include hsize hroom

theorem prompt_conditional :
    Prompt loops (size + 1) (room + 1) (fun s w => Forms loops (.statement s) w)
      (conditional (statement b) (b + 1)) (conditional (statement b') (b' + 1)) := by
  refine .expect (by decide) fun keyword hk => ?_
  refine ((prompt_condition (b + 1) (b' + 1)).le (by omega) (by omega)).bind ?_
  rintro c _ ⟨opening, closing, u, ho, hc, hu, rfl⟩
  refine ((prompt_branches hstatement hk ho hc hu).le (by omega) (by omega)).mono fun s w hs => ?_
  simpa using hs

theorem prompt_whileStatement :
    Prompt loops (size + 1) (room + 1) (fun s w => Forms loops (.statement s) w)
      (whileStatement (statement b) (b + 1)) (whileStatement (statement b') (b' + 1)) := by
  refine .expect (by decide) fun keyword hk => ?_
  refine ((prompt_condition (b + 1) (b' + 1)).le (by omega) (by omega)).bind ?_
  rintro c _ ⟨opening, closing, u, ho, hc, hu, rfl⟩
  have hbody := (hstatement (loops + 1)).insideLoop
  refine (hbody.le (by omega) (by omega)).bind fun body w hbody => .pure ?_
  have hall := Forms.whileLoop hk ho hc hu hbody
  simpa using hall

theorem prompt_forStatement :
    Prompt loops (size + 1) (room + 1) (fun s w => Forms loops (.statement s) w)
      (forStatement (statement b) (b + 1)) (forStatement (statement b') (b' + 1)) := by
  have hexpr := prompt_expression loops (b + 1) (b' + 1)
  refine .expect (by decide) fun keyword hk => .expect (by decide) fun opening ho => ?_
  refine ((prompt_variablesOrExpression b b').le (by omega) (by omega)).bind fun init t ht => ?_
  refine .expect (by decide) fun semi hs => ?_
  refine (hexpr.le (by omega) (by omega)).bind fun c u hu => ?_
  refine .expect (by decide) fun semi' hs' => ?_
  refine (hexpr.le (by omega) (by omega)).bind fun step v hv => ?_
  refine .expect (by decide) fun closing hc => ?_
  have hbody := (hstatement (loops + 1)).insideLoop
  refine (hbody.le (by omega) (by omega)).bind fun body w hbody => .pure ?_
  have hall := Forms.forLoop hk ho ht hs hu hs' hv hc hbody
  simpa using hall

theorem prompt_block :
    Prompt loops (size + 1) (room + 1) (fun s w => Forms loops (.statement s) w)
      (do let l ← here; let body ← braces (statement b) (b + 1); return .block body l)
      (do let l ← here; let body ← braces (statement b') (b' + 1); return .block body l) := by
  rw [block_eq, block_eq]
  refine .expect (by decide) fun opening ho => ?_
  have hbody := prompt_bracesAfter hstatement loops (Nat.le_succ_of_le hsize)
    (Nat.le_succ_of_le hroom)
  refine (hbody.le (by omega) (by omega)).bind ?_
  rintro ss _ ⟨closing, w, hc, hss, rfl⟩
  refine .pure ?_
  rw [List.append_nil]
  exact .block ho hc hss

theorem prompt_statementWith :
    Prompt loops (size + 1) (room + 1) (fun s w => Forms loops (.statement s) w)
      (statement (b + 1)) (statement (b' + 1)) where
  reads p hp hlen := by
    rw [statement, statement]
    cases hnext : p.next with
    | openBrace =>
        refine ((prompt_block hsize hroom hstatement).reads p hp hlen).congrNext ?_ ?_ <;>
          intro q hq <;> rw [statementWith_eq, hq, hnext]
    | kwIf =>
        refine ((prompt_conditional hsize hroom hstatement).reads p hp hlen).congrNext ?_ ?_ <;>
          intro q hq <;> rw [statementWith_eq, hq, hnext]
    | kwWhile =>
        refine ((prompt_whileStatement hsize hroom hstatement).reads p hp hlen).congrNext ?_ ?_ <;>
          intro q hq <;> rw [statementWith_eq, hq, hnext]
    | kwFor =>
        refine ((prompt_forStatement hsize hroom hstatement).reads p hp hlen).congrNext ?_ ?_ <;>
          intro q hq <;> rw [statementWith_eq, hq, hnext]
    | _ =>
        have hbrace : (p.cursor.peek 0).kind ≠ .openBrace := by
          show p.next ≠ .openBrace
          rw [hnext]
          decide
        have hlen' : p.cursor.length ≤ b + 1 := Nat.le_trans hlen (Nat.succ_le_succ hsize)
        have hsimple : PromptAt (b' + 1) (fun s w => Forms loops (.statement s) w) _ _ p :=
          promptAt_simpleStatement hp hlen' hbrace
        refine (hsimple.le (Nat.succ_le_succ hroom)).congrNext ?_ ?_ <;>
          intro q hq <;> rw [statementWith_eq, hq, hnext]
  some := Forms.exists_statement loops

end

/-- With no tokens left, a statement is missed as an expression is. -/
theorem statement_of_end {p : Parser} (b : Nat) (hp : p.next = .endOfInput) :
    statement b p = .error (p.cursor.mismatch .openParen) p := by
  cases b with
  | zero => rfl
  | succ b =>
      have hexpr : variablesOrExpression (b + 1) p = .error (p.cursor.mismatch .openParen) p := by
        rw [variablesOrExpression_other (by rw [hp]; decide), bind_apply, expression_of_end _ hp]
      rw [statement, statementWith_eq, hp]
      dsimp only
      rw [bind_apply, simple_eq, hp]
      dsimp only
      rw [hexpr]

/-- Reading a statement is prompt. -/
theorem prompt_statement (b b' loops : Nat) :
    Prompt loops b b' (fun s w => Forms loops (.statement s) w) (statement b) (statement b') := by
  have hall := Prompt.bounded b b' id (fun loops s w => Forms loops (.statement s) w)
    (fun n _ => statement n) (fun n _ => statement n) ?_ ?_ ?_ b b' loops
  · exact hall.le (Nat.le_of_eq (Nat.min_self _).symm) (Nat.le_of_eq (Nat.min_self _).symm)
  · intro n loops p p' _ hlen hp' _
    have hend : p'.next = .endOfInput := hp'.next.trans (Parser.next_of_length_le_zero hlen)
    rw [statement_of_end (n + 1) hend, statement_of_end n hend]
  · intro loops
    have hsome := Forms.exists_statement loops
    exact ⟨fun p _ _ => .unexpected .openParen hsome, hsome⟩
  · intro n n' ih loops
    exact (prompt_statementWith (by omega) (by omega) ih).le (by omega) (by omega)

end Grammar
end PocketC
