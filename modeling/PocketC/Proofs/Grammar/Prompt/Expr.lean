/-
  PocketC.Proofs.Grammar.Prompt.Expr

  Reading an expression is prompt.  There is one lemma for each reading, about inner
  expressions whose reading is prompt, and the whole is by induction on the bound.
-/

import PocketC.Proofs.Grammar.Factoring
import PocketC.Proofs.Grammar.Prompt.Lists

namespace PocketC

theorem Rows.Separated.derives {es : List Expr} {w : List Token}
    (h : Rows.Separated Expression es w) : Derives (.list es) w := by
  induction h with
  | one last => exact .one last
  | more first hc _ ih => exact .more hc first ih

namespace Grammar

open Parse

/-! ## Literals -/

theorem literal_prepend {α : Type} {k : Kind} {meaning : String → Option α}
    {node : α → Location → Expr} {t : Token} (q : Parser) (ht : t.kind = k) :
    literal k meaning node (q.prepend [t]) = match meaning t.text with
      | some a => .ok (node a t.location) q
      | none => .error ⟨.unreadableLiteral k t.text, t.location⟩ q := by
  rw [literal, bind_ok (expect_prepend [] ht), Parser.prepend_nil]
  cases meaning t.text with
  | some a => rfl
  | none =>
      subst ht
      rfl

/-- A literal that has no meaning is reported at once. -/
theorem promptAt_literal {α : Type} {room : Nat} {k : Kind} {meaning : String → Option α}
    {node : α → Location → Expr} {p : Parser} (hk : k ≠ .endOfInput)
    (hder : ∀ (t : Token) (a : α), t.kind = k → meaning t.text = some a →
      Derives (.expr .value (node a t.location)) [t]) (hp : p.next = k) :
    PromptAt room (fun e w => Derives (.expr .value e) w) (literal k meaning node)
      (literal k meaning node) p := by
  obtain ⟨t, q, ht, rfl⟩ := Parser.exists_prepend_of_next hp hk
  have hinside : Inside [t] := inside_singleton (ht ▸ hk)
  unfold PromptAt
  rw [literal_prepend q ht]
  cases ha : meaning t.text with
  | some a =>
      refine .ok [t] rfl hinside (hder t a ht ha) fun q' _ _ => ?_
      rw [literal_prepend q' ht, ha]
  | none =>
      refine .blamed [] t rfl hinside ⟨rfl, ht, rfl⟩ rfl fun q' _ _ => ?_
      rw [List.nil_append, literal_prepend q' ht, ha]

/-! ## Values -/

theorem prompt_args {loops size room n n' : Nat} {x y : Parse Expr}
    (hexpr : Prompt loops size room Expression x y) (hn : size ≤ n) (hn' : room ≤ n')
    (stop : Kind) :
    Prompt loops size room (fun es w => Derives (.args es) w) (listUntil stop x n)
      (listUntil stop y n') := by
  have hlist := hexpr.listUntil (fun _ _ h => h.ne_nil) stop n n'
  refine (hlist.le (by omega) (by omega)).mono ?_
  rintro es w (⟨rfl, rfl⟩ | hes)
  · exact .noArgs
  · exact .args hes.derives

section
variable {loops b b' size room : Nat} (hsize : size ≤ b) (hroom : room ≤ b')
  (hexpr : Prompt loops size room Expression (expression b) (expression b'))
include hsize hroom hexpr

theorem prompt_valueAfter {name : Token} (hn : name.kind = .identifier) :
    Prompt loops size room (fun e w => Derives (.expr .value e) (name :: w))
      (valueAfter (expression b) (b + 1) name) (valueAfter (expression b') (b' + 1) name) := by
  refine .accept (by decide) (fun opening ho => ?_) (.accept (by decide) (fun opening ho => ?_) ?_)
  · have hargs := prompt_args hexpr (Nat.le_succ_of_le hsize) (Nat.le_succ_of_le hroom) .closeParen
    refine (hargs.le (by omega) (by omega)).bind fun es w hes => ?_
    exact .expect (by decide) fun closing hc => .pure (.call hn ho hc hes)
  · refine (hexpr.le (by omega) (by omega)).bind fun i w hi => ?_
    exact .expect (by decide) fun closing hc => .pure (.element hn ho hc hi)
  · exact .pure (.var hn)

theorem prompt_value :
    Prompt loops (size + 1) (room + 1) (fun e w => Derives (.expr .value e) w)
      (value (expression b) (b + 1)) (value (expression b') (b' + 1)) where
  reads p hp hlen := by
    have hname : Prompt loops (size + 1) (room + 1) (fun e w => Derives (.expr .value e) w)
        (expect .identifier >>= valueAfter (expression b) (b + 1))
        (expect .identifier >>= valueAfter (expression b') (b' + 1)) :=
      .expect (by decide) fun name hn => prompt_valueAfter hsize hroom hexpr hn
    have harray : Prompt loops (size + 1) (room + 1) (fun e w => Derives (.expr .value e) w)
        (arrayLiteral (expression b) (b + 1)) (arrayLiteral (expression b') (b' + 1)) := by
      have hargs := prompt_args hexpr (Nat.le_succ_of_le hsize) (Nat.le_succ_of_le hroom)
        .closeBrace
      refine .expect (by decide) fun opening ho => hargs.bind fun es w hes => ?_
      exact .expect (by decide) fun closing hc => .pure (.array ho hc hes)
    have hparen : Prompt loops (size + 1) (room + 1) (fun e w => Derives (.expr .value e) w)
        (parenthesized (expression b)) (parenthesized (expression b')) := by
      refine .expect (by decide) fun opening ho => hexpr.bind fun e w he => ?_
      exact .expect (by decide) fun closing hc => .pure (.paren ho hc he)
    -- which of them is read is seen from the next token
    cases hnext : p.next with
    | intLiteral =>
        refine (promptAt_literal (by decide) (fun _ _ => .int) hnext).congrNext ?_ ?_ <;>
          intro q hq <;> rw [value_eq, hq, hnext]
    | stringLiteral =>
        refine (promptAt_literal (by decide) (fun _ _ => .string) hnext).congrNext ?_ ?_ <;>
          intro q hq <;> rw [value_eq, hq, hnext]
    | charLiteral =>
        refine (promptAt_literal (by decide) (fun _ _ => .char) hnext).congrNext ?_ ?_ <;>
          intro q hq <;> rw [value_eq, hq, hnext]
    | openBrace =>
        refine (harray.reads p hp hlen).congrNext ?_ ?_ <;>
          intro q hq <;> rw [value_eq, hq, hnext]
    | identifier =>
        refine (hname.reads p hp hlen).congrNext ?_ ?_ <;>
          exact fun q hq => value_name (hq.trans hnext)
    | _ =>
        refine (hparen.reads p hp hlen).congrNext ?_ ?_ <;>
          intro q hq <;> rw [value_eq, hq, hnext]
  some := ⟨_, _, @Derives.var ⟨.identifier, none, .start⟩ rfl⟩

/-! ## Operators -/

theorem prompt_unary (n n' : Nat) :
    Prompt loops (min n (size + 1)) (min n' (room + 1)) (fun e w => Derives (.expr .unary e) w)
      (unary (value (expression b) (b + 1)) n) (unary (value (expression b') (b' + 1)) n') := by
  have hvalue : Prompt loops (size + 1) (room + 1) (fun e w => Derives (.expr .unary e) w)
      (value (expression b) (b + 1)) (value (expression b') (b' + 1)) :=
    (prompt_value hsize hroom hexpr).mono fun e w he => .unary he
  refine Prompt.bounded (size + 1) (room + 1) (fun (_ : Unit) => loops)
    (fun _ e w => Derives (.expr .unary e) w)
    (fun n _ => unary (value (expression b) (b + 1)) n)
    (fun n _ => unary (value (expression b') (b' + 1)) n) ?_ ?_ ?_ n n' ()
  -- with no tokens left no sign is next, and the bound is not used
  · intro n _ p p' _ hlen hp' _
    have hminus : p'.next ≠ .minus := by
      rw [hp'.next, Parser.next_of_length_le_zero hlen]
      decide
    rw [unary_value (n + 1) hminus, unary_value n hminus]
  · exact fun _ => hvalue.le (Nat.zero_le _) (Nat.le_refl _)
  · intro n n' ih _
    have hnegate : Prompt loops (min (n + 1) (size + 1)) (min (n' + 1) (room + 1))
        (fun e w => Derives (.expr .unary e) w)
        (do let sign ← expect .minus
            let operand ← unary (value (expression b) (b + 1)) n
            return .negate operand sign.location)
        (do let sign ← expect .minus
            let operand ← unary (value (expression b') (b' + 1)) n'
            return .negate operand sign.location) := by
      refine .expect (by decide) fun sign hs => ?_
      refine ((ih ()).le (by omega) (by omega)).bind fun e w he => .pure ?_
      rw [List.append_nil]
      exact .negate hs he
    exact hnegate.byNext (hvalue.le (Nat.min_le_right ..) (Nat.min_le_right ..))
      (fun _ hp => unary_minus hp) (fun _ hp => unary_value _ hp) (fun _ hp => unary_minus hp)
      fun _ hp => unary_value _ hp

end

section
variable {loops size room : Nat} {level : BinaryTier} {x y : Parse Expr}
  (hoperand : Prompt loops size room (fun e w => Derives (.expr level.operand e) w) x y)
include hoperand

theorem prompt_chain (n n' : Nat) (left : Expr) :
    Prompt loops (min n size) (min n' room) (fun e w => Derives (.operands level left e) w)
      (chain level.operator x n left) (chain level.operator y n' left) := by
  -- where no operator is next, nothing is read, whatever the bound is
  have hnone : ∀ (z : Parse Expr) (n : Nat) (left : Expr) (p : Parser),
      level.operator p.next = none → chain level.operator z n left p = .ok left p := by
    intro z n left p hp
    cases n with
    | zero => rfl
    | succ n => rw [chain_eq, hp]
  refine Prompt.bounded size room (fun _ => loops)
    (fun left e w => Derives (.operands level left e) w)
    (fun n left => chain level.operator x n left)
    (fun n left => chain level.operator y n left) ?_ ?_ ?_ n n' left
  · intro n left p p' _ hlen hp' _
    have hnext : level.operator p'.next = none := by
      rw [hp'.next, Parser.next_of_length_le_zero hlen]
      cases level <;> rfl
    rw [hnone y (n + 1) left p' hnext, hnone y n left p' hnext]
  · exact fun left => .pure .noOperand
  · intro n n' ih left
    refine ⟨fun p hp hlen => ?_, left, [], .noOperand⟩
    cases hop : level.operator p.next with
    | none =>
        have hpure : PromptAt (min (n' + 1) room) (fun e w => Derives (.operands level left e) w)
            (pure left) (pure left) p := .pure .noOperand
        refine hpure.congrNext ?_ ?_ <;> exact fun q hq => hnone _ _ left q (hq ▸ hop)
    | some op =>
        obtain ⟨rfl, hkind⟩ := BinaryTier.operator_eq_some_iff.mp hop
        have hread : Prompt loops (min (n + 1) size) (min (n' + 1) room)
            (fun e w => Derives (.operands op.level left e) w)
            (do let sign ← expect op.kind
                let right ← x
                chain op.level.operator x n (.binary op left right sign.location))
            (do let sign ← expect op.kind
                let right ← y
                chain op.level.operator y n' (.binary op left right sign.location)) := by
          refine .expect (by cases op <;> decide) fun sign hs => ?_
          refine (hoperand.le (by omega) (by omega)).bind fun right v hv => ?_
          refine ((ih _).le (by omega) (by omega)).mono fun e w he => ?_
          exact .operand hs hv he
        refine (hread.reads p hp hlen).congrNext ?_ ?_ <;>
          exact fun q hq => chain_operator rfl (hq.trans hkind.symm)

theorem prompt_tier (n n' : Nat) (hn : size ≤ n) (hn' : room ≤ n') :
    Prompt loops size room (fun e w => Derives (.expr (.binary level) e) w)
      (tier level.operator n x) (tier level.operator n' y) := by
  refine hoperand.bind fun left v hv => ?_
  refine ((prompt_chain hoperand n n' left).le (by omega) (by omega)).mono fun e w he => ?_
  exact .binary hv he

end

/-- Behind an operand all operators are read. -/
theorem prompt_operations {loops size room n n' : Nat} {x y : Parse Expr}
    (hunary : Prompt loops size room (fun e w => Derives (.expr .unary e) w) x y)
    (hn : size ≤ n) (hn' : room ≤ n') {left : Expr} {u : List Token}
    (hleft : Derives (.expr .unary left) u) :
    Prompt loops size room (fun e w => Expression e (u ++ w)) (operations n x left)
      (operations n' y left) := by
  have hmul : Prompt loops size room (fun e w => Derives (.expr BinaryTier.additive.operand e) w)
      (tier multiplicativeOp n x) (tier multiplicativeOp n' y) :=
    @prompt_tier _ _ _ .multiplicative _ _ hunary n n' hn hn'
  have hadd : Prompt loops size room (fun e w => Derives (.expr BinaryTier.relational.operand e) w)
      (tier additiveOp n _) (tier additiveOp n' _) :=
    @prompt_tier _ _ _ .additive _ _ hmul n n' hn hn'
  have hrel : Prompt loops size room (fun e w => Derives (.expr BinaryTier.equality.operand e) w)
      (tier relationalOp n _) (tier relationalOp n' _) :=
    @prompt_tier _ _ _ .relational _ _ hadd n n' hn hn'
  -- tier by tier, what is read so far is the left operand of what comes next
  have hchain₁ := @prompt_chain _ _ _ .multiplicative _ _ hunary n n' left
  refine (hchain₁.le (by omega) (by omega)).bind fun product w₁ h₁ => ?_
  have hproduct := @Derives.binary .multiplicative _ _ _ _ hleft h₁
  have hchain₂ := @prompt_chain _ _ _ .additive _ _ hmul n n' product
  refine (hchain₂.le (by omega) (by omega)).bind fun sum w₂ h₂ => ?_
  have hsum := @Derives.binary .additive _ _ _ _ hproduct h₂
  have hchain₃ := @prompt_chain _ _ _ .relational _ _ hadd n n' sum
  refine (hchain₃.le (by omega) (by omega)).bind fun comparison w₃ h₃ => ?_
  have hcomparison := @Derives.binary .relational _ _ _ _ hsum h₃
  have hchain₄ := @prompt_chain _ _ _ .equality _ _ hrel n n' comparison
  refine (hchain₄.le (by omega) (by omega)).mono fun e w₄ h₄ => ?_
  have hall := Derives.equality (@Derives.binary .equality _ _ _ _ hcomparison h₄)
  simpa only [List.append_assoc] using hall

/-! ## Expressions -/

section
variable {loops b b' size room : Nat} (hsize : size ≤ b) (hroom : room ≤ b')
  (hexpr : Prompt loops size room Expression (expression b) (expression b'))
include hsize hroom hexpr

theorem prompt_expressionAfter {name : Token} (hn : name.kind = .identifier) :
    Prompt loops size room (fun e w => Expression e (name :: w)) (expressionAfter b name)
      (expressionAfter b' name) := by
  have hunary : Prompt loops (size + 1) (room + 1) _ _ _ :=
    (prompt_unary hsize hroom hexpr (b + 1) (b' + 1)).le (by omega) (by omega)
  have hoperations : ∀ {left : Expr} {u : List Token}, Derives (.expr .value left) u →
      Prompt loops (size + 1) (room + 1) (fun e w => Expression e (u ++ w)) _ _ :=
    fun hleft => prompt_operations hunary (Nat.succ_le_succ hsize) (Nat.succ_le_succ hroom)
      (.unary hleft)
  refine .accept (by decide) (fun sign hs => ?_) (.accept (by decide) (fun opening ho => ?_) ?_)
  · refine (hexpr.le (by omega) (by omega)).bind fun e w he => .pure ?_
    rw [List.append_nil]
    exact .assign hn hs he
  · refine (hexpr.le (by omega) (by omega)).bind fun i v hi => ?_
    refine .expect (by decide) fun closing hc => .accept (by decide) (fun sign hs => ?_) ?_
    · refine (hexpr.le (by omega) (by omega)).bind fun e w he => .pure ?_
      rw [List.append_nil]
      exact .assignElement hn ho hc hs hi he
    · have helement := Derives.element hn ho hc hi
      refine ((hoperations helement).le (by omega) (by omega)).mono fun e w he => ?_
      simpa using he
  · refine (prompt_valueAfter hsize hroom hexpr hn).bind fun left v hleft => ?_
    exact (hoperations hleft).le (by omega) (by omega)

end

/-- With no tokens left, an expression is missed as a value is. -/
theorem expression_of_end {p : Parser} (b : Nat) (hp : p.next = .endOfInput) :
    expression b p = .error (p.cursor.mismatch .openParen) p := by
  cases b with
  | zero => rfl
  | succ b =>
      have hminus : p.next ≠ .minus := by rw [hp]; decide
      rw [expression_other (by rw [hp]; decide), equality_eq, bind_apply, unary_value _ hminus,
        value_eq, hp]
      dsimp only
      rw [parenthesized, bind_apply, expect_of_ne (by rw [hp]; decide)]

/-- Reading an expression is prompt. -/
theorem prompt_expression (loops b b' : Nat) :
    Prompt loops b b' Expression (expression b) (expression b') := by
  have hall := Prompt.bounded b b' (fun (_ : Unit) => loops) (fun _ => Expression)
    (fun n _ => expression n) (fun n _ => expression n) ?_ ?_ ?_ b b' ()
  · exact hall.le (Nat.le_of_eq (Nat.min_self _).symm) (Nat.le_of_eq (Nat.min_self _).symm)
  · intro n _ p p' _ hlen hp' _
    have hend : p'.next = .endOfInput := hp'.next.trans (Parser.next_of_length_le_zero hlen)
    rw [expression_of_end (n + 1) hend, expression_of_end n hend]
  · intro _
    refine ⟨fun p _ _ => .unexpected .openParen ?_, ?_⟩
    all_goals exact ⟨_, _, (@Derives.var ⟨.identifier, none, .start⟩ rfl).ofValue⟩
  · intro n n' ih _
    have hinner := ih ()
    have hname : Prompt loops (min (n + 1) b) (min (n' + 1) b') Expression
        (expect .identifier >>= expressionAfter n) (expect .identifier >>= expressionAfter n') := by
      refine .expect (by decide) fun name hn => ?_
      exact (prompt_expressionAfter (by omega) (by omega) hinner hn).le (by omega) (by omega)
    have hother : Prompt loops (min (n + 1) b) (min (n' + 1) b') Expression
        (equality (n + 1) (unary (value (expression n) (n + 1)) (n + 1)))
        (equality (n' + 1) (unary (value (expression n') (n' + 1)) (n' + 1))) := by
      have hunary : Prompt loops (min (n + 1) b) (min (n' + 1) b') _ _ _ :=
        (prompt_unary (by omega) (by omega) hinner (n + 1) (n' + 1)).le (by omega) (by omega)
      rw [equality_eq, equality_eq]
      refine hunary.bind fun left u hleft => ?_
      exact (prompt_operations hunary (by omega) (by omega) hleft).le (by omega) (by omega)
    exact hname.byNext hother (fun _ hp => expression_name hp) (fun _ hp => expression_other hp)
      (fun _ hp => expression_name hp) fun _ hp => expression_other hp

end Grammar
end PocketC
