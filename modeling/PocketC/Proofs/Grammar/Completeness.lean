/-
  PocketC.Proofs.Grammar.Completeness

  Every row of tokens that derives an expression is read as that expression, if what is
  behind the row does not go on with it.  `Completes` says for each kind of phrase which
  reading gives it; the theorem is one induction on derivations, with a lemma for each
  way to build a phrase.
-/

import PocketC.Proofs.Grammar.Lookahead

namespace PocketC

/-! ## Where a phrase ends -/

/-- The tier of the phrases that a token of this kind goes on with. -/
def Kind.continues : Kind → Option Tier
  | .openParen | .openBracket => some .value
  | .star | .slash | .percent => some (.binary .multiplicative)
  | .plus | .minus => some (.binary .additive)
  | .less | .lessEq | .greater | .greaterEq => some (.binary .relational)
  | .equal | .notEqual => some (.binary .equality)
  | .assign => some .assignment
  | _ => none

namespace Tier

/-- The number of tiers that are tighter. -/
def rank : Tier → Nat
  | .value => 0
  | .unary => 1
  | .binary .multiplicative => 2
  | .binary .additive => 3
  | .binary .relational => 4
  | .binary .equality => 5
  | .assignment => 6

/-- A token of kind `k` behind a phrase of the tier does not go on with it. -/
def Settled (tier : Tier) (k : Kind) : Prop := ∀ t, k.continues = some t → tier.rank < t.rank

theorem Settled.mono {tier lower : Tier} {k : Kind} (h : tier.Settled k)
    (hle : lower.rank ≤ tier.rank) : lower.Settled k :=
  fun t ht => Nat.lt_of_le_of_lt hle (h t ht)

theorem settled_of_none {tier : Tier} {k : Kind} (h : k.continues = none) : tier.Settled k := by
  intro t ht
  rw [h] at ht
  cases ht

theorem Settled.ne {tier t : Tier} {k l : Kind} (h : tier.Settled k) (hl : l.continues = some t)
    (hle : t.rank ≤ tier.rank) : k ≠ l := by
  rintro rfl
  exact absurd (h t hl) (Nat.not_lt_of_le hle)

end Tier

theorem BinaryOp.continues_kind (op : BinaryOp) : op.kind.continues = some (.binary op.level) := by
  cases op <;> rfl

namespace BinaryTier

theorem rank_operand_lt (level : BinaryTier) : level.operand.rank < (Tier.binary level).rank := by
  cases level <;> decide

/-- An operator ends its operand. -/
theorem settled_operand (op : BinaryOp) : op.level.operand.Settled op.kind := by
  intro t ht
  rw [op.continues_kind] at ht
  cases ht
  exact op.level.rank_operand_lt

theorem operator_eq_none {level : BinaryTier} {k : Kind} (h : (Tier.binary level).Settled k) :
    level.operator k = none := by
  cases hop : level.operator k with
  | none => rfl
  | some op =>
      obtain ⟨rfl, rfl⟩ := operator_eq_some_iff.mp hop
      exact absurd (h _ op.continues_kind) (Nat.lt_irrefl _)

end BinaryTier

namespace Grammar

open Parse

variable {q : Parser} {w : List Token}

/-! ## Values -/

section
variable {expr : Parse Expr} {bound : Nat}

theorem value_literal {α : Type} {t : Token} {k : Kind} {meaning : String → Option α} {a : α}
    (node : α → Location → Expr) (ht : t.kind = k) (ha : meaning t.text = some a) :
    literal k meaning node (q.prepend [t]) = .ok (node a t.location) q := by
  rw [literal, bind_ok (expect_prepend [] ht), ha]
  rfl

theorem value_array {opening closing : Token} {es : List Expr} (ho : opening.kind = .openBrace)
    (hc : closing.kind = .closeBrace)
    (h : listUntil .closeBrace expr bound ((q.prepend [closing]).prepend w) =
      .ok es (q.prepend [closing])) :
    value expr bound (q.prepend (opening :: w ++ [closing])) =
      .ok (.array es opening.location) q := by
  rw [Parser.prepend_prepend] at h
  rw [List.cons_append, value_eq, Parser.next_prepend_cons, ho]
  dsimp only
  rw [arrayLiteral, bind_ok (expect_prepend _ ho), bind_ok h, bind_ok (expect_prepend [] hc)]
  rfl

theorem value_call {name opening closing : Token} {es : List Expr}
    (hn : name.kind = .identifier) (ho : opening.kind = .openParen)
    (hc : closing.kind = .closeParen)
    (h : listUntil .closeParen expr bound ((q.prepend [closing]).prepend w) =
      .ok es (q.prepend [closing])) :
    value expr bound (q.prepend (name :: opening :: w ++ [closing])) =
      .ok (.call name.text es name.location) q := by
  rw [Parser.prepend_prepend] at h
  have hsees : (q.prepend (name :: opening :: (w ++ [closing]))).cursor.sees .openParen 1 = true :=
    beq_iff_eq.mpr ho
  rw [List.cons_append, List.cons_append, value_eq, Parser.next_prepend_cons, hn]
  dsimp only
  rw [if_pos hsees, call, bind_ok (here_eq _), bind_ok (identifier_prepend _ hn),
    bind_ok (expect_prepend _ ho), bind_ok h, bind_ok (expect_prepend [] hc)]
  rfl

theorem value_element {name opening closing : Token} {i : Expr}
    (hn : name.kind = .identifier) (ho : opening.kind = .openBracket)
    (hc : closing.kind = .closeBracket)
    (h : expr ((q.prepend [closing]).prepend w) = .ok i (q.prepend [closing])) :
    value expr bound (q.prepend (name :: opening :: w ++ [closing])) =
      .ok (.element name.text i name.location) q := by
  rw [Parser.prepend_prepend] at h
  have hsees : (q.prepend (name :: opening :: (w ++ [closing]))).cursor.sees .openParen 1 =
      false := by
    apply beq_false_of_ne
    show opening.kind ≠ .openParen
    rw [ho]
    decide
  rw [List.cons_append, List.cons_append, value_eq, Parser.next_prepend_cons, hn]
  dsimp only
  rw [hsees, if_neg Bool.false_ne_true, nameOrElement, bind_ok (here_eq _),
    bind_ok (identifier_prepend _ hn), bind_ok (accept_prepend _ ho), if_pos rfl, bind_ok h,
    bind_ok (expect_prepend [] hc)]
  rfl

theorem value_var {name : Token} (hn : name.kind = .identifier)
    (hq : Tier.value.Settled q.next) :
    value expr bound (q.prepend [name]) = .ok (.var name.text name.location) q := by
  have hparen : q.next ≠ .openParen := hq.ne rfl (Nat.le_refl _)
  have hbracket : q.next ≠ .openBracket := hq.ne rfl (Nat.le_refl _)
  have hsees : (q.prepend [name]).cursor.sees .openParen 1 = false := beq_false_of_ne hparen
  rw [value_eq, Parser.next_prepend_cons, hn]
  dsimp only
  rw [hsees, if_neg Bool.false_ne_true, nameOrElement, bind_ok (here_eq _),
    bind_ok (identifier_prepend [] hn), Parser.prepend_nil, bind_ok (accept_of_ne hbracket),
    if_neg Bool.false_ne_true]
  rfl

theorem value_paren {opening closing : Token} {e : Expr} (ho : opening.kind = .openParen)
    (hc : closing.kind = .closeParen)
    (h : expr ((q.prepend [closing]).prepend w) = .ok e (q.prepend [closing])) :
    value expr bound (q.prepend (opening :: w ++ [closing])) = .ok e q := by
  rw [Parser.prepend_prepend] at h
  rw [List.cons_append, value_eq, Parser.next_prepend_cons, ho]
  dsimp only
  rw [parenthesized, bind_ok (expect_prepend _ ho), bind_ok h, bind_ok (expect_prepend [] hc)]
  rfl

end

/-! ## Operators -/

theorem unary_negate {value : Parse Expr} {bound : Nat} {sign : Token} {e : Expr}
    (hs : sign.kind = .minus) (h : unary value bound (q.prepend w) = .ok e q) :
    unary value (bound + 1) (q.prepend (sign :: w)) = .ok (.negate e sign.location) q := by
  rw [unary, bind_ok (here_eq _), bind_ok (accept_prepend w hs), if_pos rfl, bind_ok h]
  rfl

/-- Without a minus sign in front, a value is read. -/
theorem unary_value {value : Parse Expr} {p : Parser} (bound : Nat) (hp : p.next ≠ .minus) :
    unary value bound p = value p := by
  cases bound with
  | zero => rfl
  | succ bound =>
      rw [unary, bind_ok (here_eq p), bind_ok (accept_of_ne hp), if_neg Bool.false_ne_true]

section
variable {level : BinaryTier} {operand : Parse Expr} {bound : Nat}

/-- Without an operator of the tier in front, no operand is read. -/
theorem chain_settled (left : Expr) (hq : (Tier.binary level).Settled q.next) :
    chain level.operator operand bound left q = .ok left q := by
  cases bound with
  | zero => rfl
  | succ bound => rw [chain_eq, BinaryTier.operator_eq_none hq]

theorem chain_operand {op : BinaryOp} {sign : Token} {left right : Expr} {r : Parser}
    (hs : sign.kind = op.kind) (h : operand (q.prepend w) = .ok right r) :
    chain op.level.operator operand (bound + 1) left (q.prepend (sign :: w)) =
      chain op.level.operator operand bound (.binary op left right sign.location) r := by
  have hop : op.level.operator op.kind = some op := BinaryTier.operator_eq_some_iff.mpr ⟨rfl, rfl⟩
  rw [chain_eq, Parser.next_prepend_cons, hs, hop]
  dsimp only
  rw [bind_ok (expect_prepend w hs), bind_ok h]
  rfl

end

/-! ## Assignments -/

section
variable {expr : Parse Expr} {bound : Nat}

theorem expressionWith_assign {name sign : Token} {e : Expr} (hn : name.kind = .identifier)
    (hs : sign.kind = .assign) (h : expr (q.prepend w) = .ok e q) :
    expressionWith expr bound (q.prepend (name :: sign :: w)) =
      .ok (.assign name.text e name.location) q := by
  have hnext : assignmentNext (q.prepend (name :: sign :: w)).cursor = true := by
    show (name.kind == .identifier && sign.kind == .assign) = true
    rw [hn, hs]
    rfl
  rw [expressionWith_eq, if_pos hnext, nameAssignment, bind_ok (here_eq _),
    bind_ok (identifier_prepend _ hn), bind_ok (expect_prepend _ hs), bind_ok h]
  rfl

theorem expressionWith_assignElement {name opening closing sign : Token} {i e : Expr}
    {v : List Token} (hn : name.kind = .identifier) (ho : opening.kind = .openBracket)
    (hc : closing.kind = .closeBracket) (hs : sign.kind = .assign) (hv : Passed v)
    (hi : expr ((q.prepend (closing :: sign :: w)).prepend v) =
      .ok i (q.prepend (closing :: sign :: w)))
    (he : expr (q.prepend w) = .ok e q) :
    expressionWith expr bound (q.prepend (name :: opening :: v ++ closing :: sign :: w)) =
      .ok (.assignElement name.text i e name.location) q := by
  have hname : assignmentNext (q.prepend (name :: opening :: v ++ closing :: sign :: w)).cursor =
      false := assignmentNext_bracket ho
  have helement : elementAssignmentNext
      (q.prepend (name :: opening :: v ++ closing :: sign :: w)).cursor = true := by
    have h := elementAssignmentNext_element (q := q.prepend (sign :: w)) hn ho hc hv
    rw [Parser.prepend_prepend, List.append_assoc, List.singleton_append] at h
    rw [h, Parser.next_prepend_cons, hs]
    rfl
  rw [Parser.prepend_prepend] at hi
  rw [expressionWith_eq, hname, helement, if_neg Bool.false_ne_true, if_pos rfl,
    elementAssignment, bind_ok (here_eq _), List.cons_append, List.cons_append,
    bind_ok (identifier_prepend _ hn), bind_ok (expect_prepend _ ho), bind_ok hi,
    bind_ok (expect_prepend _ hc), bind_ok (expect_prepend _ hs), bind_ok he]
  rfl

theorem expressionWith_equality {p : Parser} (hp : NoTarget p) :
    expressionWith expr bound p = equality bound (unary (value expr bound) bound) p := by
  rw [expressionWith_eq, hp.1, hp.2, if_neg Bool.false_ne_true, if_neg Bool.false_ne_true]

end

/-! ## Lists -/

theorem sequence_one {α : Type} {item : Parse α} {bound : Nat} {a : α}
    (h : item (q.prepend w) = .ok a q) (hq : q.next ≠ .comma) :
    Parse.sequence item bound (q.prepend w) = .ok [a] q := by
  cases bound with
  | zero =>
      rw [Parse.sequence, bind_ok h]
      rfl
  | succ bound =>
      rw [Parse.sequence, bind_ok h, bind_ok (accept_of_ne hq), if_neg Bool.false_ne_true]
      rfl

theorem sequence_more {α : Type} {item : Parse α} {bound : Nat} {a : α} {as : List α}
    {comma : Token} {v : List Token} (hc : comma.kind = .comma)
    (h : item ((q.prepend (comma :: w)).prepend v) = .ok a (q.prepend (comma :: w)))
    (has : Parse.sequence item bound (q.prepend w) = .ok as q) :
    Parse.sequence item (bound + 1) (q.prepend (v ++ comma :: w)) = .ok (a :: as) q := by
  rw [Parser.prepend_prepend] at h
  rw [Parse.sequence, bind_ok h, bind_ok (accept_prepend w hc), if_pos rfl, bind_ok has]
  rfl

section
variable {expr : Parse Expr} {bound : Nat}

theorem listUntil_none {stop : Kind} (hq : q.next = stop) :
    listUntil stop expr bound q = .ok [] q := by
  have hsees : q.cursor.sees stop 0 = true := beq_iff_eq.mpr hq
  rw [listUntil, bind_ok (sees_eq stop 0 q), if_pos hsees]
  rfl

theorem listUntil_some {stop : Kind} {p : Parser} (hp : p.next ≠ stop) :
    listUntil stop expr bound p = Parse.sequence expr bound p := by
  have hsees : p.cursor.sees stop 0 = false := beq_false_of_ne hp
  rw [listUntil, bind_ok (sees_eq stop 0 p), hsees, if_neg Bool.false_ne_true]

end

/-! ## Every phrase -/

/-- The reading of the operands of a tier, made of the reading of unary expressions. -/
def operandReader (unary : Parse Expr) (bound : Nat) : BinaryTier → Parse Expr
  | .multiplicative => unary
  | .additive => tier multiplicativeOp bound unary
  | .relational => tier additiveOp bound (tier multiplicativeOp bound unary)
  | .equality => tier relationalOp bound (tier additiveOp bound (tier multiplicativeOp bound unary))

/-- The reading of the operands of a tier inside `expression (b + 1)`. -/
def operandWithin (b : Nat) : BinaryTier → Parse Expr :=
  operandReader (unary (value (expression b) (b + 1)) (b + 1)) (b + 1)

/-- The row is read as the phrase wherever it is not gone on with, if the bounds are at least
    the number of tokens left. -/
def Completes : Phrase → List Token → Prop
  | .expr .value e, w => ∀ b (q : Parser), Tier.value.Settled q.next →
    w.length + q.cursor.length ≤ b + 1 → value (expression b) (b + 1) (q.prepend w) = .ok e q
  | .expr .unary e, w => ∀ b n (q : Parser), Tier.unary.Settled q.next →
    w.length + q.cursor.length ≤ b + 1 → w.length + q.cursor.length ≤ n →
    unary (value (expression b) (b + 1)) n (q.prepend w) = .ok e q
  | .expr (.binary level) e, w => ∀ b (q : Parser), (Tier.binary level).Settled q.next →
    w.length + q.cursor.length ≤ b + 1 →
    tier level.operator (b + 1) (operandWithin b level) (q.prepend w) = .ok e q
  | .expr .assignment e, w => ∀ b (q : Parser), Tier.assignment.Settled q.next →
    w.length + q.cursor.length ≤ b → expression b (q.prepend w) = .ok e q
  | .operands level left e, w => ∀ b n (q : Parser), (Tier.binary level).Settled q.next →
    w.length + q.cursor.length ≤ b + 1 → w.length + q.cursor.length ≤ n →
    chain level.operator (operandWithin b level) n left (q.prepend w) = .ok e q
  | .list es, w => ∀ b n (q : Parser), Tier.assignment.Settled q.next → q.next ≠ .comma →
    w.length + q.cursor.length ≤ b → w.length + q.cursor.length ≤ n →
    Parse.sequence (expression b) n (q.prepend w) = .ok es q
  | .args es, w => ∀ b n (stop : Kind) (q : Parser), stop = .closeParen ∨ stop = .closeBrace →
    q.next = stop → w.length + q.cursor.length ≤ b → w.length + q.cursor.length ≤ n →
    listUntil stop (expression b) n (q.prepend w) = .ok es q

/-- An operand is read by the reading of operands. -/
theorem Completes.operand {level : BinaryTier} {e : Expr}
    (h : Completes (.expr level.operand e) w) {b : Nat}
    (hq : level.operand.Settled q.next) (hb : w.length + q.cursor.length ≤ b + 1) :
    operandWithin b level (q.prepend w) = .ok e q := by
  cases level with
  | multiplicative => exact h b (b + 1) q hq hb hb
  | additive => exact h b q hq hb
  | relational => exact h b q hq hb
  | equality => exact h b q hq hb

/-- A closing bracket ends every phrase. -/
theorem settled_closing {tier : Tier} {closing : Token} {k : Kind} (hc : closing.kind = k)
    (hk : k.continues = none) : tier.Settled (q.prepend (closing :: w)).next := by
  apply Tier.settled_of_none
  rw [Parser.next_prepend_cons, hc]
  exact hk

/-- What stands inside of brackets is shorter by the brackets. -/
theorem length_inside {before : List Token} {closing : Token} {b : Nat}
    (hbefore : before ≠ [])
    (hb : (before ++ w ++ [closing]).length + q.cursor.length ≤ b + 1) :
    w.length + (q.prepend [closing]).cursor.length ≤ b := by
  have hpos : 0 < before.length := List.length_pos_iff.mpr hbefore
  rw [List.length_append, List.length_append] at hb
  rw [Parser.length_prepend]
  omega

/-- Behind an operand is an operator of its tier, or what is behind all operands. -/
theorem settled_operands {level : BinaryTier} {left e : Expr}
    (h : Derives (.operands level left e) w) (hq : (Tier.binary level).Settled q.next) :
    level.operand.Settled (q.prepend w).next := by
  cases w with
  | nil => exact hq.mono (Nat.le_of_lt level.rank_operand_lt)
  | cons t ts =>
      obtain ⟨op, rfl, hop⟩ := h.begins t ts rfl
      rw [Parser.next_prepend_cons, hop]
      exact BinaryTier.settled_operand op

/-- Every derived row is read as its phrase. -/
theorem completes {φ : Phrase} (h : Derives φ w) : Completes φ w := by
  induction h with
  | int ht hn =>
      intro b q _ _
      rw [value_eq, Parser.next_prepend_cons, ht]
      exact value_literal .int ht hn
  | string ht hs =>
      intro b q _ _
      rw [value_eq, Parser.next_prepend_cons, ht]
      exact value_literal .string ht hs
  | char ht hc =>
      intro b q _ _
      rw [value_eq, Parser.next_prepend_cons, ht]
      exact value_literal .char ht hc
  | @array opening closing _ w ho hc _ ih =>
      intro b q _ hb
      have hlen := @length_inside q w [opening] closing b (List.cons_ne_nil _ _) hb
      exact value_array ho hc (ih b (b + 1) _ (q.prepend [closing]) (.inr rfl) hc hlen
        (Nat.le_succ_of_le hlen))
  | @call name opening closing _ w hn ho hc _ ih =>
      intro b q _ hb
      have hlen := @length_inside q w [name, opening] closing b (List.cons_ne_nil _ _) hb
      exact value_call hn ho hc (ih b (b + 1) _ (q.prepend [closing]) (.inl rfl) hc hlen
        (Nat.le_succ_of_le hlen))
  | @element name opening closing _ w hn ho hc _ ih =>
      intro b q _ hb
      have hlen := @length_inside q w [name, opening] closing b (List.cons_ne_nil _ _) hb
      exact value_element hn ho hc (ih b (q.prepend [closing]) (settled_closing hc rfl) hlen)
  | var hn => exact fun _ _ hq _ => value_var hn hq
  | @paren opening closing _ w ho hc _ ih =>
      intro b q _ hb
      have hlen := @length_inside q w [opening] closing b (List.cons_ne_nil _ _) hb
      exact value_paren ho hc (ih b (q.prepend [closing]) (settled_closing hc rfl) hlen)
  | negate hs _ ih =>
      intro b n q hq hb hn
      rw [List.length_cons] at hb hn
      obtain ⟨n, rfl⟩ : ∃ k, n = k + 1 := ⟨n - 1, by omega⟩
      exact unary_negate hs (ih b n q hq (by omega) (by omega))
  | @unary e w value ih =>
      intro b n q hq hb _
      -- a value begins with no minus sign, so the reading of signs goes on to it at once
      obtain ⟨t, ts, rfl, _, ht⟩ := value.begins
      have hminus : (q.prepend (t :: ts)).next ≠ .minus := ht rfl
      rw [unary_value n hminus]
      exact ih b q (hq.mono (by decide)) hb
  | @binary level left e v w _ others ih₁ ih₂ =>
      intro b q hq hb
      rw [List.length_append] at hb
      -- the first operand is read, and the chain goes on from it
      have hfirst := ih₁.operand (b := b) (settled_operands others hq)
        (by rw [Parser.length_prepend]; omega)
      rw [Parser.prepend_prepend] at hfirst
      rw [tier, bind_ok hfirst]
      exact ih₂ b (b + 1) q hq (by omega) (by omega)
  | noOperand => exact fun _ _ q hq _ _ => chain_settled _ hq
  | @operand op sign left right e v w hs _ others ih₁ ih₂ =>
      intro b n q hq hb hn
      simp only [List.length_append, List.length_cons] at hb hn
      -- a turn of the chain reads the operator, so there is a turn left to read it in
      obtain ⟨n, rfl⟩ : ∃ k, n = k + 1 := ⟨n - 1, by omega⟩
      have hright := ih₁.operand (b := b) (settled_operands others hq)
        (by rw [Parser.length_prepend]; omega)
      rw [Parser.prepend_prepend] at hright
      rw [List.cons_append, chain_operand hs hright]
      exact ih₂ b n q hq (by omega) (by omega)
  | assign hn hs _ ih =>
      intro b q hq hb
      simp only [List.length_cons] at hb
      obtain ⟨b, rfl⟩ : ∃ k, b = k + 1 := ⟨b - 1, by omega⟩
      exact expressionWith_assign hn hs (ih b q hq (by omega))
  | @assignElement name opening closing sign i e v w hn ho hc hs index _ ih₁ ih₂ =>
      intro b q hq hb
      simp only [List.length_append, List.length_cons] at hb
      obtain ⟨b, rfl⟩ : ∃ k, b = k + 1 := ⟨b - 1, by omega⟩
      have hindex := ih₁ b (q.prepend (closing :: sign :: w)) (settled_closing hc rfl)
        (by simp; omega)
      exact expressionWith_assignElement hn ho hc hs index.passed hindex (ih₂ b q hq (by omega))
  | @equality e w operand ih =>
      intro b q hq hb
      obtain ⟨t, ts, rfl, _, _⟩ := operand.begins
      rw [List.length_cons] at hb
      obtain ⟨b, rfl⟩ : ∃ k, b = k + 1 := ⟨b - 1, by omega⟩
      -- without a target in front it is no assignment that is read
      have htarget := operand.noTarget _ _ rfl (by decide) q (hq.ne rfl (by decide))
        (hq.ne rfl (by decide))
      rw [expression, expressionWith_equality htarget]
      exact ih b q (hq.mono (by decide)) hb
  | @one e w last ih =>
      intro b n q hq hcomma hb _
      exact sequence_one (ih b q hq hb) hcomma
  | @more e comma es v w hc _ _ ih₁ ih₂ =>
      intro b n q hq hcomma hb hn
      simp only [List.length_append, List.length_cons] at hb hn
      obtain ⟨n, rfl⟩ : ∃ k, n = k + 1 := ⟨n - 1, by omega⟩
      have hfirst := ih₁ b (q.prepend (comma :: w)) (settled_closing hc rfl) (by simp; omega)
      exact sequence_more hc hfirst (ih₂ b n q hq hcomma (by omega) (by omega))
  | noArgs => exact fun _ _ _ q _ hq _ _ => listUntil_none hq
  | @args es w list ih =>
      intro b n stop q hstop hq hb hn
      -- the list is not empty, and no expression begins with the token that ends it
      obtain ⟨t, ts, rfl, ht⟩ := list.begins
      have hne : (q.prepend (t :: ts)).next ≠ stop := by
        rw [Parser.next_prepend_cons]
        rintro rfl
        rcases hstop with h | h <;> rw [h] at ht <;> cases ht
      have hsettled : Tier.assignment.Settled q.next := by
        apply Tier.settled_of_none
        rw [hq]
        rcases hstop with rfl | rfl <;> rfl
      have hcomma : q.next ≠ .comma := by
        rw [hq]
        rcases hstop with rfl | rfl <;> decide
      rw [listUntil_some hne]
      exact ih b n q hsettled hcomma hb hn

/-! ## Reading by the grammar -/

/-- Whether a token of this kind ends an expression wherever the grammar has one. -/
def endsExpr : Kind → Bool
  | .semicolon | .comma | .closeParen | .closeBracket | .closeBrace | .endOfInput => true
  | _ => false

theorem settled_of_endsExpr {k : Kind} (h : endsExpr k = true) : Tier.assignment.Settled k := by
  apply Tier.settled_of_none
  cases k <;> first | rfl | cases h

theorem expression_complete {e : Expr} (h : Derives (.expr .assignment e) w)
    (hq : endsExpr q.next = true) {b : Nat} (hb : (q.prepend w).cursor.length ≤ b) :
    expression b (q.prepend w) = .ok e q := by
  rw [Parser.length_prepend] at hb
  exact completes h b q (settled_of_endsExpr hq) hb

/-- No row derives two expressions: reading it gives both. -/
theorem derives_unique {e f : Expr} (he : Derives (.expr .assignment e) w)
    (hf : Derives (.expr .assignment f) w) : e = f := by
  have hread := expression_complete (q := .ofCursor ⟨[], .start⟩) he rfl (Nat.le_refl _)
  rw [expression_complete hf rfl (Nat.le_refl _)] at hread
  cases hread
  rfl

/-- Reading an expression accepts the grammar: what it has read derives its result, a derived
    row is read as its expression and no further, and it has no other. -/
theorem expression_accepts_grammar :
    (∀ (bound : Nat) (p : Parser) (e : Expr) (q : Parser), expression bound p = .ok e q →
      ∃ w, p = q.prepend w ∧ Derives (.expr .assignment e) w) ∧
    (∀ (bound : Nat) (e : Expr) (w : List Token) (q : Parser),
      Derives (.expr .assignment e) w → endsExpr q.next = true →
      (q.prepend w).cursor.length ≤ bound → expression bound (q.prepend w) = .ok e q) ∧
    (∀ (e f : Expr) (w : List Token), Derives (.expr .assignment e) w →
      Derives (.expr .assignment f) w → e = f) := by
  refine ⟨reads_expression, ?_, ?_⟩
  · intro bound e w q h hq hb
    exact expression_complete h hq hb
  · intro e f w he hf
    exact derives_unique he hf

/-- `7 - 2 - 1 ;` is read as the difference of a difference. -/
theorem expression_accepts_differences :
    let num (text : String) : Token := ⟨.intLiteral, some text, .start⟩
    let minus : Token := ⟨.minus, none, .start⟩
    let q : Parser := .ofCursor ⟨[⟨.semicolon, none, .start⟩], .start⟩
    expression 6 (q.prepend [num "7", minus, num "2", minus, num "1"]) =
      .ok (.binary .sub (.binary .sub (.int 7 .start) (.int 2 .start) .start)
        (.int 1 .start) .start) q := by
  intro num minus q
  have hterm : ∀ (text : String) (n : Int), intMeaning text = some n →
      Derives (.expr (.binary .multiplicative) (.int n .start)) [num text] := by
    intro text n hn
    have hint : Derives (.expr .value (.int n .start)) [num text] :=
      Derives.int (t := num text) rfl hn
    exact @Derives.binary .multiplicative _ _ _ _ (.unary hint) .noOperand
  have hminus : minus.kind = BinaryOp.sub.kind := rfl
  have hsum : Derives (.expr (.binary .additive) _)
      [num "7", minus, num "2", minus, num "1"] :=
    @Derives.binary .additive _ _ _ _ (hterm "7" 7 rfl) (.operand hminus (hterm "2" 2 rfl)
      (.operand hminus (hterm "1" 1 rfl) .noOperand))
  have hcomparison : Derives (.expr (.binary .relational) _) _ :=
    @Derives.binary .relational _ _ _ _ hsum .noOperand
  have hall : Derives (.expr (.binary .equality) _) _ :=
    @Derives.binary .equality _ _ _ _ hcomparison .noOperand
  exact expression_accepts_grammar.2.1 6 _ _ q (.equality hall) rfl (by decide)

end Grammar
end PocketC
