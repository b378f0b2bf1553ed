/-
  PocketC.Proofs.Grammar.Derivation

  The grammar of expressions as a relation between rows of tokens and trees, apart
  from any way of reading them:

    value          ::= literal | "{" args "}" | name "(" args ")" | name "[" assignment "]"
                     | name | "(" assignment ")"
    unary          ::= "-" unary | value
    multiplicative ::= unary ( ("*" | "/" | "%") unary )*
    additive       ::= multiplicative ( ("+" | "-") multiplicative )*
    relational     ::= additive ( ("<" | ">" | "<=" | ">=") additive )*
    equality       ::= relational ( ("==" | "!=") relational )*
    assignment     ::= name "=" assignment | name "[" assignment "]" "=" assignment | equality
    args           ::= nothing | assignment ( "," assignment )*

  A literal has to have a meaning.  The place of a binary node is that of its operator,
  that of any other node is that of its first token, parentheses around it apart.
-/

import PocketC.Grammar.Expr
import PocketC.Proofs.Grammar.Reading

namespace PocketC

/-! ## Tiers -/

/-- The tiers of binary operators. -/
inductive BinaryTier where
  | multiplicative | additive | relational | equality
deriving DecidableEq

/-- The tiers of expressions, from the tightest on. -/
inductive Tier where
  | value | unary
  | binary (level : BinaryTier)
  | assignment
deriving DecidableEq

/-- The tier of an operator. -/
def BinaryOp.level : BinaryOp → BinaryTier
  | .mul | .div | .rem => .multiplicative
  | .add | .sub => .additive
  | .lt | .le | .gt | .ge => .relational
  | .eq | .ne => .equality

/-- The kind of the tokens of an operator. -/
def BinaryOp.kind : BinaryOp → Kind
  | .mul => .star
  | .div => .slash
  | .rem => .percent
  | .add => .plus
  | .sub => .minus
  | .lt => .less
  | .le => .lessEq
  | .gt => .greater
  | .ge => .greaterEq
  | .eq => .equal
  | .ne => .notEqual

namespace BinaryTier

/-- The tier of the operands. -/
def operand : BinaryTier → Tier
  | .multiplicative => .unary
  | .additive => .binary .multiplicative
  | .relational => .binary .additive
  | .equality => .binary .relational

/-- The operators of a tier as they are told apart in reading. -/
def operator : BinaryTier → Kind → Option BinaryOp
  | .multiplicative => Grammar.multiplicativeOp
  | .additive => Grammar.additiveOp
  | .relational => Grammar.relationalOp
  | .equality => Grammar.equalityOp

theorem operator_eq_some_iff {level : BinaryTier} {k : Kind} {op : BinaryOp} :
    level.operator k = some op ↔ op.level = level ∧ op.kind = k := by
  constructor
  · intro h
    cases level <;> simp only [operator, Grammar.multiplicativeOp, Grammar.additiveOp,
      Grammar.relationalOp, Grammar.equalityOp] at h <;> split at h <;> cases h <;>
      exact ⟨rfl, rfl⟩
  · rintro ⟨rfl, rfl⟩
    cases op <;> rfl

end BinaryTier

/-! ## Derivations -/

/-- What a row of tokens may be derived from. -/
inductive Phrase where
  /-- an expression of a tier -/
  | expr (tier : Tier) (e : Expr)
  /-- operators of a tier with their right operands, which make `e` out of `left` -/
  | operands (level : BinaryTier) (left e : Expr)
  /-- expressions with commas between them, at least one -/
  | list (es : List Expr)
  /-- the same or nothing -/
  | args (es : List Expr)

/-- The row of tokens derives the phrase. -/
inductive Derives : Phrase → List Token → Prop where
  -- values
  | int {t : Token} {n : Int} (ht : t.kind = .intLiteral)
      (hn : Grammar.intMeaning t.text = some n) :
      Derives (.expr .value (.int n t.location)) [t]
  | string {t : Token} {s : String} (ht : t.kind = .stringLiteral)
      (hs : Grammar.stringMeaning t.text = some s) :
      Derives (.expr .value (.string s t.location)) [t]
  | char {t : Token} {c : Char} (ht : t.kind = .charLiteral)
      (hc : Grammar.charMeaning t.text = some c) :
      Derives (.expr .value (.char c t.location)) [t]
  | array {opening closing : Token} {es : List Expr} {w : List Token}
      (ho : opening.kind = .openBrace) (hc : closing.kind = .closeBrace)
      (elements : Derives (.args es) w) :
      Derives (.expr .value (.array es opening.location)) (opening :: w ++ [closing])
  | call {name opening closing : Token} {es : List Expr} {w : List Token}
      (hn : name.kind = .identifier) (ho : opening.kind = .openParen)
      (hc : closing.kind = .closeParen) (args : Derives (.args es) w) :
      Derives (.expr .value (.call name.text es name.location))
        (name :: opening :: w ++ [closing])
  | element {name opening closing : Token} {i : Expr} {w : List Token}
      (hn : name.kind = .identifier) (ho : opening.kind = .openBracket)
      (hc : closing.kind = .closeBracket) (index : Derives (.expr .assignment i) w) :
      Derives (.expr .value (.element name.text i name.location))
        (name :: opening :: w ++ [closing])
  | var {name : Token} (hn : name.kind = .identifier) :
      Derives (.expr .value (.var name.text name.location)) [name]
  | paren {opening closing : Token} {e : Expr} {w : List Token}
      (ho : opening.kind = .openParen) (hc : closing.kind = .closeParen)
      (inner : Derives (.expr .assignment e) w) :
      Derives (.expr .value e) (opening :: w ++ [closing])
  -- operators
  | negate {sign : Token} {e : Expr} {w : List Token} (hs : sign.kind = .minus)
      (operand : Derives (.expr .unary e) w) :
      Derives (.expr .unary (.negate e sign.location)) (sign :: w)
  | unary {e : Expr} {w : List Token} (value : Derives (.expr .value e) w) :
      Derives (.expr .unary e) w
  | binary {level : BinaryTier} {left e : Expr} {v w : List Token}
      (first : Derives (.expr level.operand left) v)
      (others : Derives (.operands level left e) w) :
      Derives (.expr (.binary level) e) (v ++ w)
  | noOperand {level : BinaryTier} {e : Expr} : Derives (.operands level e e) []
  | operand {op : BinaryOp} {sign : Token} {left right e : Expr} {v w : List Token}
      (hs : sign.kind = op.kind) (second : Derives (.expr op.level.operand right) v)
      (others : Derives (.operands op.level (.binary op left right sign.location) e) w) :
      Derives (.operands op.level left e) (sign :: v ++ w)
  -- assignments
  | assign {name sign : Token} {e : Expr} {w : List Token} (hn : name.kind = .identifier)
      (hs : sign.kind = .assign) (value : Derives (.expr .assignment e) w) :
      Derives (.expr .assignment (.assign name.text e name.location)) (name :: sign :: w)
  | assignElement {name opening closing sign : Token} {i e : Expr} {v w : List Token}
      (hn : name.kind = .identifier) (ho : opening.kind = .openBracket)
      (hc : closing.kind = .closeBracket) (hs : sign.kind = .assign)
      (index : Derives (.expr .assignment i) v) (value : Derives (.expr .assignment e) w) :
      Derives (.expr .assignment (.assignElement name.text i e name.location))
        (name :: opening :: v ++ closing :: sign :: w)
  | equality {e : Expr} {w : List Token} (operand : Derives (.expr (.binary .equality) e) w) :
      Derives (.expr .assignment e) w
  -- lists
  | one {e : Expr} {w : List Token} (last : Derives (.expr .assignment e) w) :
      Derives (.list [e]) w
  | more {e : Expr} {comma : Token} {es : List Expr} {v w : List Token}
      (hc : comma.kind = .comma) (first : Derives (.expr .assignment e) v)
      (others : Derives (.list es) w) : Derives (.list (e :: es)) (v ++ comma :: w)
  | noArgs : Derives (.args []) []
  | args {es : List Expr} {w : List Token} (list : Derives (.list es) w) :
      Derives (.args es) w

namespace Derives

variable {e : Expr} {w : List Token}

/-- An operand of a tier is in the tier by itself. -/
theorem ofOperand {level : BinaryTier} (h : Derives (.expr level.operand e) w) :
    Derives (.expr (.binary level) e) w := by
  rw [← List.append_nil w]
  exact .binary h .noOperand

/-- A value is an operand of every tier. -/
theorem operandOfValue (h : Derives (.expr .value e) w) (level : BinaryTier) :
    Derives (.expr level.operand e) w := by
  have hunary : Derives (.expr BinaryTier.multiplicative.operand e) w := .unary h
  have hproduct : Derives (.expr BinaryTier.additive.operand e) w := hunary.ofOperand
  have hsum : Derives (.expr BinaryTier.relational.operand e) w := hproduct.ofOperand
  cases level with
  | multiplicative => exact hunary
  | additive => exact hproduct
  | relational => exact hsum
  | equality => exact hsum.ofOperand

/-- An expression of any tier of operators is an expression. -/
theorem ofBinary {level : BinaryTier} (h : Derives (.expr (.binary level) e) w) :
    Derives (.expr .assignment e) w := by
  have hsum : Derives (.expr BinaryTier.additive.operand e) w →
      Derives (.expr BinaryTier.relational.operand e) w := fun h => h.ofOperand
  have hcomparison : Derives (.expr BinaryTier.relational.operand e) w →
      Derives (.expr BinaryTier.equality.operand e) w := fun h => h.ofOperand
  have hequality : Derives (.expr BinaryTier.equality.operand e) w →
      Derives (.expr .assignment e) w := fun h => .equality h.ofOperand
  cases level with
  | multiplicative => exact hequality (hcomparison (hsum h))
  | additive => exact hequality (hcomparison h)
  | relational => exact hequality h
  | equality => exact .equality h

/-- A value is an expression. -/
theorem ofValue (h : Derives (.expr .value e) w) : Derives (.expr .assignment e) w :=
  (h.operandOfValue .equality).ofOperand.ofBinary

end Derives
end PocketC
