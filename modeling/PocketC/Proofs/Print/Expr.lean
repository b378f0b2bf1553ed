/-
  PocketC.Proofs.Print.Expr

  Printed expressions are read back.  There is one lemma for each kind of node, about
  operands that are read back, and the whole is by induction on how the row of tokens is
  derived that the expression was read from.
-/

import PocketC.Proofs.Grammar.Prompt.Expr
import PocketC.Proofs.Print.Literals
import PocketC.Proofs.Print.Rules

namespace PocketC

open Token (mark name inParens separated)

/-- The rows of values. -/
abbrev ValueExpression : Rows Expr := fun e w => Derives (.expr .value e) w

namespace Expr

/-- The printed expression is read back, also where there has to be a value. -/
structure Printed (e : Expr) : Prop where
  expression : Prints Expression unplaced e e.tokens
  operand : Prints ValueExpression unplaced e e.operand

variable {e : Expr} {l : Location}

theorem prints_inParens {ts : List Token} (h : Prints Expression unplaced e ts) :
    Prints ValueExpression unplaced e (inParens ts) := by
  refine .mark rfl fun opening ho => h.append fun e' w he hsame => .mark rfl fun closing hc => ?_
  exact .nil (.paren ho hc he) hsame

theorem Printed.ofValue (h : Prints ValueExpression unplaced e e.tokens) (he : e.isAtom = true) :
    e.Printed where
  expression := h.mono fun _ _ hv => hv.ofValue
  operand := by
    rw [Expr.operand, enclose, if_pos he]
    exact h

theorem Printed.ofExpression (h : Prints Expression unplaced e e.tokens)
    (he : e.isAtom = false) : e.Printed where
  expression := h
  operand := by
    rw [Expr.operand, enclose, if_neg (by rw [he]; exact Bool.false_ne_true)]
    exact prints_inParens h

/-! ## Literals and names -/

theorem printed_int {x : String} {n : Int} (hx : ∀ c ∈ x.toList, Text.isDigit c = true)
    (hn : Grammar.intMeaning x = some n) : (int n l).Printed := by
  obtain ⟨hmeaning, hne, hdigits⟩ := Grammar.intMeaning_decimal hx hn
  refine .ofValue (.cons (Token.WellFormed.isLexeme (.number hne hdigits)) rfl fun t ht => ?_) rfl
  have hkind : t.kind = .intLiteral := congrArg Token.kind ht
  have htext : t.text = Text.decimal n := congrArg Token.text ht
  exact .nil (.int hkind (by rw [htext]; exact hmeaning)) rfl

theorem printed_string (s : String) : (string s l).Printed := by
  have hquotable := Text.quotable_escape (.inl rfl) s.toList
  refine .ofValue (.cons (Token.WellFormed.isLexeme (.string hquotable)) rfl fun t ht => ?_) rfl
  have hkind : t.kind = .stringLiteral := congrArg Token.kind ht
  have htext : t.text = Text.escape s.toList := congrArg Token.text ht
  exact .nil (.string hkind (by rw [htext]; exact Grammar.stringMeaning_escape s)) rfl

theorem printed_char (c : Char) : (char c l).Printed := by
  have hquotable := Text.quotable_escape (.inr rfl) [c]
  refine .ofValue (.cons (Token.WellFormed.isLexeme (.char hquotable)) rfl fun t ht => ?_) rfl
  have hkind : t.kind = .charLiteral := congrArg Token.kind ht
  have htext : t.text = Text.escape [c] := congrArg Token.text ht
  exact .nil (.char hkind (by rw [htext]; exact Grammar.charMeaning_escape c)) rfl

theorem printed_var {s : String} (hs : (name s).IsLexeme) : (var s l).Printed := by
  refine .ofValue (.name hs fun t ht htext => ?_) rfl
  subst htext
  exact .nil (.var ht) rfl

/-! ## Operators -/

theorem printed_binary {left right : Expr} (op : BinaryOp) (hleft : left.Printed)
    (hright : right.Printed) : (binary op left right l).Printed := by
  have hop : op.kind.spelling?.isSome = true := by cases op <;> rfl
  refine .ofExpression ?_ rfl
  refine hleft.operand.append fun left' v hv hl => .mark hop fun sign hs => ?_
  -- the operands are values, and so operands of any tier
  refine hright.operand.imp fun right' w hw hr => ⟨.binary op left' right' sign.location, ?_, ?_⟩
  · have hsecond : Derives (.operands op.level left' (.binary op left' right' sign.location))
        (sign :: w ++ []) := .operand hs (hw.operandOfValue op.level) .noOperand
    have hall := Derives.binary (hv.operandOfValue op.level) hsecond
    rw [List.append_nil] at hall
    exact hall.ofBinary
  · simp only [unplaced, hl, hr]

theorem printed_negate (he : e.Printed) : (negate e l).Printed := by
  refine .ofExpression (.mark rfl fun sign hs => ?_) rfl
  refine he.operand.imp fun e' w hw hsame => ⟨.negate e' sign.location, ?_, ?_⟩
  · have hunary : Derives (.expr BinaryTier.multiplicative.operand _) _ :=
      .negate hs (.unary hw)
    exact hunary.ofOperand.ofBinary
  · simp only [unplaced, hsame]

/-! ## Assignments -/

theorem printed_assign {s : String} (hs : (name s).IsLexeme) (he : e.Printed) :
    (assign s e l).Printed := by
  refine .ofExpression (.name hs fun t ht htext => .mark rfl fun sign hsign => ?_) rfl
  subst htext
  refine he.operand.imp fun e' w hw hsame => ⟨_, .assign ht hsign hw.ofValue, ?_⟩
  simp only [unplaced, hsame]

theorem printed_assignElement {s : String} {i : Expr} (hs : (name s).IsLexeme) (hi : i.Printed)
    (he : e.Printed) : (assignElement s i e l).Printed := by
  refine .ofExpression (.name hs fun t ht htext => .mark rfl fun opening ho => ?_) rfl
  subst htext
  refine hi.operand.append fun i' v hv hi => .mark rfl fun closing hc => .mark rfl fun sign hs => ?_
  refine he.operand.imp fun e' w hw he =>
    ⟨_, .assignElement ht ho hc hs hv.ofValue hw.ofValue, ?_⟩
  simp only [unplaced, hi, he]

/-! ## Lists -/

theorem prints_operands {es : List Expr} (h : ∀ e ∈ es, e.Printed) :
    Prints (fun es w => Derives (.args es) w) unplacedAll es (separated (operands es)) := by
  rw [operands_eq_map]
  by_cases hes : es = []
  · subst hes
    exact .nil .noArgs rfl
  · have hall := Prints.separated hes fun e he => (h e he).operand
    refine hall.imp fun es' w hw hsame => ⟨es', ?_, ?_⟩
    · exact .args (hw.mono fun _ _ hv => hv.ofValue).derives
    · rw [unplacedAll_eq_map, unplacedAll_eq_map, hsame]

theorem printed_call {s : String} {es : List Expr} (hs : (name s).IsLexeme)
    (hes : ∀ e ∈ es, e.Printed) : (call s es l).Printed := by
  refine .ofValue (.name hs fun t ht htext => .mark rfl fun opening ho => ?_) rfl
  subst htext
  refine (prints_operands hes).append fun es' w hw hsame => .mark rfl fun closing hc => ?_
  exact .nil (.call ht ho hc hw) (by simp only [unplaced, hsame])

theorem printed_array {es : List Expr} (hes : ∀ e ∈ es, e.Printed) : (array es l).Printed := by
  refine .ofValue (.mark rfl fun opening ho => ?_) rfl
  refine (prints_operands hes).append fun es' w hw hsame => .mark rfl fun closing hc => ?_
  exact .nil (.array ho hc hw) (by simp only [unplaced, hsame])

theorem printed_element {s : String} {i : Expr} (hs : (name s).IsLexeme) (hi : i.Printed) :
    (element s i l).Printed := by
  refine .ofValue (.name hs fun t ht htext => .mark rfl fun opening ho => ?_) rfl
  subst htext
  refine hi.operand.append fun i' w hw hsame => .mark rfl fun closing hc => ?_
  exact .nil (.element ht ho hc hw.ofValue) (by simp only [unplaced, hsame])

end Expr

/-! ## Derived expressions -/

/-- The expressions of the phrase are read back, with operators if what is in front of them is. -/
def Phrase.Printed : Phrase → Prop
  | .expr _ e => e.Printed
  | .operands _ left e => left.Printed → e.Printed
  | .list es | .args es => ∀ e ∈ es, e.Printed

/-- What lexemes derive is read back when it is printed. -/
theorem Derives.printed {phrase : Phrase} {w : List Token} (h : Derives phrase w)
    (hw : ∀ t ∈ w, t.IsLexeme) : phrase.Printed := by
  induction h with
  | @int t n ht hn => exact Expr.printed_int ((hw t List.mem_cons_self).isDigit ht) hn
  | string => exact Expr.printed_string _
  | char => exact Expr.printed_char _
  | array _ _ _ ih => exact Expr.printed_array (ih fun t ht => hw t (by simp [ht]))
  | @call t _ _ _ _ hn _ _ _ ih =>
      exact Expr.printed_call ((hw t (by simp)).name hn) (ih fun t ht => hw t (by simp [ht]))
  | @element t _ _ _ _ hn _ _ _ ih =>
      exact Expr.printed_element ((hw t (by simp)).name hn) (ih fun t ht => hw t (by simp [ht]))
  | @var t hn => exact Expr.printed_var ((hw t List.mem_cons_self).name hn)
  | paren _ _ _ ih => exact ih fun t ht => hw t (by simp [ht])
  | negate _ _ ih => exact Expr.printed_negate (ih fun t ht => hw t (by simp [ht]))
  | unary _ ih => exact ih hw
  | binary _ _ ihfirst ihothers =>
      exact ihothers (fun t ht => hw t (by simp [ht])) (ihfirst fun t ht => hw t (by simp [ht]))
  | noOperand => exact id
  | operand _ _ _ ihsecond ihothers =>
      -- the operator and its operands are what is in front of the next one
      intro hleft
      refine ihothers (fun t ht => hw t (by simp [ht])) (Expr.printed_binary _ hleft ?_)
      exact ihsecond fun t ht => hw t (by simp [ht])
  | @assign t _ _ _ hn _ _ ih =>
      exact Expr.printed_assign ((hw t (by simp)).name hn) (ih fun t ht => hw t (by simp [ht]))
  | @assignElement t _ _ _ _ _ _ _ hn _ _ _ _ _ ihindex ihvalue =>
      exact Expr.printed_assignElement ((hw t (by simp)).name hn)
        (ihindex fun t ht => hw t (by simp [ht])) (ihvalue fun t ht => hw t (by simp [ht]))
  | equality _ ih => exact ih hw
  | one _ ih => exact List.forall_mem_singleton.mpr (ih hw)
  | more _ _ _ ihfirst ihothers =>
      refine List.forall_mem_cons.mpr ⟨ihfirst fun t ht => hw t (by simp [ht]), ?_⟩
      exact ihothers fun t ht => hw t (by simp [ht])
  | noArgs => exact nofun
  | args _ ih => exact ih hw

end PocketC
