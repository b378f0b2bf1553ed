/-
  PocketC.Proofs.Grammar.Operations

  Parsing ends on every row of tokens, and goes on in it.  The operations of a parser are
  its steps, which neither repeat nor recur, and its readings, which do.  Of every reading
  there is one that counts nothing and one whose loops and recursion are bounded by a
  number.  Both do the same, whatever the tokens are, and none of them brings tokens back.
-/

import PocketC.Proofs.Grammar.Depth

namespace PocketC

open Readings

variable {α : Type}

/-! ## The operations of a parser -/

/-- The steps that neither repeat nor recur. -/
inductive IsStep : {α : Type} → Parse α → Prop
  | peek (offset : Nat) : IsStep (Parse.peek offset)
  | sees (k : Kind) (offset : Nat) : IsStep (Parse.sees k offset)
  | here : IsStep Parse.here
  | tokensLeft : IsStep Parse.tokensLeft
  | atAssignment : IsStep Grammar.atAssignment
  | atDeclaration : IsStep Grammar.atDeclaration
  | atVoid : IsStep Grammar.atVoid
  | misfit {α : Type} (cause : Misfit) (l : Location) : IsStep (Parse.misfit cause l : Parse α)
  | unexpected {α : Type} (k : Kind) : IsStep (Parse.unexpected k : Parse α)
  | expect (k : Kind) : IsStep (Parse.expect k)
  | accept (k : Kind) : IsStep (Parse.accept k)
  | identifier : IsStep Parse.identifier
  | literal {α : Type} {k : Kind} (hk : k ≠ .endOfInput) (meaning : String → Option α)
      (node : α → Location → Expr) : IsStep (Grammar.literal k meaning node)
  | jump {k : Kind} (hk : k ≠ .endOfInput) (node : Location → Stmt) : IsStep (Grammar.jump k node)
  | param : IsStep Grammar.param

/-- An operation, as it is without bounds and as it is with one. -/
inductive IsReading : {α : Type} → (Readings → Unbounded α) → ((bound : Nat) → Parse α) → Prop
  | step {α : Type} {x : Parse α} (h : IsStep x) : IsReading (fun _ => liftM x) fun _ => x
  | atElementAssignment : IsReading atElementAssignment fun _ => Grammar.atElementAssignment
  -- expressions
  | arguments (stop : Kind) :
      IsReading (arguments · stop) fun b => Parse.listUntil stop (Grammar.expression b) b
  | expressions : IsReading expressions fun b => Parse.sequence (Grammar.expression b) b
  | call : IsReading call fun b => Grammar.call (Grammar.expression b) b
  | nameOrElement : IsReading nameOrElement fun b => Grammar.nameOrElement (Grammar.expression b)
  | arrayLiteral : IsReading arrayLiteral fun b => Grammar.arrayLiteral (Grammar.expression b) b
  | parenthesized : IsReading parenthesized fun b => Grammar.parenthesized (Grammar.expression b)
  | value : IsReading value fun b => Grammar.value (Grammar.expression b) b
  | unary : IsReading unary fun b =>
      Grammar.unary (Grammar.value (Grammar.expression b) (b + 1)) (b + 1)
  | chain (level : BinaryTier) (left : Expr) : IsReading (chain · level left) fun b =>
      Grammar.chain level.operator (Grammar.operandWithin b level) (b + 1) left
  | tier (level : BinaryTier) : IsReading (fun r => r.tier level (r.operand level)) fun b =>
      Grammar.tier level.operator (b + 1) (Grammar.operandWithin b level)
  | nameAssignment : IsReading nameAssignment fun b =>
      Grammar.nameAssignment (Grammar.expression b)
  | elementAssignment : IsReading elementAssignment fun b =>
      Grammar.elementAssignment (Grammar.expression b)
  | expression : IsReading expression Grammar.expression
  -- declarations
  | arraySuffix (type : String) : IsReading (arraySuffix · type) (Grammar.arraySuffix type)
  | declarator (type : String) : IsReading (declarator · type) (Grammar.declarator type)
  | groups (type : String) :
      IsReading (groups · type) fun b => Parse.sequence (Grammar.declarator type b) b
  | declarators : IsReading declarators Grammar.declarators
  -- statements
  | returning : IsReading returning Grammar.returning
  | intrinsicCall : IsReading intrinsicCall Grammar.intrinsicCall
  | variablesOrExpression : IsReading variablesOrExpression Grammar.variablesOrExpression
  | simple : IsReading simple Grammar.simple
  | statements :
      IsReading statements fun b => Parse.manyUntil .closeBrace (Grammar.statement b) b
  | braces : IsReading braces fun b => Grammar.braces (Grammar.statement b) b
  | branch : IsReading branch fun b => Grammar.branch (Grammar.statement b)
  | condition : IsReading condition Grammar.condition
  | elseBranch : IsReading elseBranch fun b => Grammar.elseBranch (Grammar.statement b)
  | conditional :
      IsReading conditional fun b => Grammar.conditional (Grammar.statement b) (b + 1)
  | loopBody : IsReading loopBody fun b => Parse.insideLoop (Grammar.statement b)
  | whileStatement :
      IsReading whileStatement fun b => Grammar.whileStatement (Grammar.statement b) (b + 1)
  | forStatement :
      IsReading forStatement fun b => Grammar.forStatement (Grammar.statement b) (b + 1)
  | statement : IsReading statement Grammar.statement
  -- programs
  | paramList : IsReading paramList fun b => Parse.sequence Grammar.param b
  | params : IsReading params Grammar.params
  | function : IsReading function Grammar.function
  | topLevel : IsReading topLevel Grammar.topLevel
  | nodes : IsReading nodes fun b => Parse.manyUntil .endOfInput (Grammar.topLevel b) b
  | program : IsReading program fun _ => Grammar.program

/-! ## They end -/

/-- A step brings no tokens back. -/
theorem IsStep.leaves {x : Parse α} (h : IsStep x) (p : Parser) : Leaves 0 p (x p) := by
  cases h with
  | expect k =>
      by_cases hk : k = .endOfInput
      · subst hk
        exact leaves_expect_end p
      · exact (leaves_expect hk p).mono (Nat.zero_le 1)
  | accept k => exact leaves_accept k p
  | identifier => exact (leaves_identifier p).mono (Nat.zero_le 1)
  | literal hk meaning node => exact (leaves_literal hk meaning node p).mono (Nat.zero_le 1)
  | jump hk node => exact (leaves_jump hk node p).mono (Nat.zero_le 1)
  | param => exact (leaves_param p).mono (Nat.zero_le 1)
  | _ => exact Nat.le_refl _

/-- Every operation ends at a depth that is enough for the tokens left. -/
theorem IsReading.ends {u : Readings → Unbounded α} {x : Nat → Parse α} (h : IsReading u x)
    {r : Readings} {d n b : Nat} (hr : Ranked r d) (hd : 4 * n + 4 ≤ d) (hb : n ≤ b) :
    EndsAs n 0 (u r) (x b) := by
  have hprogress : ∀ {v : Unbounded α} {y : Parse α}, EndsAs n 1 v y → EndsAs n 0 v y :=
    fun hends => hends.mono (Nat.le_refl n) (Nat.zero_le 1)
  cases h with
  | step hx => exact .step hx.leaves
  | atElementAssignment => exact hr.atElementAssignment (by omega)
  | arguments stop => exact hr.arguments (by omega) hb hb
  | expressions => exact hprogress (hr.expressions (by omega) hb hb)
  | call => exact hprogress (hr.call (by omega) (by omega) hb)
  | nameOrElement => exact hprogress (hr.nameOrElement (by omega) (by omega))
  | arrayLiteral => exact hprogress (hr.arrayLiteral (by omega) (by omega) hb)
  | parenthesized => exact hprogress (hr.parenthesized (by omega) (by omega))
  | value => exact hprogress (hr.value (by omega) (by omega) hb)
  | unary => exact hprogress (hr.unary (by omega) (by omega) (by omega))
  | chain level left => exact hr.chain (by omega) (by omega) (by omega)
  | tier level =>
      have hoperand := hr.operand (n := n) (b := b) level (by omega) (by omega)
      exact hprogress (hr.tier (by omega) (by omega) hoperand)
  | nameAssignment => exact hprogress (hr.nameAssignment (by omega) (by omega))
  | elementAssignment => exact hprogress (hr.elementAssignment (by omega) (by omega))
  | expression => exact hprogress (hr.expression (by omega) hb)
  | arraySuffix type => exact hr.arraySuffix type (by omega) hb
  | declarator type => exact hprogress (hr.declarator type (by omega) hb)
  | groups type => exact hprogress (hr.groups (by omega) hb hb)
  | declarators => exact hprogress (hr.declarators (by omega) hb)
  | returning => exact hprogress (hr.returning (by omega) hb)
  | intrinsicCall => exact hprogress (hr.intrinsicCall (by omega) hb)
  | variablesOrExpression => exact hprogress (hr.variablesOrExpression (by omega) hb)
  | simple => exact hprogress (hr.simple (by omega) hb)
  | statements => exact hr.statements (by omega) hb hb
  | braces => exact hprogress (hr.braces (by omega) (by omega) hb)
  | branch => exact hprogress (hr.branch (by omega) hb)
  | condition => exact hprogress (hr.condition (by omega) hb)
  | elseBranch => exact hr.elseBranch (by omega) (by omega)
  | conditional => exact hprogress (hr.conditional (by omega) (by omega))
  | loopBody => exact hprogress (hr.loopBody (by omega) hb)
  | whileStatement => exact hprogress (hr.whileStatement (by omega) (by omega))
  | forStatement => exact hprogress (hr.forStatement (by omega) (by omega))
  | statement => exact hprogress (hr.statement (by omega) hb)
  | paramList => exact hprogress (hr.paramList (by omega) hb)
  | params => exact hr.params (by omega) hb
  | function => exact hprogress (hr.function (by omega) hb)
  | topLevel => exact hprogress (hr.topLevel (by omega) hb)
  | nodes => exact hr.nodes (by omega) hb hb
  | program => exact hr.program (by omega)

/-- What `parse` gives is how the reading of a program ended. -/
theorem parse_eq_ended (p : Parser) : p.parse = ended (Grammar.program p) := by
  unfold Parser.parse
  cases Grammar.program p <;> rfl

/-- Parsing comes to an end on every row of tokens, whether or not the row begins with a start or
    stops at an end, and what the parser gives is what it comes to without bounds.  Every
    operation ends there too and leaves no more tokens than it found; a node, a statement or an
    expression that was read leaves fewer.  The search for the end of an index ends, and at no
    time with a depth below zero. -/
theorem parsing_ends :
    (∀ (p : Parser) (d : Nat), 4 * p.cursor.length ≤ d →
      (within d).program p = some p.parse ∧ p.parse.2.cursor.length ≤ p.cursor.length) ∧
    (∀ {α : Type} {u : Readings → Unbounded α} {x : Nat → Parse α}, IsReading u x →
      ∀ (p : Parser) (d bound : Nat), 4 * p.cursor.length + 4 ≤ d → p.cursor.length ≤ bound →
        u (within d) p = some (ended (x bound p)) ∧ Leaves 0 p (x bound p)) ∧
    (∀ (p : Parser) (bound : Nat), p.cursor.length ≤ bound →
      Leaves 1 p (Grammar.topLevel bound p) ∧ Leaves 1 p (Grammar.statement bound p) ∧
        Leaves 1 p (Grammar.expression bound p)) ∧
    ∀ (s : Cursor) (d : Nat), s.length ≤ d →
      (within d).elementAssignmentNext s = some (some (Grammar.elementAssignmentNext s)) := by
  refine ⟨fun p d hd => ?_, fun hu p d bound hd hbound => ?_, fun p bound hbound => ?_,
    fun s d hd => (ranked_within d).elementAssignmentNext hd⟩
  · have hprogram := (ranked_within d).program hd
    have hends := hprogram.ends p (Nat.le_refl _)
    have hleaves := hprogram.leaves p (Nat.le_refl _)
    rw [parse_eq_ended]
    refine ⟨hends, ?_⟩
    cases hread : Grammar.program p <;> rw [hread] at hleaves <;> exact hleaves
  · have hends := hu.ends (ranked_within d) hd hbound
    exact ⟨hends.ends p (Nat.le_refl _), hends.leaves p (Nat.le_refl _)⟩
  · have hranked := ranked_within (4 * p.cursor.length + 4)
    exact ⟨(hranked.topLevel (by omega) hbound).leaves p (Nat.le_refl _),
      (hranked.statement (by omega) hbound).leaves p (Nat.le_refl _),
      (hranked.expression (by omega) hbound).leaves p (Nat.le_refl _)⟩

/-- A row with an end in the middle, a bracket that nothing opened, and an index that nothing
    closes. -/
theorem parsing_ends_astray :
    (4 * 3 ≤ 12 ∧ (within 12).program ⟨⟨[⟨.startOfInput, none, .start⟩,
        ⟨.endOfInput, none, .start⟩, ⟨.startOfInput, none, .start⟩], .start⟩, 0⟩ =
      some (.ok ⟨[]⟩, ⟨⟨[⟨.startOfInput, none, .start⟩], .start⟩, 0⟩)) ∧
    (4 * 1 + 4 ≤ 8 ∧ 1 ≤ 1 ∧ (within 8).expression ⟨⟨[⟨.closeBracket, none, .start⟩], .start⟩, 0⟩ =
      some (.error ⟨.unexpected .openParen .closeBracket [⟨.closeBracket, none, .start⟩], .start⟩,
        ⟨⟨[⟨.closeBracket, none, .start⟩], .start⟩, 0⟩)) ∧
    (1 ≤ 1 ∧ Leaves 1 ⟨⟨[⟨.closeBracket, none, .start⟩], .start⟩, 0⟩
      (Grammar.statement 1 ⟨⟨[⟨.closeBracket, none, .start⟩], .start⟩, 0⟩)) ∧
    2 ≤ 2 ∧ (within 2).elementAssignmentNext
        ⟨[⟨.identifier, some "x", .start⟩, ⟨.openBracket, none, .start⟩], .start⟩ =
      some (some false) := by
  refine ⟨⟨by decide, ?_⟩, ⟨by decide, by decide, ?_⟩, ⟨by decide, ?_⟩, by decide, ?_⟩
  · exact (parsing_ends.1 _ 12 (by decide)).1.trans rfl
  · exact (parsing_ends.2.1 .expression _ 8 1 (by decide) (by decide)).1.trans rfl
  · exact (parsing_ends.2.2.1 _ 1 (by decide)).2.1
  · exact (parsing_ends.2.2.2 _ 2 (by decide)).trans (by decide)

end PocketC
