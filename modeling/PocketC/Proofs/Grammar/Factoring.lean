/-
  PocketC.Proofs.Grammar.Factoring

  Readings that look further ahead than the next token, without doing so.  What such a
  reading decides ahead of time is decided when the token is reached: up to there the
  alternatives read the same.  The brackets of `name [ ... ]` are looked at up to the
  closing one, but whatever an index reads is passed over by that search, so the `=` that
  it looks for is the token behind the index.
-/

import PocketC.Grammar.Program
import PocketC.Proofs.Grammar.Completeness

namespace PocketC

/-- The next token is in front, if it is not the end of the input. -/
theorem Parser.exists_prepend_of_next {p : Parser} {k : Kind} (hp : p.next = k)
    (hk : k ≠ .endOfInput) : ∃ (t : Token) (q : Parser), t.kind = k ∧ p = q.prepend [t] :=
  ⟨_, _, hp, Parser.eq_prepend_of_next (by rwa [hp])⟩

namespace Grammar

open Parse

/-! ## Places -/

/-- The place of the next token is that of the token that is read. -/
theorem here_expect {α : Type} (k : Kind) (f : Location → Token → Parse α) :
    (do let l ← here; let t ← expect k; f l t) = (do let t ← expect k; f t.location t) := by
  funext p
  rw [bind_ok (here_eq p), bind_apply, bind_apply]
  unfold expect Cursor.take
  by_cases h : (p.cursor.peek 0).kind = k
  · rw [if_pos h]
  · rw [if_neg h]

/-- The same for a name. -/
theorem here_identifier {α : Type} (f : Location → String → Parse α) :
    (do let l ← here; let name ← identifier; f l name) =
      (do let t ← expect .identifier; f t.location t.text) := by
  simp only [identifier, bind_assoc, pure_bind]
  exact here_expect .identifier fun l t => f l t.text

/-! ## Values -/

/-- Reads on behind a name that begins a value. -/
def valueAfter (expr : Parse Expr) (bound : Nat) (name : Token) : Parse Expr := do
  if ← accept .openParen then
    let args ← listUntil .closeParen expr bound
    let _ ← expect .closeParen
    return .call name.text args name.location
  else if ← accept .openBracket then
    let index ← expr
    let _ ← expect .closeBracket
    return .element name.text index name.location
  else return .var name.text name.location

theorem value_name {expr : Parse Expr} {bound : Nat} {p : Parser} (hp : p.next = .identifier) :
    value expr bound p = (expect .identifier >>= valueAfter expr bound) p := by
  obtain ⟨name, q, hn, rfl⟩ := Parser.exists_prepend_of_next hp (by decide)
  rw [value_eq, hp, bind_ok (expect_prepend [] hn), Parser.prepend_nil]
  dsimp only
  by_cases hnext : q.next = .openParen
  · have hsees : (q.prepend [name]).cursor.sees .openParen 1 = true := beq_iff_eq.mpr hnext
    obtain ⟨opening, r, ho, rfl⟩ := Parser.exists_prepend_of_next hnext (by decide)
    rw [if_pos hsees, call, here_identifier, bind_ok (expect_prepend _ hn), Parser.prepend_nil,
      bind_ok (expect_prepend [] ho), valueAfter, bind_ok (accept_prepend [] ho), if_pos rfl]
  · have hsees : (q.prepend [name]).cursor.sees .openParen 1 = false := beq_false_of_ne hnext
    rw [hsees, if_neg Bool.false_ne_true, nameOrElement, here_identifier,
      bind_ok (expect_prepend _ hn), Parser.prepend_nil, valueAfter, bind_ok (accept_of_ne hnext),
      if_neg Bool.false_ne_true]

/-! ## Operators -/

theorem unary_minus {value : Parse Expr} {n : Nat} {p : Parser} (hp : p.next = .minus) :
    unary value (n + 1) p = (do
      let sign ← expect .minus
      let operand ← unary value n
      return .negate operand sign.location : Parse Expr) p := by
  obtain ⟨sign, q, hs, rfl⟩ := Parser.exists_prepend_of_next hp (by decide)
  rw [unary, bind_ok (here_eq _), bind_ok (accept_prepend [] hs), if_pos rfl,
    bind_ok (expect_prepend [] hs)]
  rfl

/-- With an operator of the tier in front, it is read. -/
theorem chain_operator {level : BinaryTier} {operand : Parse Expr} {n : Nat} {left : Expr}
    {op : BinaryOp} {p : Parser} (hlevel : op.level = level) (hp : p.next = op.kind) :
    chain level.operator operand (n + 1) left p = (do
      let sign ← expect op.kind
      let right ← operand
      chain level.operator operand n (.binary op left right sign.location) : Parse Expr) p := by
  have hop : level.operator p.next = some op :=
    BinaryTier.operator_eq_some_iff.mpr ⟨hlevel, hp.symm⟩
  obtain ⟨sign, q, hs, rfl⟩ := Parser.exists_prepend_of_next hp (by cases op <;> decide)
  rw [chain_eq, hop, hp]
  dsimp only
  rw [bind_ok (expect_prepend [] hs), bind_ok (expect_prepend [] hs)]
  rfl

/-- Reads on behind a value: all operators with their right operands. -/
def operations (bound : Nat) (unary : Parse Expr) (left : Expr) : Parse Expr := do
  let product ← chain multiplicativeOp unary bound left
  let sum ← chain additiveOp (tier multiplicativeOp bound unary) bound product
  let comparison ← chain relationalOp (tier additiveOp bound (tier multiplicativeOp bound unary))
    bound sum
  chain equalityOp (tier relationalOp bound (tier additiveOp bound
    (tier multiplicativeOp bound unary))) bound comparison

theorem equality_eq (bound : Nat) (unary : Parse Expr) :
    equality bound unary = (do let left ← unary; operations bound unary left) := by
  simp only [equality, tier, operations, bind_assoc]

/-! ## Assignments -/

/-- Reads on behind a name that begins an expression, with inner expressions of a bound. -/
def expressionAfter (b : Nat) (name : Token) : Parse Expr := do
  let unary := unary (value (expression b) (b + 1)) (b + 1)
  if ← accept .assign then return .assign name.text (← expression b) name.location
  else if ← accept .openBracket then
    let index ← expression b
    let _ ← expect .closeBracket
    if ← accept .assign then
      return .assignElement name.text index (← expression b) name.location
    else operations (b + 1) unary (.element name.text index name.location)
  else
    let left ← valueAfter (expression b) (b + 1) name
    operations (b + 1) unary left

/-- Without a name in front it is no assignment that is read. -/
theorem expression_other {b : Nat} {p : Parser} (hp : p.next ≠ .identifier) :
    expression (b + 1) p =
      equality (b + 1) (unary (value (expression b) (b + 1)) (b + 1)) p :=
  expressionWith_equality (noTarget_of_first hp)

theorem equality_name {expr : Parse Expr} {bound : Nat} {p : Parser}
    (hp : p.next = .identifier) :
    equality bound (unary (value expr bound) bound) p = (do
      let name ← expect .identifier
      let left ← valueAfter expr bound name
      operations bound (unary (value expr bound) bound) left) p := by
  have hunary : unary (value expr bound) bound p =
      (expect .identifier >>= valueAfter expr bound) p := by
    rw [unary_value bound (by rw [hp]; decide), value_name hp]
  rw [equality_eq, bind_apply, hunary, ← bind_apply, bind_assoc]

/-- Reads on behind the bracket that begins the index of an element; an `=` behind the bracket that
    closes it makes the element the target of an assignment. -/
def elementAfter (expr : Parse Expr) (bound : Nat) (name : Token) : Parse Expr := do
  let index ← expr
  let _ ← expect .closeBracket
  if ← accept .assign then
    let value ← expr
    return .assignElement name.text index value name.location
  else operations bound (unary (value expr bound) bound) (.element name.text index name.location)

theorem expressionAfter_index {b : Nat} {name opening : Token} {q : Parser}
    (ho : opening.kind = .openBracket) :
    expressionAfter b name (q.prepend [opening]) = elementAfter (expression b) (b + 1) name q := by
  have hbracket : (q.prepend [opening]).next = .openBracket := ho
  have hne : (q.prepend [opening]).next ≠ .assign := by rw [hbracket]; decide
  rw [expressionAfter, bind_ok (accept_of_ne hne), if_neg Bool.false_ne_true,
    bind_ok (accept_prepend [] ho), if_pos rfl, Parser.prepend_nil]
  rfl

section
variable {expr : Parse Expr} {bound : Nat} {name opening : Token} {q : Parser}
  (hn : name.kind = .identifier) (ho : opening.kind = .openBracket)
include hn ho

theorem elementAssignment_index :
    elementAssignment expr (q.prepend [name, opening]) = (do
      let index ← expr
      let _ ← expect .closeBracket
      let _ ← expect .assign
      let value ← expr
      return Expr.assignElement name.text index value name.location : Parse Expr) q := by
  rw [elementAssignment, here_identifier, bind_ok (expect_prepend [opening] hn),
    bind_ok (expect_prepend [] ho), Parser.prepend_nil]

theorem equality_index :
    equality bound (unary (value expr bound) bound) (q.prepend [name, opening]) = (do
      let index ← expr
      let _ ← expect .closeBracket
      operations bound (unary (value expr bound) bound)
        (.element name.text index name.location) : Parse Expr) q := by
  have hname : (q.prepend [name, opening]).next = .identifier := hn
  have hbracket : (q.prepend [opening]).next = .openBracket := ho
  have hne : (q.prepend [opening]).next ≠ .openParen := by rw [hbracket]; decide
  rw [equality_name hname, bind_ok (expect_prepend [opening] hn), valueAfter, bind_assoc,
    bind_ok (accept_of_ne hne), if_neg Bool.false_ne_true, bind_assoc,
    bind_ok (accept_prepend [] ho), if_pos rfl, Parser.prepend_nil]
  simp only [bind_assoc, pure_bind]

variable (hexpr : Reads expr (.expr .assignment))
include hexpr

/-- The search for the end of an index passes over what the index has read, so what it tells is
    whether an `=` is behind the bracket there. -/
theorem elementAssignmentNext_index {index : Expr} {r : Parser} (hindex : expr q = .ok index r)
    (hclose : r.next = .closeBracket) :
    elementAssignmentNext (q.prepend [name, opening]).cursor = r.cursor.sees .assign 1 := by
  obtain ⟨w, rfl, hw⟩ := hexpr q index r hindex
  obtain ⟨closing, s, hc, rfl⟩ := Parser.exists_prepend_of_next hclose (by decide)
  have hnext := elementAssignmentNext_element (q := s) hn ho hc hw.passed
  rw [Parser.sees_prepend_singleton, ← hnext]
  simp

/-- With an index in front the reading takes one of two ways by what is behind the bracket that
    closes it; both ways read the index, and fail where it does. -/
theorem expressionWith_index :
    expressionWith expr bound (q.prepend [name, opening]) = elementAfter expr bound name q := by
  rw [expressionWith_eq, assignmentNext_bracket ho, if_neg Bool.false_ne_true,
    elementAssignment_index hn ho, equality_index hn ho, elementAfter]
  cases hindex : expr q with
  | error e r => simp only [bind_apply, hindex, ite_self]
  | ok index r =>
      rw [bind_ok hindex, bind_ok hindex, bind_ok hindex]
      by_cases hclose : r.next = .closeBracket
      · rw [elementAssignmentNext_index hn ho hexpr hindex hclose]
        obtain ⟨closing, s, hc, rfl⟩ := Parser.exists_prepend_of_next hclose (by decide)
        rw [Parser.sees_prepend_singleton, bind_ok (expect_prepend [] hc),
          bind_ok (expect_prepend [] hc), bind_ok (expect_prepend [] hc), Parser.prepend_nil]
        by_cases ha : s.next = .assign
        · obtain ⟨sign, t, hs, rfl⟩ := Parser.exists_prepend_of_next ha (by decide)
          rw [if_pos (beq_iff_eq.mpr ha), bind_ok (expect_prepend [] hs),
            bind_ok (accept_prepend [] hs), if_pos rfl]
        · rw [beq_false_of_ne ha, if_neg Bool.false_ne_true, bind_ok (accept_of_ne ha),
            if_neg Bool.false_ne_true]
      · simp only [bind_apply, expect_of_ne hclose, ite_self]

end

theorem expression_name {b : Nat} {p : Parser} (hp : p.next = .identifier) :
    expression (b + 1) p = (expect .identifier >>= expressionAfter b) p := by
  obtain ⟨name, q, hn, rfl⟩ := Parser.exists_prepend_of_next hp (by decide)
  rw [bind_ok (expect_prepend [] hn), Parser.prepend_nil, expression]
  by_cases ha : q.next = .assign
  · obtain ⟨sign, r, hs, rfl⟩ := Parser.exists_prepend_of_next ha (by decide)
    have hnext : assignmentNext ((r.prepend [sign]).prepend [name]).cursor = true := by
      show (name.kind == .identifier && sign.kind == .assign) = true
      rw [hn, hs]
      rfl
    rw [expressionWith_eq, if_pos hnext, nameAssignment, here_identifier,
      bind_ok (expect_prepend [] hn), Parser.prepend_nil, bind_ok (expect_prepend [] hs),
      expressionAfter, bind_ok (accept_prepend [] hs), if_pos rfl]
  by_cases hb : q.next = .openBracket
  · obtain ⟨opening, r, ho, rfl⟩ := Parser.exists_prepend_of_next hb (by decide)
    rw [Parser.prepend_prepend, List.singleton_append,
      expressionWith_index hn ho (reads_expression b), expressionAfter_index ho]
  · rw [expressionWith_equality (noTarget_of_second ha hb), equality_name hp,
      bind_ok (expect_prepend [] hn), Parser.prepend_nil, expressionAfter,
      bind_ok (accept_of_ne ha), if_neg Bool.false_ne_true, bind_ok (accept_of_ne hb),
      if_neg Bool.false_ne_true]

/-! ## Lists -/

/-- Reads on behind the first item. -/
def sequenceAfter {α : Type} (item : Parse α) : (bound : Nat) → α → Parse (List α)
  | 0, first => return [first]
  | bound + 1, first => do
    if ← accept .comma then return first :: (← Parse.sequence item bound)
    else return [first]

theorem sequence_eq {α : Type} (item : Parse α) (bound : Nat) :
    Parse.sequence item bound = item >>= sequenceAfter item bound := by
  cases bound <;> rfl

/-! ## Variables -/

/-- Reads on behind the name of a declarator. -/
def declaratorAfter (type : String) (bound : Nat) (name : Token) : Parse (List Stmt) := do
  let suffix ← arraySuffix type bound
  let declaration := Stmt.declareVar name.text suffix.1 suffix.2 name.location
  if ← accept .assign then
    let value ← expression bound
    return [declaration, .expression (.assign name.text value name.location)]
  else return [declaration]

theorem declarator_eq (type : String) (bound : Nat) :
    declarator type bound = expect .identifier >>= declaratorAfter type bound := by
  rw [declarator, here_identifier]
  rfl

/-- Reads on behind the type of declarators. -/
def declaratorsAfter (bound : Nat) (type : Token) : Parse Stmt := do
  let groups ← Parse.sequence (declarator type.text bound) bound
  return .group groups.flatten

theorem declarators_eq (bound : Nat) :
    declarators bound = expect .identifier >>= declaratorsAfter bound := by
  simp only [declarators, identifier, bind_assoc, pure_bind]
  rfl

/-- Reads on behind a name that begins a declaration or an expression. -/
def variablesOrExpressionAfter (b : Nat) (first : Token) : Parse Stmt := do
  if ← sees .identifier 0 then declaratorsAfter (b + 1) first
  else return .expression (← expressionAfter b first)

theorem variablesOrExpression_name {b : Nat} {p : Parser} (hp : p.next = .identifier) :
    variablesOrExpression (b + 1) p =
      (expect .identifier >>= variablesOrExpressionAfter b) p := by
  obtain ⟨first, q, hn, rfl⟩ := Parser.exists_prepend_of_next hp (by decide)
  have hat : atDeclaration (q.prepend [first]) =
      .ok (q.cursor.sees .identifier 0) (q.prepend [first]) := by
    have hfirst : (q.prepend [first]).cursor.sees .identifier 0 = true := beq_iff_eq.mpr hn
    rw [atDeclaration, hfirst, Bool.true_and]
    rfl
  rw [variablesOrExpression, bind_ok hat, bind_ok (expect_prepend [] hn), Parser.prepend_nil,
    variablesOrExpressionAfter, bind_ok (sees_eq .identifier 0 q)]
  split
  · rw [declarators_eq, bind_ok (expect_prepend [] hn), Parser.prepend_nil]
  · rw [bind_apply, expression_name hp, bind_ok (expect_prepend [] hn), Parser.prepend_nil,
      ← bind_apply]

theorem variablesOrExpression_other {bound : Nat} {p : Parser} (hp : p.next ≠ .identifier) :
    variablesOrExpression bound p = (do return Stmt.expression (← expression bound)) p := by
  have hat : atDeclaration p = .ok false p := by
    have hsees : p.cursor.sees .identifier 0 = false := beq_false_of_ne hp
    rw [atDeclaration, hsees, Bool.false_and]
  rw [variablesOrExpression, bind_ok hat, if_neg Bool.false_ne_true]

/-! ## Blocks -/

/-- Reads on behind the brace that opens a row of statements. -/
def bracesAfter (statement : Parse Stmt) (bound : Nat) : Parse (List Stmt) := do
  let body ← manyUntil .closeBrace statement bound
  let _ ← expect .closeBrace
  return body

theorem block_eq (statement : Parse Stmt) (bound : Nat) :
    (do let l ← here; let body ← braces statement bound; return .block body l : Parse Stmt) = (do
      let opening ← expect .openBrace
      let body ← bracesAfter statement bound
      return .block body opening.location) := by
  simp only [braces, bracesAfter, bind_assoc, pure_bind]
  exact here_expect .openBrace fun l _ => _

/-! ## Functions -/

/-- Reads on behind the type of a parameter. -/
def paramAfter (type : Token) : Parse Param := do
  let name ← expect .identifier
  if ← accept .openBracket then
    let _ ← expect .closeBracket
    return ⟨type.text ++ "[]", name.text⟩
  else return ⟨type.text, name.text⟩

theorem param_eq : param = expect .identifier >>= paramAfter := by
  simp only [param, identifier, bind_assoc, pure_bind]
  rfl

/-- Reads on behind the first word of the parameters. -/
def paramsAfter (bound : Nat) (type : Token) : Parse (List Param) := do
  let more : Parse (List Param) := paramAfter type >>= sequenceAfter param bound
  if type.text = "void" then
    if ← sees .closeParen 0 then return []
    else more
  else more

theorem params_eq (bound : Nat) :
    params bound = (do
      if ← sees .closeParen 0 then return []
      else expect .identifier >>= paramsAfter bound) := by
  have hlist : Parse.sequence param bound = (do
      let type ← expect .identifier
      paramAfter type >>= sequenceAfter param bound) := by
    rw [sequence_eq, param_eq, bind_assoc]
  funext p
  rw [params, bind_ok (sees_eq .closeParen 0 p), bind_ok (sees_eq .closeParen 0 p)]
  split
  · rfl
  by_cases hp : p.next = .identifier
  · obtain ⟨type, q, ht, rfl⟩ := Parser.exists_prepend_of_next hp (by decide)
    have hat : atVoid (q.prepend [type]) =
        .ok (type.text == "void" && q.cursor.sees .closeParen 0) (q.prepend [type]) := by
      have hfirst : (q.prepend [type]).cursor.sees .identifier 0 = true := beq_iff_eq.mpr ht
      rw [atVoid, hfirst, Bool.true_and]
      rfl
    rw [bind_ok hat, bind_ok (expect_prepend [] ht), Parser.prepend_nil, paramsAfter]
    by_cases hvoid : type.text = "void"
    · rw [if_pos hvoid, bind_ok (sees_eq .closeParen 0 q), beq_iff_eq.mpr hvoid, Bool.true_and]
      split
      · rw [bind_ok (expect_prepend [] ht)]
        rfl
      · rw [hlist, bind_ok (expect_prepend [] ht), Parser.prepend_nil]
    · rw [if_neg hvoid, beq_false_of_ne hvoid, Bool.false_and, if_neg Bool.false_ne_true, hlist,
        bind_ok (expect_prepend [] ht), Parser.prepend_nil]
  · have hat : atVoid p = .ok false p := by
      have hfirst : p.cursor.sees .identifier 0 = false := beq_false_of_ne hp
      rw [atVoid, hfirst, Bool.false_and, Bool.false_and]
    rw [bind_ok hat, if_neg Bool.false_ne_true, hlist, bind_apply, bind_apply, expect_of_ne hp]

/-- Reads on behind the parenthesis that opens the parameters of a function. -/
def functionAfter (bound : Nat) (type name : Token) : Parse Stmt := do
  let ps ← params bound
  let _ ← expect .closeParen
  if ← sees .openBrace 0 then
    let body ← braces (statement bound) bound
    return .group [.declareFun name.text type.text ps type.location,
      .defineFun name.text type.text ps body type.location]
  else
    let _ ← expect .semicolon
    return .declareFun name.text type.text ps type.location

theorem function_eq (bound : Nat) :
    function bound = (do
      let type ← expect .identifier
      let name ← expect .identifier
      let _ ← expect .openParen
      functionAfter bound type name) := by
  rw [function, here_identifier]
  simp only [identifier, bind_assoc, pure_bind]
  rfl

/-- Reads on behind the first two words of a node. -/
def topLevelAfter (bound : Nat) (type name : Token) : Parse Stmt := do
  if ← accept .openParen then functionAfter bound type name
  else
    let first ← declaratorAfter type.text bound name
    let groups ← sequenceAfter (declarator type.text bound) bound first
    let _ ← expect .semicolon
    return .group groups.flatten

theorem topLevel_eq (bound : Nat) :
    topLevel bound = (do
      let type ← expect .identifier
      let name ← expect .identifier
      topLevelAfter bound type name) := by
  have hvariables : (do let s ← declarators bound; let _ ← expect .semicolon; return s) = (do
      let type ← expect .identifier
      let name ← expect .identifier
      let first ← declaratorAfter type.text bound name
      let groups ← sequenceAfter (declarator type.text bound) bound first
      let _ ← expect .semicolon
      return Stmt.group groups.flatten) := by
    simp only [declarators_eq, declaratorsAfter, sequence_eq, declarator_eq, bind_assoc, pure_bind]
  funext p
  rw [topLevel, function_eq, hvariables, bind_ok (sees_eq .openParen 2 p)]
  by_cases ht : p.next = .identifier
  · obtain ⟨type, q, hkind, rfl⟩ := Parser.exists_prepend_of_next ht (by decide)
    rw [bind_ok (expect_prepend [] hkind)]
    by_cases hn : q.next = .identifier
    · obtain ⟨name, r, hkind', rfl⟩ := Parser.exists_prepend_of_next hn (by decide)
      have hsees : ((r.prepend [name]).prepend [type]).cursor.sees .openParen 2 =
          (r.next == .openParen) := rfl
      rw [Parser.prepend_nil, bind_ok (expect_prepend [] hkind'), Parser.prepend_nil, hsees,
        topLevelAfter]
      by_cases ho : r.next = .openParen
      · obtain ⟨opening, s, hkind'', rfl⟩ := Parser.exists_prepend_of_next ho (by decide)
        rw [if_pos (beq_iff_eq.mpr ho), bind_ok (expect_prepend [] hkind), Parser.prepend_nil,
          bind_ok (expect_prepend [] hkind'), Parser.prepend_nil,
          bind_ok (expect_prepend [] hkind''), bind_ok (accept_prepend [] hkind''), if_pos rfl]
      · rw [beq_false_of_ne ho, if_neg Bool.false_ne_true, bind_ok (expect_prepend [] hkind),
          Parser.prepend_nil, bind_ok (expect_prepend [] hkind'), Parser.prepend_nil,
          bind_ok (accept_of_ne ho), if_neg Bool.false_ne_true]
    -- without two words in front both readings fail at the same token
    · split <;> rw [bind_ok (expect_prepend [] hkind), Parser.prepend_nil, bind_apply, bind_apply,
        expect_of_ne hn]
  · split <;> rw [bind_apply, bind_apply, expect_of_ne ht]

end Grammar
end PocketC
