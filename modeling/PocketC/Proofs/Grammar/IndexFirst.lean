/-
  PocketC.Proofs.Grammar.IndexFirst

  Reading expressions without the search for the end of an index.  An assignment to an
  element begins as the element does, and which of the two is read is decided ahead of
  time: the search for the bracket that closes the index counts square brackets and takes
  no notice of any other token but the end of the input.  `indexFirst` reads the index
  first and looks for an `=` when it is the next token.  Both read the same and fail the
  same: an index that is read closes the brackets that it opens, so that the search stops
  where the index does, and where no index is read both ways fail in it, whatever the
  search tells.  Hence the `=` that an assignment to an element has to have is always
  there, and no expression is refused for want of one.
-/

import PocketC.Proofs.Grammar.Factoring

namespace PocketC
namespace Grammar

open Parse

/-! ## Reading the index first -/

/-- Whether `name [` is next. -/
def elementNext (s : Cursor) : Bool := s.sees .identifier 0 && s.sees .openBracket 1

/-- Whether `name [` is next. -/
def atElement : Parse Bool := fun p => .ok (elementNext p.cursor) p

/-- Reads an expression whose inner expressions are read by `expr`; behind `name [ index ]` it
    looks whether the next token is an `=`. -/
def indexFirstWith (expr : Parse Expr) (bound : Nat) : Parse Expr := do
  if ← atAssignment then nameAssignment expr
  else if ← atElement then
    let name ← expect .identifier
    let _ ← expect .openBracket
    elementAfter expr bound name
  else equality bound (unary (value expr bound) bound)

/-- Reads an expression, and so all expressions in it, the index of an element first. -/
def indexFirst : (bound : Nat) → Parse Expr
  | 0 => unexpected .openParen
  | bound + 1 => indexFirstWith (indexFirst bound) (bound + 1)

theorem indexFirstWith_apply (expr : Parse Expr) (bound : Nat) (p : Parser) :
    indexFirstWith expr bound p =
      if assignmentNext p.cursor then nameAssignment expr p
      else if elementNext p.cursor then (do
        let name ← expect .identifier
        let _ ← expect .openBracket
        elementAfter expr bound name : Parse Expr) p
      else equality bound (unary (value expr bound) bound) p := by
  have hname : atAssignment p = .ok (assignmentNext p.cursor) p := rfl
  have helement : atElement p = .ok (elementNext p.cursor) p := rfl
  rw [indexFirstWith, bind_ok hname]
  split
  · rfl
  · rw [bind_ok helement]
    split <;> rfl

/-- A name and a bracket that are next are in front. -/
theorem exists_prepend_of_elementNext {p : Parser} (h : elementNext p.cursor = true) :
    ∃ (name opening : Token) (q : Parser), name.kind = .identifier ∧
      opening.kind = .openBracket ∧ p = q.prepend [name, opening] := by
  obtain ⟨hname, hopen⟩ := Bool.and_eq_true_iff.mp h
  obtain ⟨name, r, hn, rfl⟩ := Parser.exists_prepend_of_next (beq_iff_eq.mp hname) (by decide)
  have hnext : r.next = .openBracket := beq_iff_eq.mp hopen
  obtain ⟨opening, q, ho, rfl⟩ := Parser.exists_prepend_of_next hnext (by decide)
  exact ⟨name, opening, q, hn, ho, Parser.prepend_prepend q [name] [opening]⟩

theorem elementAssignmentNext_eq (s : Cursor) :
    elementAssignmentNext s = (elementNext s && assignFollows 0 (s.rest.drop 2)) := rfl

/-- Which of the two is read may be decided ahead or behind the index, if what is read as an index
    derives it. -/
theorem indexFirstWith_eq {expr : Parse Expr} (hexpr : Reads expr (.expr .assignment))
    (bound : Nat) : indexFirstWith expr bound = expressionWith expr bound := by
  funext p
  cases helement : elementNext p.cursor with
  | true =>
      obtain ⟨name, opening, q, hn, ho, rfl⟩ := exists_prepend_of_elementNext helement
      rw [expressionWith_index hn ho hexpr, indexFirstWith_apply, helement,
        assignmentNext_bracket ho, if_neg Bool.false_ne_true, if_pos rfl,
        bind_ok (expect_prepend [opening] hn), bind_ok (expect_prepend [] ho),
        Parser.prepend_nil]
  | false =>
      rw [indexFirstWith_apply, expressionWith_eq, elementAssignmentNext_eq, helement,
        Bool.false_and, if_neg Bool.false_ne_true, if_neg Bool.false_ne_true]

/-- Reading the index first reads the same, since the inner expressions do. -/
theorem indexFirst_eq (bound : Nat) : indexFirst bound = expression bound := by
  induction bound with
  | zero => rfl
  | succ bound ih =>
      rw [indexFirst, ih, indexFirstWith_eq (reads_expression bound), expression]

end Grammar

/-! ## What is missed where reading fails -/

/-- Reading stopped because the next token had to be of kind `k`. -/
def ParseError.Wants (e : ParseError) (k : Kind) : Prop :=
  ∃ found remaining, e.cause = .unexpected k found remaining

/-- A mismatch wants the kind that had to be next, and no other. -/
theorem Cursor.wants_mismatch {s : Cursor} {j k : Kind} (h : (s.mismatch j).Wants k) : j = k := by
  obtain ⟨found, remaining, hcause⟩ := h
  cases hcause
  rfl

namespace Parse

variable {α β : Type} {k : Kind}

/-- The reading never fails for want of a token of kind `k`. -/
def NeverWants (k : Kind) (x : Parse α) : Prop := ∀ p e q, x p = .error e q → ¬ e.Wants k

namespace NeverWants

theorem bind {x : Parse α} {f : α → Parse β} (hx : NeverWants k x)
    (hf : ∀ a, NeverWants k (f a)) : NeverWants k (x >>= f) := by
  intro p e q h
  rw [bind_apply] at h
  cases hp : x p with
  | ok a r =>
      rw [hp] at h
      exact hf a r e q h
  | error e' r =>
      rw [hp] at h
      cases h
      exact hx p _ _ hp

/-- What only looks, or always succeeds, does not fail. -/
theorem ofOk {x : Parse α} (h : ∀ p, ∃ a q, x p = .ok a q) : NeverWants k x := by
  intro p e q he
  obtain ⟨a, r, hp⟩ := h p
  rw [hp] at he
  cases he

theorem pure (a : α) : NeverWants k (pure a : Parse α) := .ofOk fun p => ⟨a, p, rfl⟩

theorem expect {j : Kind} (hj : j ≠ k) : NeverWants k (expect j) := by
  intro p e q h
  by_cases hp : p.next = j
  · have htake : p.cursor.take j = .ok (p.cursor.peek 0, p.cursor.skip) := if_pos hp
    rw [Parse.expect, htake] at h
    cases h
  · rw [expect_of_ne hp] at h
    cases h
    exact fun hwants => hj (Cursor.wants_mismatch hwants)

theorem choice {b : Parse Bool} {x y : Parse α} (hb : ∀ p, ∃ a q, b p = .ok a q)
    (hx : NeverWants k x) (hy : NeverWants k y) :
    NeverWants k (do if ← b then x else y) := by
  refine (ofOk hb).bind fun a => ?_
  cases a with
  | true => exact hx
  | false => exact hy

theorem accept {j : Kind} {x y : Parse α} (hx : NeverWants k x) (hy : NeverWants k y) :
    NeverWants k (do if ← accept j then x else y) :=
  .choice (fun _ => ⟨_, _, rfl⟩) hx hy

theorem sees {j : Kind} {n : Nat} {x y : Parse α} (hx : NeverWants k x) (hy : NeverWants k y) :
    NeverWants k (do if ← sees j n then x else y) :=
  .choice (fun _ => ⟨_, _, rfl⟩) hx hy

theorem sequence {item : Parse α} (hitem : NeverWants k item) (bound : Nat) :
    NeverWants k (sequence item bound) := by
  induction bound with
  | zero => exact hitem.bind fun a => .pure [a]
  | succ bound ih =>
      refine hitem.bind fun a => .accept ?_ (.pure [a])
      exact ih.bind fun as => .pure (a :: as)

theorem listUntil {stop : Kind} {item : Parse α} (hitem : NeverWants k item) (bound : Nat) :
    NeverWants k (listUntil stop item bound) :=
  .sees (.pure []) (hitem.sequence bound)

end NeverWants
end Parse

namespace Grammar

open Parse

theorem neverWants_literal {α : Type} {j k : Kind} (hj : j ≠ k) (meaning : String → Option α)
    (node : α → Location → Expr) : NeverWants k (literal j meaning node) := by
  refine (NeverWants.expect hj).bind fun token => ?_
  cases meaning token.text with
  | some a => exact .pure _
  | none =>
      intro p e q h
      cases h
      rintro ⟨found, remaining, hcause⟩
      cases hcause

section
variable {expr : Parse Expr} (hexpr : NeverWants .assign expr)
include hexpr

theorem neverWants_valueAfter (bound : Nat) (name : Token) :
    NeverWants .assign (valueAfter expr bound name) := by
  refine .accept ?_ (.accept ?_ (.pure _))
  · exact (hexpr.listUntil bound).bind fun args => (NeverWants.expect (by decide)).bind fun _ =>
      .pure _
  · exact hexpr.bind fun index => (NeverWants.expect (by decide)).bind fun _ => .pure _

theorem neverWants_value (bound : Nat) : NeverWants .assign (value expr bound) := by
  intro p
  by_cases hp : p.next = .identifier
  · -- what is behind a name is taken if it is there, and only brackets have to be closed
    rw [value_name hp]
    exact (NeverWants.expect (by decide)).bind (neverWants_valueAfter hexpr bound) p
  · rw [value_eq]
    split
    · exact neverWants_literal (by decide) intMeaning .int p
    · exact neverWants_literal (by decide) stringMeaning .string p
    · exact neverWants_literal (by decide) charMeaning .char p
    · refine (NeverWants.expect (by decide)).bind (fun token => ?_) p
      exact (hexpr.listUntil bound).bind fun elements =>
        (NeverWants.expect (by decide)).bind fun _ => .pure _
    · exact absurd ‹_› hp
    · refine (NeverWants.expect (by decide)).bind (fun _ => ?_) p
      exact hexpr.bind fun e => (NeverWants.expect (by decide)).bind fun _ => .pure _

end

theorem neverWants_unary {k : Kind} {value : Parse Expr} (hvalue : NeverWants k value)
    (bound : Nat) : NeverWants k (unary value bound) := by
  induction bound with
  | zero => exact hvalue
  | succ bound ih =>
      refine (NeverWants.ofOk fun _ => ⟨_, _, rfl⟩).bind fun l => ?_
      exact .accept (ih.bind fun operand => .pure _) hvalue

section
variable {operand : Parse Expr} (hoperand : NeverWants .assign operand)
include hoperand

/-- No operator is an `=`. -/
theorem neverWants_chain (level : BinaryTier) (bound : Nat) : ∀ left : Expr,
    NeverWants .assign (chain level.operator operand bound left) := by
  induction bound with
  | zero => exact fun left => .pure left
  | succ bound ih =>
      intro left
      refine (NeverWants.ofOk fun _ => ⟨_, _, rfl⟩).bind fun token => ?_
      cases hop : level.operator token.kind with
      | none => exact .pure left
      | some op =>
          have hkind : token.kind ≠ .assign := by
            rw [← (BinaryTier.operator_eq_some_iff.mp hop).2]
            cases op <;> decide
          exact (NeverWants.expect hkind).bind fun _ => hoperand.bind fun right => ih _

theorem neverWants_tier (level : BinaryTier) (bound : Nat) :
    NeverWants .assign (tier level.operator bound operand) :=
  hoperand.bind (neverWants_chain hoperand level bound)

end

section
variable {unary : Parse Expr} (hunary : NeverWants .assign unary) (bound : Nat)
include hunary

theorem neverWants_operandReader (level : BinaryTier) :
    NeverWants .assign (operandReader unary bound level) := by
  have hmultiplicative := neverWants_tier hunary .multiplicative bound
  have hadditive := neverWants_tier hmultiplicative .additive bound
  cases level with
  | multiplicative => exact hunary
  | additive => exact hmultiplicative
  | relational => exact hadditive
  | equality => exact neverWants_tier hadditive .relational bound

theorem neverWants_operations (left : Expr) : NeverWants .assign (operations bound unary left) := by
  have hchain := fun level =>
    neverWants_chain (neverWants_operandReader hunary bound level) level bound
  exact (hchain .multiplicative left).bind fun product => (hchain .additive product).bind
    fun sum => (hchain .relational sum).bind (hchain .equality)

end

/-- Behind a name an `=` is taken if it is there. -/
theorem neverWants_expressionAfter {b : Nat} (hexpr : NeverWants .assign (expression b))
    (name : Token) : NeverWants .assign (expressionAfter b name) := by
  have hunary := neverWants_unary (neverWants_value hexpr (b + 1)) (b + 1)
  have hoperations := neverWants_operations hunary (b + 1)
  refine .accept (hexpr.bind fun value => .pure _) (.accept ?_ ?_)
  · refine hexpr.bind fun index => (NeverWants.expect (by decide)).bind fun _ => ?_
    exact .accept (hexpr.bind fun value => .pure _) (hoperations _)
  · exact (neverWants_valueAfter hexpr (b + 1) name).bind hoperations

/-- No expression is refused for want of an `=`. -/
theorem neverWants_expression (bound : Nat) : NeverWants .assign (expression bound) := by
  induction bound with
  | zero =>
      -- what is missed with no tokens left is a value
      intro p e q h
      cases h
      exact fun hwants => nomatch Cursor.wants_mismatch hwants
  | succ b ih =>
      intro p
      by_cases hp : p.next = .identifier
      · -- the reading that looks ahead and then has to find an `=` does what this one does
        rw [expression_name hp]
        exact (NeverWants.expect (by decide)).bind (neverWants_expressionAfter ih) p
      · have hunary := neverWants_unary (neverWants_value ih (b + 1)) (b + 1)
        rw [expression_other hp, equality_eq]
        exact hunary.bind (neverWants_operations hunary (b + 1)) p

/-! ## The search and the reading -/

/-- Behind an index that is read in front of a bracket is the `=` that the search has found. -/
theorem expect_assign_of_search {expr : Parse Expr} (hexpr : Reads expr (.expr .assignment))
    {name opening closing : Token} {p q r : Parser} {index : Expr}
    (hsearch : elementAssignmentNext (p.prepend [name, opening]).cursor = true)
    (hindex : expr p = .ok index q) (hclose : expect .closeBracket q = .ok closing r) :
    ∃ sign s, expect .assign r = .ok sign s := by
  have hnext := hsearch
  rw [elementAssignmentNext_eq] at hnext
  obtain ⟨hname, hopen⟩ := Bool.and_eq_true_iff.mp (Bool.and_eq_true_iff.mp hnext).1
  have hn : name.kind = .identifier := beq_iff_eq.mp hname
  have ho : opening.kind = .openBracket := beq_iff_eq.mp hopen
  obtain ⟨hc, rfl⟩ := expect_eq_ok (by decide) hclose
  -- the search has told what is behind the bracket that was read
  rw [elementAssignmentNext_index hn ho hexpr hindex hc] at hsearch
  have hassign : r.next = .assign := beq_iff_eq.mp hsearch
  obtain ⟨sign, s, hs, rfl⟩ := Parser.exists_prepend_of_next hassign (by decide)
  exact ⟨sign, s.prepend [], expect_prepend [] hs⟩

/-- Looking ahead for an assignment to an element is as good as reading the index first.  In front
    of `name [`, if an index is read up to a `]`, the search finds what is behind that `]`; so
    where it has told that an `=` is there the `=` is read, and no expression is refused for want
    of one.  Reading the index first, and only then looking for the `=`, has the same result or
    error on every row of tokens, and stops at the same token. -/
theorem index_first_reads_the_same :
    (∀ (bound : Nat) (name opening : Token) (p q : Parser) (index : Expr),
      name.kind = .identifier → opening.kind = .openBracket →
      expression bound p = .ok index q → q.next = .closeBracket →
      (elementAssignmentNext (p.prepend [name, opening]).cursor = true ↔
        q.cursor.sees .assign 1 = true)) ∧
    (∀ (bound : Nat) (name opening closing : Token) (p q r : Parser) (index : Expr),
      elementAssignmentNext (p.prepend [name, opening]).cursor = true →
      expression bound p = .ok index q → expect .closeBracket q = .ok closing r →
      ∃ sign s, expect .assign r = .ok sign s) ∧
    (∀ (bound : Nat) (p q : Parser) (e : ParseError), expression bound p = .error e q →
      ¬ e.Wants .assign) ∧
    ∀ (bound : Nat) (p : Parser), indexFirst bound p = expression bound p := by
  refine ⟨?_, ?_, ?_, ?_⟩
  · intro bound name opening p q index hn ho hindex hclose
    rw [elementAssignmentNext_index hn ho (reads_expression bound) hindex hclose]
  · intro bound name opening closing p q r index hsearch hindex hclose
    exact expect_assign_of_search (reads_expression bound) hsearch hindex hclose
  · exact fun bound p q e h => neverWants_expression bound p e q h
  · intro bound p
    rw [indexFirst_eq]

/-- The tokens of `f ( y [ 0 ] ) ] = 4`. -/
def nestedIndex : List Token :=
  let name (text : String) : Token := ⟨.identifier, some text, .start⟩
  let number (text : String) : Token := ⟨.intLiteral, some text, .start⟩
  let mark (kind : Kind) : Token := ⟨kind, none, .start⟩
  [name "f", mark .openParen, name "y", mark .openBracket, number "0", mark .closeBracket,
    mark .closeParen, mark .closeBracket, mark .assign, number "4"]

/-- `x [ f ( y [ 0 ] ) ] = 4`, where the index has brackets and parentheses of its own, and
    `x [ ( ] = 4`, where the search finds an `=` although no index is read. -/
theorem index_first_reads_the_same_nested :
    let name : Token := ⟨.identifier, some "x", .start⟩
    let opening : Token := ⟨.openBracket, none, .start⟩
    let closing : Token := ⟨.closeBracket, none, .start⟩
    let behind (n : Nat) : Parser := .ofCursor ⟨nestedIndex.drop n, .start⟩
    let astray : Parser := (behind 7).prepend [⟨.openParen, none, .start⟩]
    let e : ParseError := (behind 7).cursor.mismatch .openParen
    (name.kind = .identifier ∧ opening.kind = .openBracket ∧
      expression 10 (behind 0) =
        .ok (.call "f" [.element "y" (.int 0 .start) .start] .start) (behind 7) ∧
      (behind 7).next = .closeBracket ∧
      (elementAssignmentNext ((behind 0).prepend [name, opening]).cursor = true ↔
        (behind 7).cursor.sees .assign 1 = true)) ∧
    (elementAssignmentNext ((behind 0).prepend [name, opening]).cursor = true ∧
      expect .closeBracket (behind 7) = .ok closing (behind 8) ∧
      ∃ sign s, expect .assign (behind 8) = .ok sign s) ∧
    (elementAssignmentNext (astray.prepend [name, opening]).cursor = true ∧
      expression 10 (astray.prepend [name, opening]) = .error e (behind 7) ∧
      ¬ e.Wants .assign) := by
  intro name opening closing behind astray e
  have hindex : expression 10 (.ofCursor ⟨nestedIndex.drop 0, .start⟩) =
      .ok (.call "f" [.element "y" (.int 0 .start) .start] .start)
        (.ofCursor ⟨nestedIndex.drop 7, .start⟩) := by rfl
  have hsearch : elementAssignmentNext ((behind 0).prepend [name, opening]).cursor = true := rfl
  have hclose : expect .closeBracket (behind 7) = .ok closing (behind 8) := rfl
  have hastray : expression 10 (astray.prepend [name, opening]) = .error e (behind 7) := rfl
  obtain ⟨hlookahead, hassign, herrors, _⟩ := index_first_reads_the_same
  refine ⟨⟨rfl, rfl, hindex, rfl, ?_⟩, ⟨hsearch, hclose, ?_⟩, rfl, hastray, ?_⟩
  · exact hlookahead 10 name opening _ _ _ rfl rfl hindex rfl
  · exact hassign 10 name opening closing _ _ _ _ hsearch hindex hclose
  · exact herrors 10 _ _ e hastray

end Grammar
end PocketC
