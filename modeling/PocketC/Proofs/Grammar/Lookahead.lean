/-
  PocketC.Proofs.Grammar.Lookahead

  What looking ahead sees in front of a derived row of tokens: the kind of the first
  token, no bracket that is not closed, and no target of an assignment unless the row
  is derived as an assignment.
-/

import PocketC.Proofs.Grammar.Soundness

namespace PocketC

open Grammar

/-! ## First tokens -/

/-- Whether an expression may begin with a token of this kind. -/
def Kind.beginsExpr : Kind → Bool
  | .intLiteral | .stringLiteral | .charLiteral | .identifier | .openBrace | .openParen
  | .minus => true
  | _ => false

/-- What is known of the first token of a row that derives a phrase. -/
def Phrase.Begins : Phrase → List Token → Prop
  | .expr tier _, w =>
    ∃ t ts, w = t :: ts ∧ t.kind.beginsExpr = true ∧ (tier = .value → t.kind ≠ .minus)
  | .list _, w => ∃ t ts, w = t :: ts ∧ t.kind.beginsExpr = true
  | .operands level .., w =>
    ∀ t ts, w = t :: ts → ∃ op : BinaryOp, op.level = level ∧ t.kind = op.kind
  | .args _, _ => True

theorem begins_of_kind {tier : Tier} {e : Expr} {t : Token} {ts : List Token} {k : Kind}
    (ht : t.kind = k) (hk : k.beginsExpr = true) (hm : tier = .value → k ≠ .minus) :
    (Phrase.expr tier e).Begins (t :: ts) := by
  subst ht
  exact ⟨t, ts, rfl, hk, hm⟩

theorem Derives.begins {φ : Phrase} {w : List Token} (h : Derives φ w) : φ.Begins w := by
  -- a phrase begins with a token of its own or as its first part does
  induction h with
  | int ht _ => exact begins_of_kind ht rfl nofun
  | string ht _ => exact begins_of_kind ht rfl nofun
  | char ht _ => exact begins_of_kind ht rfl nofun
  | array ho _ _ _ => exact begins_of_kind ho rfl nofun
  | call hn _ _ _ _ => exact begins_of_kind hn rfl nofun
  | element hn _ _ _ _ => exact begins_of_kind hn rfl nofun
  | var hn => exact begins_of_kind hn rfl nofun
  | paren ho _ _ _ => exact begins_of_kind ho rfl nofun
  | negate hs _ _ => exact begins_of_kind hs rfl nofun
  | unary _ ih =>
      obtain ⟨t, ts, rfl, ht, _⟩ := ih
      exact ⟨t, ts, rfl, ht, nofun⟩
  | binary _ _ ih _ =>
      obtain ⟨t, ts, rfl, ht, _⟩ := ih
      exact ⟨t, _, rfl, ht, nofun⟩
  | noOperand => exact nofun
  | @operand op _ _ _ _ _ _ hs _ _ _ _ =>
      rintro t ts ⟨⟩
      exact ⟨op, rfl, hs⟩
  | assign hn _ _ _ => exact begins_of_kind hn rfl nofun
  | assignElement hn _ _ _ _ _ _ _ => exact begins_of_kind hn rfl nofun
  | equality _ ih =>
      obtain ⟨t, ts, rfl, ht, _⟩ := ih
      exact ⟨t, ts, rfl, ht, nofun⟩
  | one _ ih =>
      obtain ⟨t, ts, rfl, ht, _⟩ := ih
      exact ⟨t, ts, rfl, ht⟩
  | more _ _ _ ih _ =>
      obtain ⟨t, ts, rfl, ht, _⟩ := ih
      exact ⟨t, _, rfl, ht⟩
  | noArgs => trivial
  | args _ _ => trivial

theorem Derives.ne_nil {tier : Tier} {e : Expr} {w : List Token}
    (h : Derives (.expr tier e) w) : w ≠ [] := by
  obtain ⟨t, ts, rfl, _, _⟩ := h.begins
  exact List.cons_ne_nil t ts

/-! ## Brackets -/

/-- Looking for the bracket that closes an open one passes over these tokens. -/
def Passed (w : List Token) : Prop :=
  ∀ depth rest, assignFollows depth (w ++ rest) = assignFollows depth rest

theorem passed_nil : Passed [] := fun _ _ => rfl

theorem Passed.append {v w : List Token} (hv : Passed v) (hw : Passed w) : Passed (v ++ w) := by
  intro depth rest
  rw [List.append_assoc, hv, hw]

theorem passed_token {t : Token} {k : Kind} (ht : t.kind = k)
    (hk : k ≠ .openBracket ∧ k ≠ .closeBracket ∧ k ≠ .endOfInput) : Passed [t] := by
  intro depth rest
  subst ht
  rw [List.cons_append, List.nil_append, assignFollows.eq_def]
  dsimp only
  split
  · exact absurd ‹_› hk.1
  · exact absurd ‹_› hk.2.1
  · exact absurd ‹_› hk.2.1
  · exact absurd ‹_› hk.2.2
  · rfl

theorem Passed.brackets {opening closing : Token} {w : List Token}
    (ho : opening.kind = .openBracket) (hc : closing.kind = .closeBracket) (hw : Passed w) :
    Passed (opening :: w ++ [closing]) := by
  intro depth rest
  have hopen : assignFollows depth (opening :: (w ++ closing :: rest)) =
      assignFollows (depth + 1) (w ++ closing :: rest) := by
    rw [assignFollows.eq_def]
    dsimp only
    rw [ho]
  have hclose : assignFollows (depth + 1) (closing :: rest) = assignFollows depth rest := by
    rw [assignFollows.eq_def]
    dsimp only
    rw [hc]
  rw [List.append_assoc, List.cons_append, List.singleton_append, hopen, hw, hclose]

/-- Every bracket in a derived row is closed in it. -/
theorem Derives.passed {φ : Phrase} {w : List Token} (h : Derives φ w) : Passed w := by
  induction h with
  | int ht _ => exact passed_token ht (by decide)
  | string ht _ => exact passed_token ht (by decide)
  | char ht _ => exact passed_token ht (by decide)
  | array ho hc _ ih =>
      exact ((passed_token ho (by decide)).append ih).append (passed_token hc (by decide))
  | call hn ho hc _ ih =>
      have hname := (passed_token hn (by decide)).append (passed_token ho (by decide))
      exact (hname.append ih).append (passed_token hc (by decide))
  | element hn ho hc _ ih => exact (passed_token hn (by decide)).append (ih.brackets ho hc)
  | var hn => exact passed_token hn (by decide)
  | paren ho hc _ ih =>
      exact ((passed_token ho (by decide)).append ih).append (passed_token hc (by decide))
  | negate hs _ ih => exact (passed_token hs (by decide)).append ih
  | unary _ ih => exact ih
  | binary _ _ ih₁ ih₂ => exact ih₁.append ih₂
  | noOperand => exact passed_nil
  | @operand op _ _ _ _ _ _ hs _ _ ih₁ ih₂ =>
      have hsign := passed_token hs (by cases op <;> decide)
      exact (hsign.append ih₁).append ih₂
  | assign hn hs _ ih =>
      exact (passed_token hn (by decide)).append ((passed_token hs (by decide)).append ih)
  | @assignElement _ _ _ _ _ _ v w hn ho hc hs _ _ ih₁ ih₂ =>
      have htarget := (passed_token hn (by decide)).append (ih₁.brackets ho hc)
      have hall := htarget.append ((passed_token hs (by decide)).append ih₂)
      simpa using hall
  | equality _ ih => exact ih
  | one _ ih => exact ih
  | more hc _ _ ih₁ ih₂ => exact ih₁.append ((passed_token hc (by decide)).append ih₂)
  | noArgs => exact passed_nil
  | args _ ih => exact ih

/-! ## Targets of assignments -/

/-- Neither `name =` nor `name [ ... ] =` is next. -/
def NoTarget (p : Parser) : Prop :=
  assignmentNext p.cursor = false ∧ elementAssignmentNext p.cursor = false

theorem noTarget_of_first {p : Parser} (h : p.next ≠ .identifier) : NoTarget p := by
  have hsees : p.cursor.sees .identifier 0 = false := beq_false_of_ne h
  refine ⟨?_, ?_⟩
  · rw [assignmentNext, hsees, Bool.false_and]
  · rw [elementAssignmentNext, hsees, Bool.false_and, Bool.false_and]

theorem noTarget_of_second {q : Parser} {t : Token} (ha : q.next ≠ .assign)
    (hb : q.next ≠ .openBracket) : NoTarget (q.prepend [t]) := by
  have hassign : (q.prepend [t]).cursor.sees .assign 1 = false := beq_false_of_ne ha
  have hbracket : (q.prepend [t]).cursor.sees .openBracket 1 = false := beq_false_of_ne hb
  refine ⟨?_, ?_⟩
  · rw [assignmentNext, hassign, Bool.and_false]
  · rw [elementAssignmentNext, hbracket, Bool.and_false, Bool.false_and]

/-- With a bracket behind the name there is no `=` right behind it. -/
theorem assignmentNext_bracket {q : Parser} {name opening : Token} {w : List Token}
    (ho : opening.kind = .openBracket) :
    assignmentNext (q.prepend (name :: opening :: w)).cursor = false := by
  have hsecond : (q.prepend (name :: opening :: w)).cursor.sees .assign 1 = false := by
    apply beq_false_of_ne
    show opening.kind ≠ .assign
    rw [ho]
    decide
  rw [assignmentNext, hsecond, Bool.and_false]

/-- Whether an `=` is behind a closing bracket is whether it is the next token there. -/
theorem assignFollows_close {q : Parser} {closing : Token} (hc : closing.kind = .closeBracket) :
    assignFollows 0 (closing :: q.cursor.rest) = (q.next == .assign) := by
  rw [assignFollows.eq_def]
  dsimp only
  rw [hc]
  unfold Parser.next Cursor.peek
  cases q.cursor.rest <;> rfl

/-- What is next in front of `name [ index ]` depends on the token behind it. -/
theorem elementAssignmentNext_element {q : Parser} {name opening closing : Token}
    {w : List Token} (hn : name.kind = .identifier) (ho : opening.kind = .openBracket)
    (hc : closing.kind = .closeBracket) (hw : Passed w) :
    elementAssignmentNext (q.prepend (name :: opening :: w ++ [closing])).cursor =
      (q.next == .assign) := by
  have hname : (q.prepend (name :: opening :: w ++ [closing])).cursor.sees .identifier 0 = true :=
    beq_iff_eq.mpr hn
  have hopen : (q.prepend (name :: opening :: w ++ [closing])).cursor.sees .openBracket 1 = true :=
    beq_iff_eq.mpr ho
  have hrest : (q.prepend (name :: opening :: w ++ [closing])).cursor.rest.drop 2 =
      w ++ closing :: q.cursor.rest := by
    simp [Parser.prepend]
  rw [elementAssignmentNext, hname, hopen, hrest, hw, assignFollows_close hc]
  rfl

/-- A row derived in a tier of its own is not taken for an assignment, unless the token behind
    it makes it one. -/
theorem Derives.noTarget {φ : Phrase} {w : List Token} (h : Derives φ w) :
    ∀ tier e, φ = .expr tier e → tier ≠ .assignment → ∀ q : Parser, q.next ≠ .assign →
      q.next ≠ .openBracket → NoTarget (q.prepend w) := by
  -- all values but a name and an element differ from a target in the first two tokens
  have hfirst : ∀ {q : Parser} {t : Token} {ts : List Token} {k : Kind}, t.kind = k →
      k ≠ .identifier → NoTarget (q.prepend (t :: ts)) := by
    intro q t ts k ht hk
    apply noTarget_of_first
    rw [Parser.next_prepend_cons, ht]
    exact hk
  induction h with
  | int ht _ => exact fun _ _ _ _ q _ _ => hfirst ht (by decide)
  | string ht _ => exact fun _ _ _ _ q _ _ => hfirst ht (by decide)
  | char ht _ => exact fun _ _ _ _ q _ _ => hfirst ht (by decide)
  | array ho _ _ _ => exact fun _ _ _ _ q _ _ => hfirst ho (by decide)
  | @call name opening closing _ w hn ho _ _ _ =>
      intro _ _ _ _ q _ _
      -- behind the name is a parenthesis, neither `=` nor `[`
      have hnext : (q.prepend (opening :: w ++ [closing])).next = .openParen := ho
      have h : NoTarget ((q.prepend (opening :: w ++ [closing])).prepend [name]) := by
        apply noTarget_of_second <;> rw [hnext] <;> decide
      rw [Parser.prepend_prepend] at h
      exact h
  | @element name opening closing _ w hn ho hc index _ =>
      intro _ _ _ _ q ha _
      refine ⟨?_, ?_⟩
      · exact assignmentNext_bracket ho
      · rw [elementAssignmentNext_element hn ho hc index.passed]
        exact beq_false_of_ne ha
  | var _ => exact fun _ _ _ _ q ha hb => noTarget_of_second ha hb
  | paren ho _ _ _ => exact fun _ _ _ _ q _ _ => hfirst ho (by decide)
  | negate hs _ _ => exact fun _ _ _ _ q _ _ => hfirst hs (by decide)
  | unary _ ih => exact fun _ _ _ _ q ha hb => ih _ _ rfl nofun q ha hb
  | @binary level _ _ v w _ others ih _ =>
      intro _ _ _ _ q ha hb
      rw [← Parser.prepend_prepend]
      have hlevel : level.operand ≠ .assignment := by cases level <;> nofun
      -- behind the first operand is an operator, or what is behind all operands
      cases w with
      | nil => exact ih _ _ rfl hlevel q ha hb
      | cons t ts =>
          obtain ⟨op, _, hop⟩ := others.begins t ts rfl
          apply ih _ _ rfl hlevel <;> rw [Parser.next_prepend_cons, hop] <;> cases op <;> decide
  | noOperand => exact nofun
  | operand _ _ _ _ _ => exact nofun
  | assign _ _ _ _ | assignElement _ _ _ _ _ _ _ _ | equality _ _ =>
      rintro _ _ ⟨⟩ hne
      exact absurd rfl hne
  | one _ _ | more _ _ _ _ _ | noArgs | args _ _ => exact nofun

end PocketC
