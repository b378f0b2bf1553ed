/-
  PocketC.Proofs.Grammar.Acceptance

  Every row of tokens that is formed as a program is read as that program.  There is one
  lemma for each way to form a row, about the reading that gives it; for statements the
  whole is one induction on how the row is formed.

  What may be behind a row is little: a `;` or a `,` behind a declarator, a `;` behind a
  simple statement, and no `else` behind a statement that it would be part of.
-/

import PocketC.Proofs.Grammar.Endings
import PocketC.Proofs.Grammar.Factoring

namespace PocketC

/-! ## Front tokens -/

/-- No two names are in front of the row. -/
def Undeclaring : List Token → Prop
  | t :: u :: _ => t.kind = .identifier → u.kind ≠ .identifier
  | _ => True

theorem undeclaring_of_first {t : Token} {ts : List Token} {k : Kind} (ht : t.kind = k)
    (hk : k ≠ .identifier) : Undeclaring (t :: ts) := by
  cases ts with
  | nil => trivial
  | cons u us => exact fun h => absurd (ht.symm.trans h) hk

theorem undeclaring_of_second {t u : Token} {ts : List Token} {k : Kind} (hu : u.kind = k)
    (hk : k ≠ .identifier) : Undeclaring (t :: u :: ts) := by
  intro _
  rw [hu]
  exact hk

/-- The token behind the row is no name either. -/
theorem Undeclaring.append {v w : List Token} (hv : Undeclaring v) (hne : v ≠ [])
    (hw : ∀ t ts, w = t :: ts → t.kind ≠ .identifier) : Undeclaring (v ++ w) := by
  match v, w with
  | [], _ => exact absurd rfl hne
  | [t], [] => trivial
  | [t], u :: us => exact fun _ => hw u us rfl
  | t :: u :: ts, _ => exact hv

/-- A name that begins an expression has no name behind it. -/
theorem Derives.undeclaring {φ : Phrase} {w : List Token} (h : Derives φ w) : Undeclaring w := by
  induction h with
  | int ht _ => exact undeclaring_of_first ht (by decide)
  | string ht _ => exact undeclaring_of_first ht (by decide)
  | char ht _ => exact undeclaring_of_first ht (by decide)
  | array ho _ _ _ => exact undeclaring_of_first ho (by decide)
  | call _ ho _ _ _ => exact undeclaring_of_second ho (by decide)
  | element _ ho _ _ _ => exact undeclaring_of_second ho (by decide)
  | var _ => trivial
  | paren ho _ _ _ => exact undeclaring_of_first ho (by decide)
  | negate hs _ _ => exact undeclaring_of_first hs (by decide)
  | unary _ ih => exact ih
  | binary first others ih _ =>
      refine ih.append first.ne_nil ?_
      intro t ts hw
      obtain ⟨op, _, hop⟩ := others.begins t ts hw
      rw [hop]
      cases op <;> decide
  | noOperand => trivial
  | @operand op _ _ _ _ _ _ hs _ _ _ _ => exact undeclaring_of_first hs (by cases op <;> decide)
  | assign _ hs _ _ => exact undeclaring_of_second hs (by decide)
  | assignElement _ ho _ _ _ _ _ _ => exact undeclaring_of_second ho (by decide)
  | equality _ ih => exact ih
  | one _ ih => exact ih
  | more hc first _ ih _ =>
      refine ih.append first.ne_nil ?_
      rintro _ _ ⟨⟩
      rw [hc]
      decide
  | noArgs => trivial
  | args _ ih => exact ih

theorem Suffix.head_ne {type : String} {r : String × Option Expr} {v : List Token}
    (h : Suffix type r v) : ∀ t ∈ v.head?, t.kind ≠ .openParen := by
  intro t ht
  cases h with
  | none => cases ht
  | unsized ho _ | sized ho _ _ =>
      cases ht
      rw [ho]
      decide

/-- A declarator begins with its name, and no parenthesis is behind it. -/
theorem Declarator.begins {type : String} {ss : List Stmt} {w : List Token}
    (h : Declarator type ss w) :
    ∃ name v, w = name :: v ∧ name.kind = .identifier ∧ ∀ t ∈ v.head?, t.kind ≠ .openParen := by
  cases h with
  | bare hn hv => exact ⟨_, _, rfl, hn, hv.head_ne⟩
  | @initialized _ sign _ _ v w hn hv hs _ =>
      refine ⟨_, v ++ sign :: w, rfl, hn, ?_⟩
      cases v with
      | nil =>
          rintro _ ⟨⟩
          rw [hs]
          decide
      | cons u us => exact fun t ht => hv.head_ne t ht

/-- Declarators begin with their type and the first name, and no parenthesis is behind it. -/
theorem Variables.front {s : Stmt} {w : List Token} (h : Variables s w) :
    ∃ type name v, w = type :: name :: v ∧ type.kind = .identifier ∧ name.kind = .identifier ∧
      ∀ t ∈ v.head?, t.kind ≠ .openParen := by
  cases h with
  | @intro type _ _ ht hds =>
      cases hds with
      | one last =>
          obtain ⟨name, v, rfl, hn, hv⟩ := last.begins
          exact ⟨type, name, v, rfl, ht, hn, hv⟩
      | @more _ _ comma _ w first hc _ =>
          obtain ⟨name, v, rfl, hn, hv⟩ := first.begins
          refine ⟨type, name, v ++ comma :: w, rfl, ht, hn, ?_⟩
          cases v with
          | nil =>
              rintro _ ⟨⟩
              rw [hc]
              decide
          | cons u us => exact hv

theorem VariablesOrExpression.begins {s : Stmt} {w : List Token}
    (h : VariablesOrExpression s w) : ∃ t ts, w = t :: ts ∧ t.kind.beginsExpr = true := by
  cases h with
  | declaration h =>
      obtain ⟨type, name, v, rfl, ht, _, _⟩ := h.front
      exact ⟨type, name :: v, rfl, by rw [ht]; rfl⟩
  | expression h =>
      obtain ⟨t, ts, rfl, ht, _⟩ := h.begins
      exact ⟨t, ts, rfl, ht⟩

theorem Simple.first_ne {loops : Nat} {s : Stmt} {t : Token} {w : List Token}
    (h : Simple loops s (t :: w)) :
    t.kind ≠ .kwIf ∧ t.kind ≠ .kwWhile ∧ t.kind ≠ .kwFor ∧ t.kind ≠ .closeBrace ∧
      t.kind ≠ .kwElse := by
  generalize hrow : t :: w = row at h
  cases h with
  | leave ht _ | next ht _ | done ht | value ht _ | intrinsic ht _ _ _ =>
      cases hrow
      rw [ht]
      decide
  | other h =>
      obtain ⟨u, us, rfl, hu⟩ := h.begins
      cases hrow
      cases hkind : t.kind <;> rw [hkind] at hu <;> first | decide | cases hu

/-- Parameters begin with a type and a name. -/
theorem Parameter.front {a : Param} {w : List Token} (h : Parameter a w) :
    ∃ type name v, w = type :: name :: v ∧ type.kind = .identifier ∧ name.kind = .identifier := by
  cases h with
  | plain ht hn => exact ⟨_, _, _, rfl, ht, hn⟩
  | array ht hn _ _ => exact ⟨_, _, _, rfl, ht, hn⟩

/-- Every node begins with the name of a type. -/
theorem TopLevel.front {s : Stmt} {w : List Token} (h : TopLevel s w) :
    ∃ t ts, w = t :: ts ∧ t.kind = .identifier := by
  cases h with
  | declaration h _ =>
      obtain ⟨type, name, v, rfl, ht, _, _⟩ := h.front
      exact ⟨_, _, rfl, ht⟩
  | signature ht _ _ _ _ _ => exact ⟨_, _, rfl, ht⟩
  | function ht _ _ _ _ _ _ _ => exact ⟨_, _, rfl, ht⟩

/-- A statement begins with no closing brace and with no `else`. -/
theorem Forms.front {loops : Nat} {s : Stmt} {w : List Token}
    (h : Forms loops (.statement s) w) :
    ∃ t ts, w = t :: ts ∧ t.kind ≠ .closeBrace ∧ t.kind ≠ .kwElse := by
  cases h with
  | block ho _ _ => exact ⟨_, _, rfl, by rw [ho]; decide⟩
  | ifThen hk _ _ _ _ => exact ⟨_, _, rfl, by rw [hk]; decide⟩
  | ifElse hk _ _ _ _ _ _ _ => exact ⟨_, _, rfl, by rw [hk]; decide⟩
  | whileLoop hk _ _ _ _ => exact ⟨_, _, rfl, by rw [hk]; decide⟩
  | forLoop hk _ _ _ _ _ _ _ _ => exact ⟨_, _, rfl, by rw [hk]; decide⟩
  | simple h _ _ => exact ⟨_, _, rfl, h.first_ne.2.2.2⟩

theorem Forms.isGroup_branch {loops : Nat} {s : Stmt} {w : List Token}
    (h : Forms loops (.branch s) w) : s.isGroup = false := by
  cases h with
  | @branch _ first s' _ _ => exact s'.isGroup_enclosed first.location

namespace Grammar

open Parse

variable {q : Parser} {w : List Token} {b : Nat}

/-- An expression is not taken for a declaration. -/
theorem declarationNext_expression {e : Expr} (h : Expression e w) (hq : q.next ≠ .identifier) :
    declarationNext (q.prepend w) = false := by
  have hfront := h.undeclaring
  match w with
  | [] => exact absurd rfl h.ne_nil
  -- the second token is the one behind the row
  | [t] =>
      have hsecond : (q.prepend [t]).cursor.sees .identifier 1 = false := beq_false_of_ne hq
      rw [declarationNext, hsecond, Bool.and_false]
  | t :: u :: ts =>
      rw [declarationNext, Bool.and_eq_false_iff]
      by_cases ht : t.kind = .identifier
      · exact .inr (beq_false_of_ne (hfront ht))
      · exact .inl (beq_false_of_ne ht)

/-! ## Variables -/

theorem arraySuffix_complete {type : String} {r : String × Option Expr} (h : Suffix type r w)
    (hq : q.next ≠ .openBracket) (hb : w.length + q.cursor.length ≤ b) :
    arraySuffix type b (q.prepend w) = .ok r q := by
  cases h with
  | none =>
      rw [Parser.prepend_nil, arraySuffix, bind_ok (accept_of_ne hq), if_neg Bool.false_ne_true]
      rfl
  | @unsized opening closing ho hc =>
      rw [arraySuffix, bind_ok (accept_prepend [closing] ho), if_pos rfl,
        bind_ok (accept_prepend [] hc), if_pos rfl]
      rfl
  | @sized opening closing e w ho hc size =>
      simp only [List.length_append, List.length_cons] at hb
      have hsize := expression_complete (q := q.prepend [closing]) (b := b) size (by
        rw [Parser.next_prepend_cons, hc]; rfl) (by simp; omega)
      have hne : ((q.prepend [closing]).prepend w).next ≠ .closeBracket := by
        obtain ⟨t, ts, rfl, ht, _⟩ := size.begins
        rw [Parser.next_prepend_cons]
        rintro htk
        rw [htk] at ht
        cases ht
      rw [Parser.prepend_prepend] at hsize hne
      rw [List.cons_append, arraySuffix, bind_ok (accept_prepend _ ho), if_pos rfl,
        bind_ok (accept_of_ne hne), if_neg Bool.false_ne_true, bind_ok hsize,
        bind_ok (expect_prepend [] hc)]
      rfl

theorem declarator_complete {type : String} {ss : List Stmt} (h : Declarator type ss w)
    (hq : q.next = .comma ∨ q.next = .semicolon) (hb : w.length + q.cursor.length ≤ b) :
    declarator type b (q.prepend w) = .ok ss q := by
  rw [declarator_eq]
  cases h with
  | @bare name suffix w hn hsuffix =>
      have hbracket : q.next ≠ .openBracket := by rcases hq with h | h <;> rw [h] <;> decide
      have hassign : q.next ≠ .assign := by rcases hq with h | h <;> rw [h] <;> decide
      rw [List.length_cons] at hb
      rw [bind_ok (expect_prepend w hn), declaratorAfter,
        bind_ok (arraySuffix_complete hsuffix hbracket (by omega)), bind_ok (accept_of_ne hassign),
        if_neg Bool.false_ne_true]
      rfl
  | @initialized name sign suffix e v w hn hsuffix hs value =>
      simp only [List.length_append, List.length_cons] at hb
      have hbracket : (q.prepend (sign :: w)).next ≠ .openBracket := by
        rw [Parser.next_prepend_cons, hs]
        decide
      have hread := arraySuffix_complete (b := b) hsuffix hbracket (by simp; omega)
      have hvalue := expression_complete (q := q) (b := b) value
        (by rcases hq with h | h <;> rw [h] <;> rfl) (by simp; omega)
      rw [Parser.prepend_prepend] at hread
      rw [List.cons_append, bind_ok (expect_prepend _ hn), declaratorAfter, bind_ok hread,
        bind_ok (accept_prepend w hs), if_pos rfl, bind_ok hvalue]
      rfl

/-- Items with commas between them are read as a list up to a token that is no comma. -/
theorem sequence_complete {α : Type} {L : Rows α} {item : Parse α} {as : List α} {stop : Kind}
    (hstop : stop ≠ .comma)
    (hitem : ∀ (a : α) (v : List Token) (r : Parser), L a v → r.next = .comma ∨ r.next = stop →
      v.length + r.cursor.length ≤ b → item (r.prepend v) = .ok a r)
    (h : L.Separated as w) (hq : q.next = stop) (hb : w.length + q.cursor.length ≤ b) {n : Nat}
    (hn : w.length + q.cursor.length ≤ n) : Parse.sequence item n (q.prepend w) = .ok as q := by
  induction h generalizing n with
  | one last => exact sequence_one (hitem _ _ q last (.inr hq) hb) (by rw [hq]; exact hstop)
  | @more a as comma v w first hc _ ih =>
      simp only [List.length_append, List.length_cons] at hb hn
      obtain ⟨n, rfl⟩ : ∃ k, n = k + 1 := ⟨n - 1, by omega⟩
      have hfirst := hitem a v (q.prepend (comma :: w)) first (.inl hc) (by simp; omega)
      exact sequence_more hc hfirst (ih (by omega) (by omega))

theorem declarators_complete {s : Stmt} (h : Variables s w) (hq : q.next = .semicolon)
    (hb : w.length + q.cursor.length ≤ b) : declarators b (q.prepend w) = .ok s q := by
  cases h with
  | @intro type groups w ht hds =>
      rw [List.length_cons] at hb
      have hlist : Parse.sequence (declarator type.text b) b (q.prepend w) = .ok groups q :=
        sequence_complete (by decide) (fun _ _ _ hd hr hlen => declarator_complete hd hr hlen) hds
          hq (by omega) (by omega)
      rw [declarators_eq, bind_ok (expect_prepend w ht), declaratorsAfter, bind_ok hlist]
      rfl

theorem variablesOrExpression_complete {s : Stmt} (h : VariablesOrExpression s w)
    (hq : q.next = .semicolon) (hb : w.length + q.cursor.length ≤ b) :
    variablesOrExpression b (q.prepend w) = .ok s q := by
  rw [variablesOrExpression, bind_ok (atDeclaration_eq _)]
  cases h with
  | declaration h =>
      have hat : declarationNext (q.prepend w) = true := by
        obtain ⟨type, name, v, rfl, ht, hn, _⟩ := h.front
        exact Bool.and_eq_true_iff.mpr ⟨beq_iff_eq.mpr ht, beq_iff_eq.mpr hn⟩
      rw [hat, if_pos rfl]
      exact declarators_complete h hq hb
  | expression h =>
      rw [declarationNext_expression h (by rw [hq]; decide), if_neg Bool.false_ne_true,
        bind_ok (expression_complete h (by rw [hq]; rfl) (by rwa [Parser.length_prepend]))]
      rfl

/-! ## Statements -/

theorem returning_bare {t : Token} (ht : t.kind = .kwReturn) (hq : q.next = .semicolon) :
    returning b (q.prepend [t]) = .ok (.returnValue none t.location) q := by
  have hsees : q.cursor.sees .semicolon 0 = true := beq_iff_eq.mpr hq
  rw [returning, bind_ok (expect_prepend [] ht), Parser.prepend_nil,
    bind_ok (sees_eq .semicolon 0 q), if_pos hsees]
  rfl

theorem returning_value {t : Token} {e : Expr} (ht : t.kind = .kwReturn) (h : Expression e w)
    (hq : q.next = .semicolon) (hb : w.length + q.cursor.length ≤ b) :
    returning b (q.prepend (t :: w)) = .ok (.returnValue (some e) t.location) q := by
  have hsees : (q.prepend w).cursor.sees .semicolon 0 = false := by
    obtain ⟨u, us, rfl, hu, _⟩ := h.begins
    apply beq_false_of_ne
    show u.kind ≠ .semicolon
    rintro hkind
    rw [hkind] at hu
    cases hu
  have hvalue := expression_complete (q := q) (b := b) h (by rw [hq]; rfl)
    (by rwa [Parser.length_prepend])
  rw [returning, bind_ok (expect_prepend w ht), bind_ok (sees_eq .semicolon 0 _), hsees,
    if_neg Bool.false_ne_true, bind_ok hvalue]
  rfl

theorem intrinsicCall_complete {name opening closing : Token} {es : List Expr}
    (hn : name.kind = .intrinsic) (ho : opening.kind = .openParen)
    (hc : closing.kind = .closeParen) (args : Derives (.args es) w)
    (hb : w.length + q.cursor.length < b) :
    intrinsicCall b (q.prepend (name :: opening :: w ++ [closing])) =
      .ok (.intrinsic name.text es name.location) q := by
  have hargs := completes args b b .closeParen (q.prepend [closing]) (.inl rfl) hc
    (by simp; omega) (by simp; omega)
  rw [Parser.prepend_prepend] at hargs
  rw [List.cons_append, List.cons_append, intrinsicCall, bind_ok (expect_prepend _ hn),
    bind_ok (expect_prepend _ ho), bind_ok hargs, bind_ok (expect_prepend [] hc)]
  rfl

theorem simple_complete {loops : Nat} {s : Stmt} (h : Simple loops s w)
    (hloops : q.openLoops = loops) (hq : q.next = .semicolon)
    (hb : w.length + q.cursor.length ≤ b) : simple b (q.prepend w) = .ok s q := by
  rw [simple_eq]
  cases h with
  | leave ht h =>
      rw [Parser.next_prepend_cons, ht]
      dsimp only
      rw [jump_prepend q ht, if_neg (by rw [hloops]; exact h)]
  | next ht h =>
      rw [Parser.next_prepend_cons, ht]
      dsimp only
      rw [jump_prepend q ht, if_neg (by rw [hloops]; exact h)]
  | done ht =>
      rw [Parser.next_prepend_cons, ht]
      exact returning_bare ht hq
  | value ht h =>
      rw [List.length_cons] at hb
      rw [Parser.next_prepend_cons, ht]
      exact returning_value ht h hq (by omega)
  | intrinsic hn ho hc args =>
      simp only [List.length_append, List.length_cons] at hb
      rw [List.cons_append, Parser.next_prepend_cons, hn]
      exact intrinsicCall_complete hn ho hc args (by omega)
  | other h =>
      have hread := variablesOrExpression_complete h hq hb
      obtain ⟨t, ts, rfl, ht⟩ := h.begins
      rw [Parser.next_prepend_cons]
      -- no keyword begins an expression
      split <;> first | exact hread | (rename_i hkind; rw [hkind] at ht; cases ht)

theorem manyUntil_nil {α : Type} {stop : Kind} {item : Parse α} {n : Nat} (hq : q.next = stop) :
    manyUntil stop item n q = .ok [] q := by
  have hsees : q.cursor.sees stop 0 = true := beq_iff_eq.mpr hq
  cases n <;> rw [manyUntil, bind_ok (sees_eq stop 0 q), if_pos hsees] <;> rfl

theorem manyUntil_cons {α : Type} {stop : Kind} {item : Parse α} {n : Nat} {a : α} {as : List α}
    {r : Parser} {t : Token} {v : List Token} (ht : t.kind ≠ stop)
    (hfirst : item (q.prepend (t :: v)) = .ok a r)
    (hothers : manyUntil stop item n r = .ok as q) :
    manyUntil stop item (n + 1) (q.prepend (t :: v)) = .ok (a :: as) q := by
  have hsees : (q.prepend (t :: v)).cursor.sees stop 0 = false := beq_false_of_ne ht
  rw [manyUntil, bind_ok (sees_eq stop 0 _), hsees, if_neg Bool.false_ne_true, bind_ok hfirst,
    bind_ok hothers]
  rfl

theorem condition_complete {opening closing : Token} {c : Expr} (ho : opening.kind = .openParen)
    (hc : closing.kind = .closeParen) (h : Expression c w) (hb : w.length + q.cursor.length < b) :
    condition b (q.prepend (opening :: w ++ [closing])) = .ok c q := by
  have hexpr := expression_complete (q := q.prepend [closing]) (b := b) h (by
    rw [Parser.next_prepend_cons, hc]; rfl) (by simp; omega)
  rw [Parser.prepend_prepend] at hexpr
  rw [List.cons_append, condition, bind_ok (expect_prepend _ ho), bind_ok hexpr,
    bind_ok (expect_prepend [] hc)]
  rfl

theorem insideLoop_ok {α : Type} {x : Parse α} {a : α}
    (h : x (Parser.prepend { q with openLoops := q.openLoops + 1 } w) =
      .ok a { q with openLoops := q.openLoops + 1 }) : insideLoop x (q.prepend w) = .ok a q :=
  insideLoop_prepend h

/-! ### Forms of statements

Each of the following says how a form is read behind what is read for its parts. -/

theorem block_complete {opening closing : Token} {ss : List Stmt} (ho : opening.kind = .openBrace)
    (hc : closing.kind = .closeBrace)
    (hbody : manyUntil .closeBrace (statement b) (b + 1) (q.prepend (w ++ [closing])) =
      .ok ss (q.prepend [closing])) :
    statement (b + 1) (q.prepend (opening :: w ++ [closing])) =
      .ok (.block ss opening.location) q := by
  rw [statement, statementWith_eq, List.cons_append, Parser.next_prepend_cons, ho]
  dsimp only
  rw [block_eq, bind_ok (expect_prepend _ ho), bracesAfter, bind_assoc, bind_ok hbody,
    bind_assoc, bind_ok (expect_prepend [] hc)]
  rfl

theorem elseBranch_some {x : Parse Stmt} {other : Token} {no : Stmt} (ho : other.kind = .kwElse)
    (hno : branch x (q.prepend w) = .ok no q) :
    elseBranch x (q.prepend (other :: w)) = .ok no q := by
  rw [elseBranch, bind_ok (accept_prepend w ho), if_pos rfl, hno]

section
variable {keyword opening closing : Token} {c : Expr} {body : Stmt} {u v : List Token} {r : Parser}

theorem conditional_complete {yes no : Stmt} {r' : Parser} (hk : keyword.kind = .kwIf)
    (ho : opening.kind = .openParen) (hc : closing.kind = .closeParen) (test : Expression c u)
    (hb : u.length + r.cursor.length ≤ b) (hyes : branch (statement b) r = .ok yes r')
    (hno : elseBranch (statement b) r' = .ok no q) :
    statement (b + 1) (r.prepend (keyword :: opening :: u ++ [closing])) =
      .ok (.ifElse c yes no keyword.location) q := by
  have htest := condition_complete (b := b + 1) ho hc test (Nat.lt_succ_of_le hb)
  rw [statement, statementWith_eq, List.cons_append, Parser.next_prepend_cons, hk]
  dsimp only
  rw [conditional, bind_ok (expect_prepend _ hk), bind_ok htest, bind_ok hyes, bind_ok hno]
  rfl

theorem whileStatement_complete (hk : keyword.kind = .kwWhile) (ho : opening.kind = .openParen)
    (hc : closing.kind = .closeParen) (test : Expression c u)
    (hb : u.length + r.cursor.length ≤ b) (hbody : insideLoop (statement b) r = .ok body q) :
    statement (b + 1) (r.prepend (keyword :: opening :: u ++ [closing])) =
      .ok (.whileLoop c body keyword.location) q := by
  have htest := condition_complete (b := b + 1) ho hc test (Nat.lt_succ_of_le hb)
  rw [statement, statementWith_eq, List.cons_append, Parser.next_prepend_cons, hk]
  dsimp only
  rw [whileStatement, bind_ok (expect_prepend _ hk), bind_ok htest, bind_ok hbody]
  rfl

theorem forStatement_complete {semi semi' : Token} {init : Stmt} {step : Expr} {t : List Token}
    (hk : keyword.kind = .kwFor) (ho : opening.kind = .openParen)
    (first : VariablesOrExpression init t) (hs : semi.kind = .semicolon) (test : Expression c u)
    (hs' : semi'.kind = .semicolon) (next : Expression step v) (hc : closing.kind = .closeParen)
    (hb : t.length + u.length + v.length + r.cursor.length + 2 ≤ b)
    (hbody : insideLoop (statement b) r = .ok body q) :
    statement (b + 1)
        (r.prepend (keyword :: opening :: (t ++ semi :: (u ++ semi' :: (v ++ [closing]))))) =
      .ok (.forLoop init c step body keyword.location) q := by
  have hinit := variablesOrExpression_complete (b := b + 1)
    (q := r.prepend (semi :: (u ++ semi' :: (v ++ [closing])))) first hs (by simp; omega)
  have htest := expression_complete (b := b + 1) (q := r.prepend (semi' :: (v ++ [closing]))) test
    (by rw [Parser.next_prepend_cons, hs']; rfl) (by simp; omega)
  have hstep := expression_complete (b := b + 1) (q := r.prepend [closing]) next
    (by rw [Parser.next_prepend_cons, hc]; rfl) (by simp; omega)
  rw [Parser.prepend_prepend] at hinit htest hstep
  rw [statement, statementWith_eq, Parser.next_prepend_cons, hk]
  dsimp only
  rw [forStatement, bind_ok (expect_prepend _ hk), bind_ok (expect_prepend _ ho), bind_ok hinit,
    bind_ok (expect_prepend _ hs), bind_ok htest, bind_ok (expect_prepend _ hs'), bind_ok hstep,
    bind_ok (expect_prepend [] hc), Parser.prepend_nil, bind_ok hbody]
  rfl

end

theorem simpleStatement_complete {loops : Nat} {first semi : Token} {s : Stmt}
    (h : Simple loops s (first :: w)) (hfirst : first.kind ≠ .openBrace)
    (hs : semi.kind = .semicolon) (hq : q.openLoops = loops)
    (hb : w.length + q.cursor.length + 1 ≤ b) :
    statement (b + 1) (q.prepend (first :: w ++ [semi])) = .ok s q := by
  have hsimple := simple_complete (b := b + 1) (q := q.prepend [semi]) h hq hs (by simp; omega)
  rw [Parser.prepend_prepend] at hsimple
  have hkeyword := h.first_ne
  have hwith : statementWith (statement b) (b + 1) (q.prepend (first :: w ++ [semi])) =
      (do let s ← simple (b + 1); let _ ← expect .semicolon; return s)
        (q.prepend (first :: w ++ [semi])) := by
    rw [statementWith_eq, List.cons_append, Parser.next_prepend_cons]
    split <;> first | rfl | simp_all
  rw [statement, hwith, bind_ok hsimple, bind_ok (expect_prepend [] hs)]
  rfl

/-! ### All forms -/

/-- How a row with so many loops around it is read as the form, if the bound is at least the
    number of tokens left. -/
def CompletesForm (loops : Nat) : Form → List Token → Prop
  | .statement s, w => ∀ b (q : Parser), q.openLoops = loops →
    (s.openEnded = true → q.next ≠ .kwElse) → w.length + q.cursor.length ≤ b →
    statement b (q.prepend w) = .ok s q
  | .statements ss, w => ∀ b n (q : Parser), q.openLoops = loops → q.next = .closeBrace →
    w.length + q.cursor.length ≤ b → w.length + q.cursor.length ≤ n →
    manyUntil .closeBrace (statement b) n (q.prepend w) = .ok ss q
  | .branch s, w => ∀ b (q : Parser), q.openLoops = loops →
    (s.openEnded = true → q.next ≠ .kwElse) → w.length + q.cursor.length ≤ b →
    branch (statement b) (q.prepend w) = .ok s q

/-- Every formed row is read as its form. -/
theorem completesForm {loops : Nat} {φ : Form} (h : Forms loops φ w) : CompletesForm loops φ w := by
  induction h with
  | block ho hc _ ih =>
      intro b q hq _ hb
      simp only [List.length_append, List.length_cons] at hb
      obtain ⟨b, rfl⟩ : ∃ k, b = k + 1 := ⟨b - 1, by omega⟩
      have hbody := ih b (b + 1) (q.prepend [_]) hq hc (by simp; omega) (by simp; omega)
      rw [Parser.prepend_prepend] at hbody
      exact block_complete ho hc hbody
  | ifThen hk ho hc test _ ih =>
      intro b q hq hopen hb
      simp only [List.length_append, List.length_cons] at hb
      obtain ⟨b, rfl⟩ : ∃ k, b = k + 1 := ⟨b - 1, by omega⟩
      have hnext : q.next ≠ .kwElse := hopen rfl
      have hyes := ih b q hq (fun _ => hnext) (by omega)
      simpa using conditional_complete hk ho hc test (by simp; omega) hyes (elseBranch_none hnext)
  | @ifElse _ keyword _ _ other c yes no _ _ w hk ho hc test _ hclosed hother second ih₁ ih₂ =>
      intro b q hq hopen hb
      simp only [List.length_append, List.length_cons] at hb
      obtain ⟨b, rfl⟩ : ∃ k, b = k + 1 := ⟨b - 1, by omega⟩
      -- the `else` behind the first branch is no part of it
      have hyes := ih₁ b (q.prepend (other :: w)) hq (fun h => absurd h (by rw [hclosed]; decide))
        (by simp; omega)
      rw [Stmt.openEnded_ifElse c yes keyword.location second.isGroup_branch] at hopen
      have hno := elseBranch_some hother (ih₂ b q hq hopen (by omega))
      simpa using conditional_complete hk ho hc test (by simp; omega) hyes hno
  | whileLoop hk ho hc test _ ih =>
      intro b q hq hopen hb
      simp only [List.length_append, List.length_cons] at hb
      obtain ⟨b, rfl⟩ : ∃ k, b = k + 1 := ⟨b - 1, by omega⟩
      have hbody := insideLoop_ok (ih b { q with openLoops := q.openLoops + 1 }
        (congrArg (· + 1) hq) hopen (show _ + q.cursor.length ≤ b by omega))
      simpa using whileStatement_complete hk ho hc test (by simp; omega) hbody
  | forLoop hk ho first hs test hs' next hc _ ih =>
      intro b q hq hopen hb
      simp only [List.length_append, List.length_cons] at hb
      obtain ⟨b, rfl⟩ : ∃ k, b = k + 1 := ⟨b - 1, by omega⟩
      have hbody := insideLoop_ok (ih b { q with openLoops := q.openLoops + 1 }
        (congrArg (· + 1) hq) hopen (show _ + q.cursor.length ≤ b by omega))
      simpa using forStatement_complete hk ho first hs test hs' next hc (by simp; omega) hbody
  | simple h hfirst hs =>
      intro b q hq _ hb
      simp only [List.length_append, List.length_cons, List.length_nil] at hb
      obtain ⟨b, rfl⟩ : ∃ k, b = k + 1 := ⟨b - 1, by omega⟩
      exact simpleStatement_complete h hfirst hs hq (by omega)
  | nil =>
      intro b n q _ hq _ _
      exact manyUntil_nil hq
  | @cons loops s ss v w first others ih₁ ih₂ =>
      intro b n q hq hnext hb hn
      obtain ⟨t, ts, rfl, hclose, _⟩ := first.front
      simp only [List.length_append, List.length_cons] at hb hn
      obtain ⟨n, rfl⟩ : ∃ k, n = k + 1 := ⟨n - 1, by omega⟩
      -- what is behind a statement begins another one or ends the row
      have helse : (q.prepend w).next ≠ .kwElse := by
        cases others with
        | nil =>
            rw [Parser.prepend_nil, hnext]
            decide
        | cons second _ =>
            obtain ⟨u, us, rfl, _, hu⟩ := second.front
            exact hu
      have hfirst := ih₁ b (q.prepend w) hq (fun _ => helse) (by simp; omega)
      have hothers := ih₂ b n q hq hnext (by omega) (by omega)
      rw [Parser.prepend_prepend] at hfirst
      exact manyUntil_cons hclose hfirst hothers
  | @branch loops first s w h ih =>
      intro b q hq hopen hb
      have hread := ih b q hq (by rwa [Stmt.openEnded_enclosed] at hopen) hb
      rw [branch_eq, bind_ok (here_eq _), bind_ok hread]
      rfl

/-! ## Programs -/

theorem param_complete {a : Param} (h : Parameter a w) (hq : q.next ≠ .openBracket) :
    param (q.prepend w) = .ok a q := by
  rw [param_eq]
  cases h with
  | @plain type name ht hn =>
      rw [bind_ok (expect_prepend [name] ht), paramAfter, bind_ok (expect_prepend [] hn),
        Parser.prepend_nil, bind_ok (accept_of_ne hq), if_neg Bool.false_ne_true]
      rfl
  | @array type name opening closing ht hn ho hc =>
      rw [bind_ok (expect_prepend _ ht), paramAfter, bind_ok (expect_prepend _ hn),
        bind_ok (accept_prepend _ ho), if_pos rfl, bind_ok (expect_prepend [] hc)]
      rfl

theorem params_complete {ps : List Param} (h : Parameters ps w) (hq : q.next = .closeParen)
    (hb : w.length + q.cursor.length ≤ b) : params b (q.prepend w) = .ok ps q := by
  cases h with
  | none =>
      have hsees : q.cursor.sees .closeParen 0 = true := beq_iff_eq.mpr hq
      rw [params_eq, Parser.prepend_nil, bind_ok (sees_eq .closeParen 0 q), if_pos hsees]
      rfl
  | @void t ht htext =>
      have hsees : q.cursor.sees .closeParen 0 = true := beq_iff_eq.mpr hq
      have hfirst : (q.prepend [t]).cursor.sees .closeParen 0 = false := by
        apply beq_false_of_ne
        show t.kind ≠ .closeParen
        rw [ht]
        decide
      rw [params_eq, bind_ok (sees_eq .closeParen 0 _), hfirst, if_neg Bool.false_ne_true,
        bind_ok (expect_prepend [] ht), Parser.prepend_nil, paramsAfter, if_pos htext,
        bind_ok (sees_eq .closeParen 0 q), if_pos hsees]
      rfl
  | some h =>
      have hlist : Parse.sequence param b (q.prepend w) = .ok ps q := by
        have hstop : Kind.closeParen ≠ .comma := by decide
        refine sequence_complete hstop (fun a v r ha hr _ => ?_) h hq hb hb
        exact param_complete ha (by rcases hr with h | h <;> rw [h] <;> decide)
      -- the row begins with a type and a name, so that neither `)` nor `void )` is next
      obtain ⟨type, name, v, rfl, ht, hn⟩ : ∃ type name v, w = type :: name :: v ∧
          type.kind = .identifier ∧ name.kind = .identifier := by
        cases h with
        | one last => exact last.front
        | more first _ _ =>
            obtain ⟨type, name, v, rfl, ht, hn⟩ := first.front
            exact ⟨type, name, _, rfl, ht, hn⟩
      have hclose : (q.prepend (type :: name :: v)).cursor.sees .closeParen 0 = false := by
        apply beq_false_of_ne
        show type.kind ≠ .closeParen
        rw [ht]
        decide
      have hvoid : atVoid (q.prepend (type :: name :: v)) =
          .ok false (q.prepend (type :: name :: v)) := by
        have hsecond : (q.prepend (type :: name :: v)).cursor.sees .closeParen 1 = false := by
          apply beq_false_of_ne
          show name.kind ≠ .closeParen
          rw [hn]
          decide
        rw [atVoid, hsecond, Bool.and_false]
      rw [params, bind_ok (sees_eq .closeParen 0 _), hclose, if_neg Bool.false_ne_true,
        bind_ok hvoid, if_neg Bool.false_ne_true]
      exact hlist

theorem topLevel_declaration {semi : Token} {s : Stmt} (h : Variables s w)
    (hs : semi.kind = .semicolon) (hb : w.length + q.cursor.length + 1 ≤ b) :
    topLevel b (q.prepend (w ++ [semi])) = .ok s q := by
  have hread := declarators_complete (b := b) (q := q.prepend [semi]) h hs (by simp; omega)
  have hparen : (q.prepend (w ++ [semi])).cursor.sees .openParen 2 = false := by
    obtain ⟨type, name, v, rfl, _, _, hv⟩ := h.front
    apply beq_false_of_ne
    cases v with
    | nil =>
        show semi.kind ≠ .openParen
        rw [hs]
        decide
    | cons t ts => exact hv t rfl
  rw [Parser.prepend_prepend] at hread
  rw [topLevel, bind_ok (sees_eq .openParen 2 _), hparen, if_neg Bool.false_ne_true,
    bind_ok hread, bind_ok (expect_prepend [] hs)]
  rfl

section
variable {type name opening closing : Token} {ps : List Param} (ht : type.kind = .identifier)
  (hn : name.kind = .identifier) (ho : opening.kind = .openParen) (hps : Parameters ps w)
  (hc : closing.kind = .closeParen)
include ht hn ho hps hc

theorem topLevel_signature {semi : Token} (hs : semi.kind = .semicolon)
    (hb : w.length + q.cursor.length + 2 ≤ b) :
    topLevel b (q.prepend (type :: name :: opening :: w ++ [closing, semi])) =
      .ok (.declareFun name.text type.text ps type.location) q := by
  have hread := params_complete (b := b) (q := q.prepend [closing, semi]) hps hc
    (by simp; omega)
  have hbrace : (q.prepend [semi]).cursor.sees .openBrace 0 = false := by
    apply beq_false_of_ne
    show semi.kind ≠ .openBrace
    rw [hs]
    decide
  rw [Parser.prepend_prepend] at hread
  rw [topLevel_eq]
  simp only [List.cons_append]
  rw [bind_ok (expect_prepend _ ht), bind_ok (expect_prepend _ hn), topLevelAfter,
    bind_ok (accept_prepend _ ho), if_pos rfl, functionAfter, bind_ok hread,
    bind_ok (expect_prepend _ hc), bind_ok (sees_eq .openBrace 0 _), hbrace,
    if_neg Bool.false_ne_true, bind_ok (expect_prepend [] hs)]
  rfl

theorem topLevel_function {start stop : Token} {ss : List Stmt} {v : List Token}
    (hstart : start.kind = .openBrace) (body : Forms 0 (.statements ss) v)
    (hstop : stop.kind = .closeBrace) (hq : q.openLoops = 0)
    (hb : w.length + v.length + q.cursor.length + 3 ≤ b) :
    topLevel b
        (q.prepend (type :: name :: opening :: (w ++ closing :: start :: (v ++ [stop])))) =
      .ok (.group [.declareFun name.text type.text ps type.location,
        .defineFun name.text type.text ps ss type.location]) q := by
  have hread := params_complete (b := b) (q := q.prepend (closing :: start :: (v ++ [stop])))
    hps hc (by simp; omega)
  have hbody := completesForm body b b (q.prepend [stop]) hq hstop (by simp; omega)
    (by simp; omega)
  have hbrace : (q.prepend (start :: (v ++ [stop]))).cursor.sees .openBrace 0 = true :=
    beq_iff_eq.mpr hstart
  rw [Parser.prepend_prepend] at hread hbody
  rw [topLevel_eq, bind_ok (expect_prepend _ ht), bind_ok (expect_prepend _ hn),
    topLevelAfter, bind_ok (accept_prepend _ ho), if_pos rfl, functionAfter, bind_ok hread,
    bind_ok (expect_prepend _ hc), bind_ok (sees_eq .openBrace 0 _), hbrace, if_pos rfl, braces,
    bind_assoc, bind_ok (expect_prepend _ hstart), bind_assoc, bind_ok hbody, bind_assoc,
    bind_ok (expect_prepend [] hstop)]
  rfl

end

theorem topLevel_complete {s : Stmt} (h : TopLevel s w) (hq : q.openLoops = 0)
    (hb : w.length + q.cursor.length ≤ b) : topLevel b (q.prepend w) = .ok s q := by
  cases h with
  | declaration h hs =>
      simp only [List.length_append, List.length_cons, List.length_nil] at hb
      exact topLevel_declaration h hs (by omega)
  | signature ht hn ho hps hc hs =>
      simp only [List.length_append, List.length_cons, List.length_nil] at hb
      exact topLevel_signature ht hn ho hps hc hs (by omega)
  | function ht hn ho hps hc hstart body hstop =>
      simp only [List.length_append, List.length_cons, List.length_nil] at hb
      simpa using topLevel_function ht hn ho hps hc hstart body hstop hq (by omega)

/-- The nodes of a program are read up to the end of the input. -/
theorem nodes_complete {ss : List Stmt} (h : Rows.Repeated TopLevel ss w) (hq : q.openLoops = 0)
    (hend : q.next = .endOfInput) (hb : w.length + q.cursor.length ≤ b) {n : Nat}
    (hn : w.length + q.cursor.length ≤ n) :
    manyUntil .endOfInput (topLevel b) n (q.prepend w) = .ok ss q := by
  induction h generalizing n with
  | nil => exact manyUntil_nil hend
  | @cons s ss v w first _ ih =>
      obtain ⟨t, ts, rfl, ht⟩ := first.front
      simp only [List.length_append, List.length_cons] at hb hn
      obtain ⟨n, rfl⟩ : ∃ k, n = k + 1 := ⟨n - 1, by omega⟩
      have hfirst := topLevel_complete (b := b) (q := q.prepend w) first hq (by simp; omega)
      have hothers := ih (by omega) (n := n) (by omega)
      rw [Parser.prepend_prepend] at hfirst
      exact manyUntil_cons (by rw [ht]; decide) hfirst hothers

end Grammar

/-- Tokens that are formed as a program between the two ends of the input are read as that
    program. -/
theorem parse_complete {first last : Token} {ss : List Stmt} {w : List Token}
    (hfirst : first.kind = .startOfInput) (h : Rows.Repeated TopLevel ss w)
    (hlast : last.kind = .endOfInput) :
    ∃ q, (Parser.ofCursor (.ofTokens (first :: w ++ [last]))).parse = (.ok ⟨ss⟩, q) := by
  obtain ⟨l, hl⟩ : ∃ l, Cursor.ofTokens (first :: w ++ [last]) = ⟨first :: w ++ [last], l⟩ :=
    ⟨_, rfl⟩
  let q : Parser := .ofCursor ⟨[last], l⟩
  have hp : Parser.ofCursor ⟨first :: w ++ [last], l⟩ = q.prepend (first :: w) := rfl
  have hnodes := Grammar.nodes_complete (q := q) (b := (q.prepend w).cursor.length) h rfl hlast
    (by simp) (n := (q.prepend w).cursor.length) (by simp)
  have hleft : Parse.tokensLeft (q.prepend w) =
      .ok (q.prepend w).cursor.length (q.prepend w) := rfl
  have hend : Parse.expect .endOfInput q = .ok last (.ofCursor ⟨[], l⟩) :=
    Parse.expect_prepend (q := .ofCursor ⟨[], l⟩) [] hlast
  refine ⟨.ofCursor ⟨[], l⟩, ?_⟩
  rw [hl, hp, Parser.parse, Grammar.program, Parse.bind_ok (Parse.expect_prepend w hfirst),
    Parse.bind_ok hleft, Parse.bind_ok hnodes, Parse.bind_ok hend]
  rfl

end PocketC
