/-
  PocketC.Proofs.Grammar.Earliest

  Errors are found as early as they can be.  Whether reading fails at a token is decided by
  the tokens up to that one, and where another kind of token had to stand, the tokens in
  front of it are the front of a program.
-/

import PocketC.Proofs.Grammar.Acceptance
import PocketC.Proofs.Grammar.Prompt.Program

namespace PocketC

/-! ## Tokens in front, as seen by looking ahead -/

namespace Parser

theorem peek_prepend_add (q : Parser) (w : List Token) (i : Nat) :
    (q.prepend w).cursor.peek (w.length + i) = q.cursor.peek i := by
  simp [prepend, Cursor.peek, List.getElem?_append_right]

theorem peek_prepend_lt (q : Parser) {w : List Token} {i : Nat} (hi : i < w.length) :
    (q.prepend w).cursor.peek i = w[i] := by
  simp [prepend, Cursor.peek, List.getElem?_append_left hi, List.getElem?_eq_getElem hi]

theorem peek_prepend_length (q : Parser) (w : List Token) :
    (q.prepend w).cursor.peek w.length = q.cursor.peek 0 := q.peek_prepend_add w 0

/-- A parser that sees the tokens `w` has them in front, if none of them is the end of the input. -/
theorem eq_prepend_of_peek {p : Parser} {w : List Token} (hw : Inside w)
    (h : ∀ i (hi : i < w.length), p.cursor.peek i = w[i]) :
    ∃ q : Parser, q.openLoops = p.openLoops ∧ p = q.prepend w := by
  induction w generalizing p with
  | nil => exact ⟨p, rfl, rfl⟩
  | cons t ts ih =>
      have hfirst : p.cursor.peek 0 = t := h 0 (Nat.succ_pos _)
      have hnext : p.next ≠ .endOfInput := by
        rw [next, hfirst]
        exact hw t List.mem_cons_self
      obtain ⟨q, hq, hrest⟩ := ih (p := { p with cursor := p.cursor.skip })
        (fun u hu => hw u (List.mem_cons_of_mem t hu)) fun i hi => by
          rw [Cursor.peek_skip]
          exact h (i + 1) (Nat.succ_lt_succ hi)
      refine ⟨q, hq, ?_⟩
      rw [eq_prepend_of_next hnext, hrest, hfirst, prepend_prepend]
      rfl

/-- A parser that sees what `q` sees behind the tokens `w`, as far as the token behind them, has
    them in front too and goes on as `q` does. -/
theorem alike_of_peek {p q : Parser} {w : List Token} (hw : Inside w)
    (hloops : p.openLoops = q.openLoops)
    (h : ∀ i ≤ w.length, p.cursor.peek i = (q.prepend w).cursor.peek i) :
    ∃ q', q.Alike q' ∧ p = q'.prepend w := by
  obtain ⟨q', hq', rfl⟩ := eq_prepend_of_peek (p := p) hw fun i hi => by
    rw [h i (Nat.le_of_lt hi), peek_prepend_lt q hi]
  refine ⟨q', ⟨hq'.trans hloops, ?_⟩, rfl⟩
  have hbehind := h w.length (Nat.le_refl _)
  rwa [peek_prepend_length, peek_prepend_length] at hbehind

end Parser

/-! ## The place of an error -/

namespace ParseError

/-- The error without the tokens that were not read. -/
def withoutRemaining (e : ParseError) : ParseError :=
  match e.cause with
  | .unexpected expected found _ => ⟨.unexpected expected found [], e.location⟩
  | _ => e

/-- Which of the tokens `a` the error is about, where reading them ended in `q`.  A token of an
    unexpected kind is left, and one with anything else wrong is read. -/
def index (e : ParseError) (a : List Token) (q : Parser) : Nat :=
  a.length - q.cursor.length - if e.cause.isUnexpected then 0 else 1

theorem index_unexpected {a w : List Token} {q : Parser} (k : Kind)
    (h : a.length = (q.prepend w).cursor.length) : (q.cursor.mismatch k).index a q = w.length := by
  rw [Parser.length_prepend] at h
  simp [index, Cursor.mismatch, Misfit.isUnexpected, h]

theorem index_blamed {e : ParseError} {a w : List Token} {t : Token} {q : Parser}
    (he : e.cause.isUnexpected = false) (h : a.length = (q.prepend (w ++ [t])).cursor.length) :
    e.index a q = w.length := by
  rw [Parser.length_prepend] at h
  simp [index, he, h]

theorem about_mismatch (s : Cursor) (k : Kind) : (s.mismatch k).About (s.peek 0) := ⟨rfl, rfl⟩

/-- Apart from the tokens not read, only the next token makes a difference. -/
theorem withoutRemaining_mismatch {s s' : Cursor} (h : s'.peek 0 = s.peek 0) (k : Kind) :
    (s'.mismatch k).withoutRemaining = (s.mismatch k).withoutRemaining := by
  simp [Cursor.mismatch, withoutRemaining, h]

end ParseError

namespace Grammar

open Parse

/-! ## Programs and their bounds -/

/-- Programs up to the token behind their last node. -/
def UpToEnd : Rows Program := fun program w =>
  ∃ first v, first.kind = .startOfInput ∧ Rows.Repeated TopLevel program.nodes v ∧ w = first :: v

/-- Reads the nodes of a program and the end of the input. -/
def programAfter (bound : Nat) : Parse Program := do
  let nodes ← manyUntil .endOfInput (topLevel bound) bound
  let _ ← expect .endOfInput
  return ⟨nodes⟩

/-- Any bound will do that is at least the number of tokens left. -/
theorem programAfter_bound {p : Parser} {b : Nat} (hp : p.openLoops = 0)
    (hlen : p.cursor.length ≤ b) : programAfter p.cursor.length p = programAfter b p := by
  have hnodes := ((prompt_nodes b p.cursor.length).reads p hp hlen).eq (Nat.le_refl _)
  rw [programAfter, programAfter, bind_apply, bind_apply, hnodes]

theorem program_prepend {first : Token} (hfirst : first.kind = .startOfInput) {p : Parser} {b : Nat}
    (hp : p.openLoops = 0) (hlen : p.cursor.length ≤ b) :
    program (p.prepend [first]) = programAfter b p := by
  have hread : program (p.prepend [first]) = programAfter p.cursor.length p := by
    rw [program, bind_ok (expect_prepend [] hfirst)]
    rfl
  rw [hread, programAfter_bound hp hlen]

/-- An error behind the first token is found promptly. -/
theorem programAfter_error {b : Nat} {p q : Parser} {e : ParseError} (hp : p.openLoops = 0)
    (hlen : p.cursor.length ≤ b) (h : programAfter b p = .error e q) (b' : Nat) :
    PromptEnd b' (fun program w => Rows.Repeated TopLevel program.nodes w) (programAfter b') p
      (.error e q) := by
  have hnodes := (prompt_nodes b b').reads p hp hlen
  unfold PromptAt at hnodes
  rw [programAfter, bind_apply] at h
  generalize manyUntil .endOfInput (topLevel b) b p = r at h hnodes
  cases hnodes with
  | @ok nodes q' w front inside row again =>
      dsimp only at h
      -- behind the nodes only the end of the input is expected
      by_cases hnext : q'.next = .endOfInput
      · have hread : expect .endOfInput q' =
            .ok (q'.cursor.peek 0) { q' with cursor := q'.cursor.skip } := by
          have htake : q'.cursor.take .endOfInput = .ok (q'.cursor.peek 0, q'.cursor.skip) :=
            if_pos hnext
          rw [expect, htake]
        rw [bind_ok hread] at h
        cases h
      · rw [bind_apply, expect_of_ne hnext] at h
        cases h
        refine .unexpected w front inside ⟨⟨nodes⟩, [], ?_⟩ fun s hs hroom => ?_
        · rw [List.append_nil]
          exact row
        · have hnext' : s.next ≠ .endOfInput := by
            rw [hs.next]
            exact hnext
          rw [programAfter, bind_ok (again s hs hroom), bind_apply, expect_of_ne hnext']
  | @unexpected k q' w front inside viable again =>
      obtain ⟨nodes, v, hv⟩ := viable
      cases h
      refine .unexpected w front inside ⟨⟨nodes⟩, v, hv⟩ fun s hs hroom => ?_
      rw [programAfter, bind_apply, again s hs hroom]
  | @blamed e' q' w t front inside about read again =>
      cases h
      refine .blamed w t front inside about read fun s hs hroom => ?_
      rw [programAfter, bind_apply, again s hs hroom]

/-- An error in a program is found promptly. -/
theorem program_error {p q : Parser} {e : ParseError} (hp : p.openLoops = 0)
    (h : program p = .error e q) (room : Nat) : PromptEnd room UpToEnd program p (.error e q) := by
  by_cases hnext : p.next = .startOfInput
  · obtain ⟨first, p, hfirst, rfl⟩ := Parser.exists_prepend_of_next hnext (by decide)
    have hloops : p.openLoops = 0 := hp
    have hinside : Inside [first] := inside_singleton (hfirst ▸ by decide)
    -- the bound for the nodes is the number of tokens left, and the other parser has another one
    rw [program_prepend hfirst hloops (Nat.le_refl _)] at h
    have hend := programAfter_error hloops (Nat.le_refl _) h room
    cases hend with
    | @unexpected k q w front inside viable again =>
        obtain ⟨program, v, hv⟩ := viable
        subst front
        refine .unexpected (first :: w) (Parser.prepend_prepend q [first] w)
          (hinside.append inside) ⟨program, v, first, w ++ v, hfirst, hv, rfl⟩ fun s hs hroom => ?_
        have hroom' : (s.prepend w).cursor.length ≤ room := by
          simp only [Parser.length_prepend, List.length_cons] at hroom ⊢
          omega
        rw [← again s hs hroom']
        refine program_prepend (p := s.prepend w) hfirst ?_ hroom'
        exact hs.openLoops.trans hloops
    | @blamed _ q w t front inside about read again =>
        subst front
        refine .blamed (first :: w) t (Parser.prepend_prepend q [first] (w ++ [t]))
          (hinside.append inside) about read fun s hs hroom => ?_
        have hroom' : (s.prepend (w ++ [t])).cursor.length ≤ room := by
          simp only [Parser.length_prepend, List.length_cons, List.length_append] at hroom ⊢
          omega
        rw [← again s hs hroom']
        refine program_prepend (p := s.prepend (w ++ [t])) hfirst ?_ hroom'
        exact hs.trans hloops
  · rw [program, bind_apply, expect_of_ne hnext] at h
    cases h
    refine .unexpected [] rfl inside_nil
      ⟨⟨[]⟩, [.first], .first, [], rfl, .nil, rfl⟩ fun s hs _ => ?_
    have hnext' : s.next ≠ .startOfInput := by
      rw [hs.next]
      exact hnext
    rw [Parser.prepend_nil, program, bind_apply, expect_of_ne hnext']

end Grammar

/-! ## The earliest token -/

namespace Parser

variable {a b : List Token} {p p' q : Parser} {e : ParseError}

theorem parse_eq_error : p.parse = (.error e, q) ↔ Grammar.program p = .error e q := by
  rw [parse]
  cases Grammar.program p <;> simp

/-- The error is about the token it is counted to be about. -/
theorem parse_error_about (hp : p.openLoops = 0) (ha : a.length = p.cursor.length)
    (h : p.parse = (.error e, q)) : e.About (p.cursor.peek (e.index a q)) := by
  have hend := Grammar.program_error hp (parse_eq_error.mp h) 0
  cases hend with
  | unexpected w front inside viable again =>
      subst front
      rw [ParseError.index_unexpected _ ha, peek_prepend_length]
      exact ParseError.about_mismatch _ _
  | blamed w t front inside about read again =>
      subst front
      rw [ParseError.index_blamed read ha, ← prepend_prepend, peek_prepend_length]
      exact about

/-- A parser that sees the same tokens up to that of the error fails with it too. -/
theorem parse_error_again (hp : p.openLoops = 0) (hp' : p'.openLoops = 0)
    (ha : a.length = p.cursor.length) (hb : b.length = p'.cursor.length)
    (h : p.parse = (.error e, q))
    (hsame : ∀ i ≤ e.index a q, p'.cursor.peek i = p.cursor.peek i) :
    ∃ e' q', p'.parse = (.error e', q') ∧ e'.withoutRemaining = e.withoutRemaining ∧
      e'.index b q' = e.index a q := by
  have hend := Grammar.program_error hp (parse_eq_error.mp h) p'.cursor.length
  cases hend with
  | @unexpected k q w front inside viable again =>
      subst front
      have hloops : q.openLoops = 0 := hp
      -- what is unexpected in the one is unexpected in the other, with other tokens behind it
      rw [ParseError.index_unexpected _ ha] at hsame ⊢
      obtain ⟨q', halike, rfl⟩ := alike_of_peek inside (hp'.trans hloops.symm) hsame
      refine ⟨_, q', parse_eq_error.mpr (again q' halike (Nat.le_refl _)), ?_, ?_⟩
      · exact ParseError.withoutRemaining_mismatch halike.token k
      · exact ParseError.index_unexpected k hb
  | blamed w t front inside about read again =>
      subst front
      rw [ParseError.index_blamed read ha] at hsame ⊢
      obtain ⟨q', hq', rfl⟩ := eq_prepend_of_peek (p := p') inside fun i hi => by
        rw [List.length_append] at hi
        rw [hsame i (Nat.le_of_lt_succ hi), peek_prepend_lt]
      refine ⟨e, q', parse_eq_error.mpr (again q' (hq'.trans (hp'.trans hp.symm)) (Nat.le_refl _)),
        rfl, ?_⟩
      exact ParseError.index_blamed read hb

/-- The tokens in front of an unexpected one are the front of a program. -/
theorem parse_error_viable (h : (ofCursor (.ofTokens a)).parse = (.error e, q))
    (he : e.cause.isUnexpected = true) :
    ∃ c program q', (ofCursor (.ofTokens (a.take (e.index a q) ++ c))).parse =
      (.ok program, q') := by
  have hend := Grammar.program_error rfl (parse_eq_error.mp h) 0
  cases hend with
  | @unexpected k q w front inside viable again =>
      have ha : a = w ++ q.cursor.rest := congrArg (fun p => p.cursor.rest) front
      obtain ⟨program, v, first, u, hfirst, hnodes, hv⟩ := viable
      have hlast : (Token.endAt .start).kind = .endOfInput := rfl
      obtain ⟨q', hq'⟩ := parse_complete hfirst hnodes hlast
      refine ⟨v ++ [.endAt .start], program, q', ?_⟩
      rw [ParseError.index_unexpected k (w := w) (by rw [← front]; rfl), ha, List.take_left,
        ← List.append_assoc, hv]
      exact hq'
  | blamed w t front inside about read again =>
      rw [he] at read
      cases read

end Parser

/-- An error of reading the tokens `a` is about the earliest token it can be about.  It is met in
    all rows of tokens that look the same up to that token, and the tokens in front of a token of
    an unexpected kind can be completed to a program. -/
theorem parse_error_earliest {a : List Token} {e : ParseError} {q : Parser}
    (h : (Parser.ofCursor (.ofTokens a)).parse = (.error e, q)) :
    e.About ((Cursor.ofTokens a).peek (e.index a q)) ∧
    (∀ b : List Token,
      (∀ i ≤ e.index a q, (Cursor.ofTokens b).peek i = (Cursor.ofTokens a).peek i) →
      ∃ e' q', (Parser.ofCursor (.ofTokens b)).parse = (.error e', q') ∧
        e'.withoutRemaining = e.withoutRemaining ∧ e'.index b q' = e.index a q) ∧
    (e.cause.isUnexpected = true → ∃ c program q',
      (Parser.ofCursor (.ofTokens (a.take (e.index a q) ++ c))).parse = (.ok program, q')) :=
  ⟨Parser.parse_error_about rfl rfl h, fun _ hb => Parser.parse_error_again rfl rfl rfl rfl h hb,
    Parser.parse_error_viable h⟩

/-- A declaration without its initial value is given up at the semicolon. -/
theorem parse_error_earliest_missing_value :
    let token (k : Kind) (kept : Option String) (column : Nat) : Token := ⟨k, kept, ⟨1, column⟩⟩
    let a := [.first, token .identifier "int" 1, token .identifier "x" 5, token .assign none 7,
      token .semicolon none 9, .endAt ⟨1, 10⟩]
    let e : ParseError := ⟨.unexpected .openParen .semicolon (a.drop 4), ⟨1, 9⟩⟩
    let q : Parser := .ofCursor ⟨a.drop 4, ⟨1, 10⟩⟩
    (Parser.ofCursor (.ofTokens a)).parse = (.error e, q) ∧ e.index a q = 4 ∧
    e.About ((Cursor.ofTokens a).peek (e.index a q)) ∧
    (∀ b : List Token,
      (∀ i ≤ e.index a q, (Cursor.ofTokens b).peek i = (Cursor.ofTokens a).peek i) →
      ∃ e' q', (Parser.ofCursor (.ofTokens b)).parse = (.error e', q') ∧
        e'.withoutRemaining = e.withoutRemaining ∧ e'.index b q' = e.index a q) ∧
    (e.cause.isUnexpected = true → ∃ c program q',
      (Parser.ofCursor (.ofTokens (a.take (e.index a q) ++ c))).parse = (.ok program, q')) := by
  intro token a e q
  have hfails : (Parser.ofCursor (.ofTokens a)).parse = (.error e, q) := by rfl
  have hindex : e.index a q = 4 := by decide
  exact ⟨hfails, hindex, parse_error_earliest hfails⟩

end PocketC
