/-
  PocketC.Proofs.Grammar.Reading

  What the steps of a reading do to a row of tokens, in both directions: which tokens
  a step has read if it succeeded, and that it succeeds on a row that begins with them.
-/

import PocketC.Grammar.Parser

namespace PocketC
namespace Parser

/-! ## Tokens in front -/

/-- The parser before it read the tokens `w`. -/
def prepend (q : Parser) (w : List Token) : Parser :=
  { q with cursor := { q.cursor with rest := w ++ q.cursor.rest } }

/-- The kind of the next token. -/
def next (p : Parser) : Kind := (p.cursor.peek 0).kind

@[simp] theorem prepend_nil (q : Parser) : q.prepend [] = q := rfl

@[simp] theorem prepend_prepend (q : Parser) (v w : List Token) :
    (q.prepend w).prepend v = q.prepend (v ++ w) := by
  simp [prepend]

@[simp] theorem length_prepend (q : Parser) (w : List Token) :
    (q.prepend w).cursor.length = w.length + q.cursor.length := by
  simp [prepend, Cursor.length]

@[simp] theorem peek_prepend_cons (q : Parser) (t : Token) (w : List Token) :
    (q.prepend (t :: w)).cursor.peek 0 = t := rfl

@[simp] theorem next_prepend_cons (q : Parser) (t : Token) (w : List Token) :
    (q.prepend (t :: w)).next = t.kind := rfl

/-- What is seen behind the token in front is what is next without it. -/
theorem sees_prepend_singleton (q : Parser) (t : Token) (k : Kind) :
    (q.prepend [t]).cursor.sees k 1 = (q.next == k) := rfl

/-- A parser whose next token is not the end of the input has that token in front. -/
theorem eq_prepend_of_next {p : Parser} (h : p.next ≠ .endOfInput) :
    p = Parser.prepend { p with cursor := p.cursor.skip } [p.cursor.peek 0] := by
  obtain ⟨⟨rest, l⟩, loops⟩ := p
  cases rest with
  | nil => exact absurd rfl h
  | cons t ts => rfl

end Parser

namespace Parse

variable {α β : Type} {p q : Parser} {k : Kind} {t : Token}

/-! ## What a step has read -/

/-- Two readings in a row succeed where the first does and the second behind it. -/
theorem bind_eq_ok {x : Parse α} {f : α → Parse β} {b : β} :
    (x >>= f) p = .ok b q ↔ ∃ a r, x p = .ok a r ∧ f a r = .ok b q := by
  rw [bind_apply]
  constructor
  · intro h
    cases hx : x p with
    | ok a r =>
        rw [hx] at h
        exact ⟨a, r, rfl, h⟩
    | error e r =>
        rw [hx] at h
        cases h
  · rintro ⟨a, r, hx, h⟩
    rw [hx]
    exact h

/-- A token that had to be of kind `k` was read.  The end of the input is left out, since there
    may be no token behind it to read. -/
theorem expect_eq_ok (hk : k ≠ .endOfInput) (h : expect k p = .ok t q) :
    t.kind = k ∧ p = q.prepend [t] := by
  unfold expect Cursor.take at h
  split at h
  · rename_i hif
    split at hif
    · rename_i hnext
      cases hif
      cases h
      refine ⟨hnext, Parser.eq_prepend_of_next ?_⟩
      rw [Parser.next, hnext]
      exact hk
    · cases hif
  · cases h

theorem identifier_eq_ok {name : String} (h : identifier p = .ok name q) :
    ∃ t, t.kind = .identifier ∧ t.text = name ∧ p = q.prepend [t] := by
  obtain ⟨t, r, ht, hpure⟩ := bind_eq_ok.mp h
  cases hpure
  obtain ⟨hk, hp⟩ := expect_eq_ok (by decide) ht
  exact ⟨t, hk, rfl, hp⟩

theorem accept_eq (k : Kind) (p : Parser) :
    accept k p =
      if p.next = k then .ok true { p with cursor := p.cursor.skip } else .ok false p := by
  unfold accept Cursor.takeIf Parser.next
  by_cases h : (p.cursor.peek 0).kind = k
  · rw [if_pos h, if_pos h]
  · rw [if_neg h, if_neg h]

theorem accept_eq_true (hk : k ≠ .endOfInput) (h : accept k p = .ok true q) :
    ∃ t, t.kind = k ∧ p = q.prepend [t] := by
  rw [accept_eq] at h
  split at h
  · rename_i hnext
    cases h
    refine ⟨p.cursor.peek 0, hnext, Parser.eq_prepend_of_next ?_⟩
    rw [hnext]
    exact hk
  · cases h

theorem accept_eq_false (h : accept k p = .ok false q) : q = p := by
  rw [accept_eq] at h
  split at h
  · cases h
  · cases h
    rfl

/-! ## What a step reads -/

/-- The second reading begins where the first succeeded. -/
theorem bind_ok {x : Parse α} {f : α → Parse β} {a : α} (h : x p = .ok a q) :
    (x >>= f) p = f a q := by
  rw [bind_apply, h]

theorem expect_prepend (w : List Token) (hk : t.kind = k) :
    expect k (q.prepend (t :: w)) = .ok t (q.prepend w) := by
  unfold expect Cursor.take
  rw [Parser.peek_prepend_cons, if_pos hk]
  rfl

theorem identifier_prepend (w : List Token) (hk : t.kind = .identifier) :
    identifier (q.prepend (t :: w)) = .ok t.text (q.prepend w) := by
  rw [identifier, bind_ok (expect_prepend w hk), pure_apply]

theorem accept_prepend (w : List Token) (hk : t.kind = k) :
    accept k (q.prepend (t :: w)) = .ok true (q.prepend w) := by
  rw [accept_eq, Parser.next_prepend_cons, if_pos hk]
  rfl

/-- Behind `w`, the body of a loop is read with one more loop open. -/
theorem insideLoop_prepend {x : Parse α} {s : Cursor} {n : Nat} {w : List Token}
    {r : EStateM.Result ParseError Parser α} :
    x (Parser.prepend ⟨s, n + 1⟩ w) = r → insideLoop x (Parser.prepend ⟨s, n⟩ w) =
      match r with
      | .ok a q => .ok a { q with openLoops := q.openLoops - 1 }
      | .error e q => .error e { q with openLoops := q.openLoops - 1 } := by
  rintro rfl
  rfl

theorem expect_of_ne (h : p.next ≠ k) : expect k p = .error (p.cursor.mismatch k) p := by
  have htake : p.cursor.take k = .error (p.cursor.mismatch k) := if_neg h
  rw [expect, htake]

theorem accept_of_ne (h : p.next ≠ k) : accept k p = .ok false p := by
  rw [accept_eq, if_neg h]

/-! ## Looking ahead -/

theorem peek_eq (n : Nat) (p : Parser) : peek n p = .ok (p.cursor.peek n) p := rfl

theorem sees_eq (k : Kind) (n : Nat) (p : Parser) : sees k n p = .ok (p.cursor.sees k n) p := rfl

theorem here_eq (p : Parser) : here p = .ok (p.cursor.peek 0).location p := rfl

end Parse
end PocketC
