/-
  PocketC.Proofs.Grammar.Progress

  Reading always comes to an end, and always makes progress.

  `EndsAs` compares a reading without bounds with the bounded one, on all parsers with a
  number of tokens left: they end in the same way, a success leaves fewer tokens, and a
  failure no more.  What is read behind a success has fewer tokens left, which is what the
  recursion rests on: a reading that recurs has passed over a token, or is of a lower rank
  (`Readings.Ranked`).  Each turn of the readings keeps this, so by induction on the depth
  the recursion is at most four times as deep as there are tokens left, and a bound of as
  many as there are tokens is not felt.
-/

import PocketC.Proofs.Grammar.Unbounded
import PocketC.Proofs.Grammar.Prompt.Program

namespace PocketC

open Parse

variable {α β : Type}

/-! ## Tokens left -/

/-- A success leaves at least `k` tokens fewer than `p` has left, and a failure no more. -/
def Leaves (k : Nat) (p : Parser) : EStateM.Result ParseError Parser α → Prop
  | .ok _ q => q.cursor.length + k ≤ p.cursor.length
  | .error _ q => q.cursor.length ≤ p.cursor.length

namespace Leaves

variable {j k : Nat} {p q : Parser} {r : EStateM.Result ParseError Parser α}

theorem mono (h : Leaves k p r) (hjk : j ≤ k) : Leaves j p r := by
  cases r with
  | ok a q =>
      simp only [Leaves] at h ⊢
      omega
  | error e q => exact h

/-- What is left of the tokens behind a success. -/
theorem behind (hq : q.cursor.length + k ≤ p.cursor.length) (h : Leaves (j - k) q r) :
    Leaves j p r := by
  cases r with
  | ok a s =>
      simp only [Leaves] at h ⊢
      omega
  | error e s =>
      simp only [Leaves] at h ⊢
      omega

theorem bind {x : Parse α} {f : α → Parse β} (hx : Leaves k p (x p))
    (hf : ∀ a q, x p = .ok a q → Leaves (j - k) q (f a q)) : Leaves j p ((x >>= f) p) := by
  rw [Parse.bind_apply]
  cases h : x p with
  | ok a q =>
      rw [h] at hx
      exact .behind hx (hf a q h)
  | error e q =>
      rw [h] at hx
      exact hx

end Leaves

/-- A token that was read is no longer left. -/
theorem leaves_expect {K : Kind} (hK : K ≠ .endOfInput) (p : Parser) : Leaves 1 p (expect K p) := by
  cases h : expect K p with
  | ok t q =>
      obtain ⟨-, rfl⟩ := expect_eq_ok hK h
      simp [Leaves, Nat.add_comm]
  | error e q =>
      unfold expect at h
      split at h
      · cases h
      · cases h
        exact Nat.le_refl _

/-- The end of the input is no token. -/
theorem leaves_expect_end (p : Parser) : Leaves 0 p (expect .endOfInput p) := by
  unfold expect Cursor.take
  by_cases h : (p.cursor.peek 0).kind = .endOfInput
  · rw [if_pos h]
    show p.cursor.skip.length ≤ p.cursor.length
    rw [Cursor.length_skip]
    omega
  · rw [if_neg h]
    exact Nat.le_refl _

theorem leaves_identifier (p : Parser) : Leaves 1 p (identifier p) :=
  (leaves_expect (by decide) p).bind fun _ _ _ => Nat.le_refl _

/-- A token that was read because it is next is no longer left. -/
theorem length_skip_of_next {p : Parser} (hp : p.next ≠ .endOfInput) :
    p.cursor.skip.length + 1 = p.cursor.length := by
  have hlength := congrArg (fun q : Parser => q.cursor.length) (Parser.eq_prepend_of_next hp)
  simp only [Parser.length_prepend] at hlength
  simp only [List.length_cons, List.length_nil] at hlength
  omega

theorem leaves_accept (K : Kind) (p : Parser) : Leaves 0 p (accept K p) := by
  rw [accept_eq]
  split
  · show p.cursor.skip.length ≤ p.cursor.length
    rw [Cursor.length_skip]
    omega
  · exact Nat.le_refl _

theorem leaves_literal {k : Kind} (hk : k ≠ .endOfInput) (meaning : String → Option α)
    (node : α → Location → Expr) (p : Parser) : Leaves 1 p (Grammar.literal k meaning node p) := by
  refine (leaves_expect hk p).bind fun t q _ => ?_
  cases meaning t.text with
  | none => exact Nat.le_refl _
  | some a => exact Nat.le_refl _

theorem leaves_jump {k : Kind} (hk : k ≠ .endOfInput) (node : Location → Stmt) (p : Parser) :
    Leaves 1 p (Grammar.jump k node p) := by
  refine (leaves_expect hk p).bind fun t q _ => ?_
  show Leaves 0 q ((if q.openLoops = 0 then misfit (.jumpOutsideLoop k) t.location
    else pure (node t.location)) q)
  split <;> exact Nat.le_refl _

theorem leaves_param (p : Parser) : Leaves 1 p (Grammar.param p) := by
  refine (leaves_identifier p).bind fun type q _ => ?_
  refine (leaves_identifier q).bind fun name s _ => ?_
  refine (leaves_accept .openBracket s).bind fun brackets u _ => ?_
  cases brackets with
  | true => exact (leaves_expect (by decide) u).bind fun _ _ _ => Nat.le_refl _
  | false => exact Nat.le_refl _

/-! ## Readings that end -/

/-- With at most `n` tokens left, `u` ends as `x` does, and leaves so many tokens fewer. -/
structure EndsAs (n k : Nat) (u : Unbounded α) (x : Parse α) : Prop where
  ends : ∀ p : Parser, p.cursor.length ≤ n → u p = some (ended (x p))
  leaves : ∀ p : Parser, p.cursor.length ≤ n → Leaves k p (x p)

theorem Unbounded.lift_apply (x : Parse α) (p : Parser) :
    (liftM x : Unbounded α) p = some (ended (x p)) := rfl

theorem Unbounded.bind_apply (u : Unbounded α) (f : α → Unbounded β) (p : Parser) :
    (u >>= f) p = match u p with
      | none => none
      | some (.ok a, q) => f a q
      | some (.error e, q) => some (.error e, q) := by
  show Option.bind (u p) _ = _
  cases u p with
  | none => rfl
  | some r =>
      obtain ⟨r, q⟩ := r
      cases r <;> rfl

namespace EndsAs

variable {n m k i j : Nat} {u : Unbounded α} {x : Parse α} {f' : α → Unbounded β} {f : α → Parse β}

theorem mono (h : EndsAs n k u x) (hm : m ≤ n) (hi : i ≤ k) : EndsAs m i u x where
  ends p hp := h.ends p (Nat.le_trans hp hm)
  leaves p hp := (h.leaves p (Nat.le_trans hp hm)).mono hi

/-- A reading that does the same so close to the end ends in the same way. -/
theorem congr {x' : Parse α} (h : EndsAs n k u x)
    (hx : ∀ p : Parser, p.cursor.length ≤ n → x' p = x p) : EndsAs n k u x' where
  ends p hp := by
    rw [hx p hp]
    exact h.ends p hp
  leaves p hp := by
    rw [hx p hp]
    exact h.leaves p hp

theorem pure (a : α) : EndsAs n 0 (pure a) (pure a) where
  ends _ _ := rfl
  leaves _ _ := Nat.le_refl _

/-- Behind a success there are fewer tokens left; without enough of them there is no success. -/
theorem bind (h : EndsAs n k u x) (hf : k ≤ n → ∀ a, EndsAs (n - k) (j - k) (f' a) (f a)) :
    EndsAs n j (u >>= f') (x >>= f) where
  ends p hp := by
    rw [Unbounded.bind_apply, h.ends p hp, Parse.bind_apply]
    have hleaves := h.leaves p hp
    cases hx : x p with
    | ok a q =>
        rw [hx] at hleaves
        simp only [Leaves] at hleaves
        exact (hf (by omega) a).ends q (by omega)
    | error e q => rfl
  leaves p hp := by
    have hleaves := h.leaves p hp
    refine hleaves.bind fun a q hx => ?_
    rw [hx] at hleaves
    simp only [Leaves] at hleaves
    exact (hf (by omega) a).leaves q (by omega)

/-- What is read behind it needs no more than that no tokens came back. -/
theorem andThen (h : EndsAs n k u x) (hf : ∀ a, EndsAs n 0 (f' a) (f a)) :
    EndsAs n 0 (u >>= f') (x >>= f) :=
  (h.mono (Nat.le_refl n) (Nat.zero_le k)).bind fun _ => hf

/-- A step of the grammar ends. -/
theorem step (h : ∀ p : Parser, Leaves k p (x p)) : EndsAs n k (liftM x) x where
  ends _ _ := rfl
  leaves p _ := h p

/-- Looking does not move on. -/
theorem look (hx : ∀ p, ∃ a, x p = .ok a p) (hf : ∀ a, EndsAs n j (f' a) (f a)) :
    EndsAs n j (liftM x >>= f') (x >>= f) := by
  have hlook : EndsAs n 0 (liftM x) x := by
    refine step fun p => ?_
    obtain ⟨a, ha⟩ := hx p
    rw [ha]
    exact Nat.le_refl _
  exact hlook.bind fun _ => hf

theorem peek {offset : Nat} {f' : Token → Unbounded β} {f : Token → Parse β}
    (hf : ∀ t, EndsAs n j (f' t) (f t)) :
    EndsAs n j (liftM (peek offset) >>= f') (Parse.peek offset >>= f) :=
  look (fun _ => ⟨_, rfl⟩) hf

theorem here {f' : Location → Unbounded β} {f : Location → Parse β}
    (hf : ∀ l, EndsAs n j (f' l) (f l)) :
    EndsAs n j (liftM here >>= f') (Parse.here >>= f) :=
  look (fun _ => ⟨_, rfl⟩) hf

/-- Counting the tokens left, which only the bounded reading does. -/
theorem tokensLeft {u : Unbounded β} {f : Nat → Parse β} (h : ∀ m, m ≤ n → EndsAs m j u (f m)) :
    EndsAs n j u (Parse.tokensLeft >>= f) where
  ends p hp := (h p.cursor.length hp).ends p (Nat.le_refl _)
  leaves p hp := (h p.cursor.length hp).leaves p (Nat.le_refl _)

/-- Looking at the kind of a token ahead. -/
theorem sees {K : Kind} {offset : Nat} {yes no : Unbounded β} {yes' no' : Parse β}
    (hyes : EndsAs n j yes yes') (hno : EndsAs n j no no') :
    EndsAs n j (do if ← sees K offset then yes else no)
      (do if ← Parse.sees K offset then yes' else no') := by
  refine look (fun _ => ⟨_, rfl⟩) fun seen => ?_
  cases seen with
  | true => exact hyes
  | false => exact hno

/-- A token that has to be there is passed over. -/
theorem expect {K : Kind} {f' : Token → Unbounded β} {f : Token → Parse β}
    (hK : K ≠ .endOfInput) (hf : 1 ≤ n → ∀ t, EndsAs (n - 1) (j - 1) (f' t) (f t)) :
    EndsAs n j (liftM (expect K) >>= f') (Parse.expect K >>= f) :=
  (step (leaves_expect hK)).bind hf

theorem identifier {f' : String → Unbounded β} {f : String → Parse β}
    (hf : 1 ≤ n → ∀ name, EndsAs (n - 1) (j - 1) (f' name) (f name)) :
    EndsAs n j (liftM identifier >>= f') (Parse.identifier >>= f) :=
  (step leaves_identifier).bind hf

/-- A token that may be there is passed over if it is. -/
theorem accept {K : Kind} {f' : Bool → Unbounded β} {f : Bool → Parse β} (hK : K ≠ .endOfInput)
    (hyes : 1 ≤ n → EndsAs (n - 1) (j - 1) (f' true) (f true))
    (hno : EndsAs n j (f' false) (f false)) :
    EndsAs n j (liftM (accept K) >>= f') (Parse.accept K >>= f) where
  ends p hp := by
    rw [Unbounded.bind_apply, Unbounded.lift_apply, Parse.bind_apply, accept_eq]
    by_cases hnext : p.next = K
    · have hskip := length_skip_of_next (hnext ▸ hK)
      rw [if_pos hnext]
      exact (hyes (by omega)).ends _ (by dsimp only; omega)
    · rw [if_neg hnext]
      exact hno.ends p hp
  leaves p hp := by
    rw [Parse.bind_apply, accept_eq]
    by_cases hnext : p.next = K
    · have hskip := length_skip_of_next (hnext ▸ hK)
      rw [if_pos hnext]
      exact .behind (Nat.le_of_eq hskip) ((hyes (by omega)).leaves _ (by dsimp only; omega))
    · rw [if_neg hnext]
      exact hno.leaves p hp

/-- A bound below one is not felt where no tokens are left, if it does there what one does. -/
theorem ofSucc {x : Nat → Parse α} (hsucc : ∀ m, n ≤ m + 1 → EndsAs n k u (x (m + 1)))
    (hzero : ∀ p : Parser, p.next = .endOfInput → x 0 p = x 1 p) (hm : n ≤ m) :
    EndsAs n k u (x m) := by
  cases m with
  | zero =>
      refine (hsucc 0 (by omega)).congr fun p hp => hzero p ?_
      exact Parser.next_of_length_le_zero (Nat.le_trans hp hm)
  | succ m => exact hsucc m hm

/-- What a list of items with commas between them needs of the items and of its rest. -/
theorem separated {item' : Unbounded α} {item : Parse α} {more : Unbounded (List α)}
    (hitem : EndsAs n 1 item' item) (hn : n ≤ m)
    (hmore : ∀ i, 2 ≤ n → n ≤ i + 1 → EndsAs (n - 2) 1 more (sequence item i)) :
    EndsAs n 1 (Readings.separated item' more) (sequence item m) := by
  cases m with
  | zero =>
      -- with no tokens left there is no item
      refine hitem.bind fun hpos a => ?_
      omega
  | succ m =>
      refine hitem.bind fun hpos first => .accept (by decide) (fun hcomma => ?_) (.pure _)
      have hrest := hmore m (by omega) hn
      exact (hrest.mono (by omega) (Nat.zero_le 1)).bind fun _ rest => .pure _

theorem listUntil {items' : Unbounded (List α)} {item : Parse α} {stop : Kind}
    (hitems : EndsAs n 1 items' (sequence item m)) :
    EndsAs n 0 (do if ← Parse.sees stop 0 then return [] else items')
      (Parse.listUntil stop item m) :=
  .sees (.pure _) (hitems.mono (Nat.le_refl n) (Nat.zero_le 1))

/-- What items one after the other need of the items and of their rest. -/
theorem repeated {item' : Unbounded α} {item : Parse α} {more : Unbounded (List α)} {stop : Kind}
    (hitem : EndsAs n 1 item' item) (hn : n ≤ m)
    (hmore : ∀ i, 1 ≤ n → n ≤ i + 1 → EndsAs (n - 1) 0 more (manyUntil stop item i)) :
    EndsAs n 0 (Readings.repeated stop item' more) (manyUntil stop item m) := by
  cases m with
  | zero =>
      refine .sees (.pure _) (hitem.bind fun hpos a => ?_)
      omega
  | succ m =>
      refine .sees (.pure _) (hitem.bind fun hpos first => ?_)
      exact (hmore m hpos hn).bind fun _ rest => .pure _

end EndsAs

end PocketC
