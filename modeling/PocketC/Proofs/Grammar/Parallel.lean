/-
  PocketC.Proofs.Grammar.Parallel

  Readings of rows of tokens that differ in places alone.  Two readings are alike if on such
  rows either both succeed, with results that are related, or both fail for the same reason
  with the same tokens left.  There is one rule for each step from which the grammar
  is built: no step looks at a place.
-/

import PocketC.Proofs.Grammar.Reading
import PocketC.Proofs.Parallel
import PocketC.Proofs.Tree.Unplaced

namespace PocketC

/-! ## Tokens and errors up to places -/

namespace Token

variable {t u : Token}

theorem kind_of_unplaced (h : t.unplaced = u.unplaced) : t.kind = u.kind := by
  have hkind : t.unplaced.kind = u.unplaced.kind := by rw [h]
  exact hkind

theorem text_of_unplaced (h : t.unplaced = u.unplaced) : t.text = u.text := by
  have htext : t.unplaced.text = u.unplaced.text := by rw [h]
  exact htext

/-- The text of a row shows no places. -/
theorem describeAll_unplaced (ts : List Token) :
    describeAll (ts.map Token.unplaced) = describeAll ts := by
  have hdescribe : Token.describe ∘ Token.unplaced = Token.describe := rfl
  rw [describeAll, List.map_map, hdescribe, describeAll]

end Token

/-- The misfit with the places of the tokens that are left forgotten. -/
def Misfit.unplaced : Misfit → Misfit
  | .unexpected expected found remaining =>
    .unexpected expected found (remaining.map Token.unplaced)
  | cause => cause

namespace ParseError

/-- The message shows no places of the tokens that are left. -/
theorem message_unplaced (e : ParseError) : e.message = message ⟨e.cause.unplaced, e.location⟩ := by
  obtain ⟨cause, l⟩ := e
  cases cause with
  | unexpected expected found remaining =>
      unfold message
      dsimp only [Misfit.unplaced]
      rw [Token.describeAll_unplaced]
  | _ => rfl

/-- The place of the token stands in one part of the message. -/
theorem message_at (cause : Misfit) :
    ∃ back, ∀ l : Location, message ⟨cause, l⟩ = "Parse error at " ++ l.text ++ back := by
  unfold message
  cases cause <;> (dsimp only; exact ⟨_, fun _ => String.append_assoc⟩)

/-- Messages about the same misfit differ in the place of the token alone. -/
theorem message_of_unplaced {e e' : ParseError} (h : e.cause.unplaced = e'.cause.unplaced) :
    ∃ front back, e.message = front ++ e.location.text ++ back ∧
      e'.message = front ++ e'.location.text ++ back := by
  obtain ⟨back, hback⟩ := message_at e.cause.unplaced
  refine ⟨"Parse error at ", back, ?_, ?_⟩
  · exact e.message_unplaced.trans (hback e.location)
  · rw [e'.message_unplaced, ← h]
    exact hback e'.location

end ParseError

/-! ## Parsers up to places -/

namespace Parser

/-- Both have the same tokens left, up to places, and the same number of open loops. -/
structure Displaced (p p' : Parser) : Prop where
  rest : p.cursor.rest.map Token.unplaced = p'.cursor.rest.map Token.unplaced
  openLoops : p.openLoops = p'.openLoops

variable {p p' : Parser}

theorem Displaced.length (h : p.Displaced p') : p.cursor.length = p'.cursor.length := by
  have hlength := congrArg List.length h.rest
  rw [List.length_map, List.length_map] at hlength
  exact hlength

theorem Displaced.peek (h : p.Displaced p') (n : Nat) :
    (p.cursor.peek n).unplaced = (p'.cursor.peek n).unplaced := by
  have hn : (p.cursor.rest.map Token.unplaced)[n]? = (p'.cursor.rest.map Token.unplaced)[n]? := by
    rw [h.rest]
  rw [List.getElem?_map, List.getElem?_map] at hn
  rw [Cursor.peek, Cursor.peek]
  -- behind both rows there is the end of the input
  cases hp : p.cursor.rest[n]? with
  | none =>
      rw [hp, Option.map_none, eq_comm, Option.map_eq_none_iff] at hn
      rw [hn]
      rfl
  | some t =>
      rw [hp, Option.map_some, eq_comm, Option.map_eq_some_iff] at hn
      obtain ⟨u, hu, htu⟩ := hn
      rw [hu]
      exact htu.symm

theorem Displaced.sees (h : p.Displaced p') (k : Kind) (n : Nat) :
    p.cursor.sees k n = p'.cursor.sees k n := by
  rw [Cursor.sees, Cursor.sees, Token.kind_of_unplaced (h.peek n)]

theorem Displaced.skip (h : p.Displaced p') :
    Displaced { p with cursor := p.cursor.skip } { p' with cursor := p'.cursor.skip } where
  rest := by
    show p.cursor.rest.tail.map Token.unplaced = p'.cursor.rest.tail.map Token.unplaced
    rw [List.map_tail, List.map_tail, h.rest]
  openLoops := h.openLoops

theorem Displaced.setLoops (h : p.Displaced p') (f : Nat → Nat) :
    Displaced { p with openLoops := f p.openLoops } { p' with openLoops := f p'.openLoops } where
  rest := h.rest
  openLoops := congrArg f h.openLoops

end Parser

/-! ## Parallel readings -/

/-- On rows that differ in places alone both readings succeed, with results that `Q` relates, or
    both fail for the same reason. -/
abbrev Parse.Alike {α : Type} (x y : Parse α) (Q : α → α → Prop) : Prop :=
  Parallel (fun e e' => e.cause.unplaced = e'.cause.unplaced) Parser.Displaced x y Q

namespace Parallel

open Parse

variable {α : Type} {x y : Parse α} {Q : α → α → Prop}

theorem peek (n : Nat) : Alike (peek n) (peek n) fun t u => t.unplaced = u.unplaced :=
  .ofLook (peek_eq n) (peek_eq n) fun _ _ hp => hp.peek n

theorem sees (k : Kind) (n : Nat) : Alike (sees k n) (sees k n) Eq :=
  .ofLook (sees_eq k n) (sees_eq k n) fun _ _ hp => hp.sees k n

theorem here : Alike here here fun _ _ => True :=
  .ofLook here_eq here_eq fun _ _ _ => trivial

theorem tokensLeft : Alike tokensLeft tokensLeft Eq :=
  .ofLook (fun _ => rfl) (fun _ => rfl) fun _ _ hp => hp.length

theorem misfit (cause : Misfit) (l l' : Location) :
    Alike (misfit cause l) (misfit cause l') Q :=
  fun _ _ hp => .error rfl hp

theorem mismatch {p p' : Parser} (hp : p.Displaced p') (k : Kind) :
    (p.cursor.mismatch k).cause.unplaced = (p'.cursor.mismatch k).cause.unplaced := by
  show Misfit.unexpected k _ _ = Misfit.unexpected k _ _
  rw [Token.kind_of_unplaced (hp.peek 0), hp.rest]

theorem unexpected (k : Kind) : Alike (unexpected k) (unexpected k) Q :=
  fun _ _ hp => .error (mismatch hp k) hp

theorem expect (k : Kind) : Alike (expect k) (expect k) fun t u => t.unplaced = u.unplaced := by
  intro p p' hp
  have hkind : p.next = p'.next := Token.kind_of_unplaced (hp.peek 0)
  by_cases hnext : p'.next = k
  · have htake : p.cursor.take k = .ok (p.cursor.peek 0, p.cursor.skip) :=
      if_pos (hkind.trans hnext)
    have htake' : p'.cursor.take k = .ok (p'.cursor.peek 0, p'.cursor.skip) := if_pos hnext
    rw [Parse.expect, Parse.expect, htake, htake']
    exact .ok (hp.peek 0) hp.skip
  · rw [expect_of_ne hnext, expect_of_ne (hkind ▸ hnext)]
    exact .error (mismatch hp k) hp

theorem accept (k : Kind) : Alike (accept k) (accept k) Eq := by
  intro p p' hp
  have hkind : p.next = p'.next := Token.kind_of_unplaced (hp.peek 0)
  rw [accept_eq, accept_eq, hkind]
  split
  · exact .ok rfl hp.skip
  · exact .ok rfl hp

theorem identifier : Alike identifier identifier Eq :=
  .bind (expect .identifier) fun _ _ h => .pure (Token.text_of_unplaced h)

theorem insideLoop (h : Alike x y Q) : Alike (insideLoop x) (insideLoop y) Q := by
  intro p p' hp
  unfold Parse.insideLoop
  have hbody := h _ _ (hp.setLoops (· + 1))
  match x _, y _, hbody with
  | _, _, .ok hab hq => exact .ok hab (hq.setLoops (· - 1))
  | _, _, .error he hq => exact .error he (hq.setLoops (· - 1))

/-! ### Repeating -/

section
variable {Qs : List α → List α → Prop}

/-- Rows of items are related by `Qs` if their items are related by `Q`. -/
theorem sequence (h : Alike x y Q) (hnil : Qs [] [])
    (hcons : ∀ a b as bs, Q a b → Qs as bs → Qs (a :: as) (b :: bs)) (bound : Nat) :
    Alike (sequence x bound) (sequence y bound) Qs := by
  induction bound with
  | zero => exact .bind h fun a b hab => .pure (hcons a b [] [] hab hnil)
  | succ bound ih =>
      rw [Parse.sequence, Parse.sequence]
      refine .bind h fun a b hab => .bindEq (accept .comma) fun again => ?_
      cases again with
      | true => exact .bind ih fun as bs habs => .pure (hcons a b as bs hab habs)
      | false => exact .pure (hcons a b [] [] hab hnil)

theorem listUntil (stop : Kind) (h : Alike x y Q) (hnil : Qs [] [])
    (hcons : ∀ a b as bs, Q a b → Qs as bs → Qs (a :: as) (b :: bs)) (bound : Nat) :
    Alike (listUntil stop x bound) (listUntil stop y bound) Qs := by
  refine .bindEq (sees stop 0) fun none => ?_
  cases none with
  | true => exact .pure hnil
  | false => exact sequence h hnil hcons bound

theorem manyUntil (stop : Kind) (h : Alike x y Q) (hnil : Qs [] [])
    (hcons : ∀ a b as bs, Q a b → Qs as bs → Qs (a :: as) (b :: bs)) (bound : Nat) :
    Alike (manyUntil stop x bound) (manyUntil stop y bound) Qs := by
  induction bound with
  | zero =>
      rw [Parse.manyUntil, Parse.manyUntil]
      refine .bindEq (sees stop 0) fun none => ?_
      cases none with
      | true => exact .pure hnil
      | false => exact .bind h fun a b hab => .pure (hcons a b [] [] hab hnil)
  | succ bound ih =>
      rw [Parse.manyUntil, Parse.manyUntil]
      refine .bindEq (sees stop 0) fun none => ?_
      cases none with
      | true => exact .pure hnil
      | false =>
          refine .bind h fun a b hab => ?_
          exact .bind ih fun as bs habs => .pure (hcons a b as bs hab habs)

end

end Parallel
end PocketC
