/-
  PocketC.Proofs.Print.Rules

  Rows of tokens that are printed for something: they can be written, and whatever differs
  from them by the places alone is read as something that differs by the places alone.
  There is one rule for each way to put such a row together; what is in front is part of
  the language that the rest is a row of.
-/

import PocketC.Proofs.Grammar.Forms
import PocketC.Proofs.Print.Lexemes

namespace PocketC

/-- The tokens are printed for `a`: they are lexemes at no place in particular, and a row of the
    same tokens at any places is a row of `L` for something that is as `a` is.  What `sight` does
    not see makes no difference. -/
structure Prints {α β : Type} (L : Rows α) (sight : α → β) (a : α) (ts : List Token) : Prop where
  lexemes : ∀ t ∈ ts, t.IsLexeme
  unplaced : ts.map Token.unplaced = ts
  readBack : ∀ u : List Token, u.map Token.unplaced = ts → ∃ b, L b u ∧ sight b = sight a

namespace Prints

variable {α β γ δ : Type} {L : Rows α} {M : Rows γ} {sight : α → β} {sight' : γ → δ} {a : α}
  {c : γ} {k : Kind} {ts us : List Token}

theorem nil {b : α} (h : L b []) (hb : sight b = sight a) : Prints L sight a [] where
  lexemes := nofun
  unplaced := rfl
  readBack u hu := by
    cases List.map_eq_nil_iff.mp hu
    exact ⟨b, h, hb⟩

/-- The rows of one language for `a` are rows of another one for `c`. -/
theorem imp (h : Prints L sight a ts)
    (hM : ∀ b u, L b u → sight b = sight a → ∃ d, M d u ∧ sight' d = sight' c) :
    Prints M sight' c ts where
  lexemes := h.lexemes
  unplaced := h.unplaced
  readBack u hu := by
    obtain ⟨b, hb, hba⟩ := h.readBack u hu
    exact hM b u hb hba

theorem mono {L' : Rows α} (h : Prints L sight a ts) (hL : ∀ b u, L b u → L' b u) :
    Prints L' sight a ts :=
  h.imp fun b u hb hba => ⟨b, hL b u hb, hba⟩

/-- A token and a row behind it. -/
theorem cons {t : Token} (ht : t.IsLexeme) (hstart : t.unplaced = t)
    (h : ∀ t', t'.unplaced = t → Prints (fun b w => L b (t' :: w)) sight a ts) :
    Prints L sight a (t :: ts) where
  lexemes := List.forall_mem_cons.mpr ⟨ht, (h t hstart).lexemes⟩
  unplaced := by
    rw [List.map_cons, hstart, (h t hstart).unplaced]
  readBack u hu := by
    obtain ⟨t', u, rfl, ht', hrest⟩ := List.map_eq_cons_iff.mp hu
    exact (h t' ht').readBack u hrest

theorem mark (hk : k.spelling?.isSome = true)
    (h : ∀ t, t.kind = k → Prints (fun b w => L b (t :: w)) sight a ts) :
    Prints L sight a (Token.mark k :: ts) := by
  refine .cons (Token.WellFormed.isLexeme (.mark hk)) rfl fun t ht => h t ?_
  exact congrArg Token.kind ht

theorem name {s : String} (hs : (Token.name s).IsLexeme)
    (h : ∀ t, t.kind = .identifier → t.text = s → Prints (fun b w => L b (t :: w)) sight a ts) :
    Prints L sight a (Token.name s :: ts) := by
  refine .cons hs rfl fun t ht => h t (congrArg Token.kind ht) ?_
  exact congrArg Token.text ht

/-- One row behind the other. -/
theorem append (hx : Prints M sight' c us)
    (h : ∀ d v, M d v → sight' d = sight' c → Prints (fun b w => L b (v ++ w)) sight a ts) :
    Prints L sight a (us ++ ts) := by
  -- the printed tokens themselves are one row that is read back
  obtain ⟨d, hd, hdc⟩ := hx.readBack us hx.unplaced
  have hts := h d us hd hdc
  refine ⟨?_, ?_, fun u hu => ?_⟩
  · exact List.forall_mem_append.mpr ⟨hx.lexemes, hts.lexemes⟩
  · rw [List.map_append, hx.unplaced, hts.unplaced]
  · obtain ⟨v, w, rfl, hv, hw⟩ := List.map_eq_append_iff.mp hu
    obtain ⟨d, hd, hdc⟩ := hx.readBack v hv
    exact (h d v hd hdc).readBack w hw

/-- A row in parentheses and a row behind it. -/
theorem inParens (hx : Prints M sight' c us)
    (h : ∀ opening closing d v, opening.kind = .openParen → closing.kind = .closeParen → M d v →
      sight' d = sight' c →
      Prints (fun b w => L b (opening :: v ++ closing :: w)) sight a ts) :
    Prints L sight a (Token.inParens us ++ ts) := by
  rw [Token.inParens, List.cons_append, List.cons_append, List.append_assoc]
  refine .mark rfl fun opening ho => hx.append fun d v hd hdc => .mark rfl fun closing hc => ?_
  exact h opening closing d v ho hc hd hdc

/-- The token in front is known. -/
theorem head {t : Token} (h : Prints L sight a (t :: ts)) :
    Prints (fun b w => L b w ∧ ∃ u v, w = u :: v ∧ u.kind = t.kind) sight a (t :: ts) where
  lexemes := h.lexemes
  unplaced := h.unplaced
  readBack u hu := by
    obtain ⟨b, hb, hba⟩ := h.readBack u hu
    obtain ⟨t', u, rfl, rfl, -⟩ := List.map_eq_cons_iff.mp hu
    exact ⟨b, ⟨hb, t', u, rfl, rfl⟩, hba⟩

/-- Rows with commas between them. -/
theorem separated {as : List α} {row : α → List Token} (hne : as ≠ [])
    (h : ∀ a ∈ as, Prints L sight a (row a)) :
    Prints (.Separated L) (List.map sight) as (Token.separated (as.map row)) := by
  induction as with
  | nil => exact absurd rfl hne
  | cons a as ih =>
      obtain ⟨ha, has⟩ := List.forall_mem_cons.mp h
      cases as with
      | nil => exact ha.imp fun b u hb hba => ⟨[b], .one hb, by simp [hba]⟩
      | cons a' as =>
          refine ha.append fun b v hb hba => .mark rfl fun comma hc => ?_
          refine (ih (List.cons_ne_nil a' as) has).imp fun bs u hbs hbas => ?_
          exact ⟨b :: bs, .more hb hc hbs, by rw [List.map_cons, hba, hbas]; rfl⟩

end Prints
end PocketC
