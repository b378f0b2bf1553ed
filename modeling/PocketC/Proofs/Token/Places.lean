/-
  PocketC.Proofs.Token.Places

  Where tokens stand.  The place of a token is told by the text in front of it alone: its
  line counts the line feeds there, its column the characters behind the last of them.
  What carries this through a scan is that `Splits` hands on the place that `Location.after`
  gives for the text passed over, blanks and tokens alike.
-/

import Mathlib.Data.List.Induction
import PocketC.Proofs.Print.Lexemes

namespace PocketC

/-! ## Places behind a text -/

namespace Location

/-- The place behind a text that begins where texts begin: its line is one more than the text has
    line feeds, its column one more than there are characters behind the last of them. -/
def behind (p : List Char) : Location :=
  ⟨1 + p.count '\n', 1 + (p.reverse.takeWhile (· != '\n')).length⟩

theorem behind_concat (p : List Char) (c : Char) : behind (p ++ [c]) = (behind p).advance c := by
  by_cases hc : c = '\n'
  · subst hc
    simp [behind, advance, Nat.add_assoc]
  · have hcount : (p ++ [c]).count '\n' = p.count '\n' := by
      simp [List.count_append, hc]
    rw [advance, if_neg hc, behind, hcount]
    simp [behind, hc, Nat.add_assoc]

/-- Passing over a text character by character leads to the place behind it. -/
theorem after_start (p : List Char) : start.after p = behind p := by
  induction p using List.reverseRecOn with
  | nil => rfl
  | append_singleton p c ih => rw [after_append, ih, after_cons, after_nil, behind_concat]

/-- A carriage return, a tab and a letter of two bytes are one column each. -/
example : behind "ab\r\n\té".toList = ⟨2, 3⟩ := rfl

/-! ## The order of places -/

/-- The first place comes before the second in a text. -/
def Before (l l' : Location) : Prop :=
  l.line < l'.line ∨ l.line = l'.line ∧ l.column < l'.column

theorem Before.trans {l l' l'' : Location} (h : l.Before l') (h' : l'.Before l'') :
    l.Before l'' := by
  unfold Before at *
  omega

theorem before_advance (l : Location) (c : Char) : l.Before (l.advance c) := by
  unfold Before advance
  split
  · exact .inl (Nat.lt_succ_self l.line)
  · exact .inr ⟨rfl, Nat.lt_succ_self l.column⟩

/-- Behind a text that has characters is further on. -/
theorem before_after {x : List Char} (hx : x ≠ []) (l : Location) : l.Before (l.after x) := by
  induction x generalizing l with
  | nil => exact absurd rfl hx
  | cons c x ih =>
      have hfirst : l.Before (l.advance c) := before_advance l c
      cases x with
      | nil => exact hfirst
      | cons d x => exact hfirst.trans (ih (List.cons_ne_nil d x) (l.advance c))

end Location

/-! ## Places of tokens -/

theorem Munched.ne_nil {k : Kind} {x rest : List Char} (h : Munched k x rest) : x ≠ [] := by
  obtain ⟨c, cs, rfl, -⟩ := h.head_not_blank
  exact List.cons_ne_nil c cs

namespace Splits

variable {l l' : Location} {cs rest : List Char} {ts : List Token}

/-- What is left begins at the place behind what is in front of it. -/
theorem front (h : Splits l cs ts l' rest) : ∃ p, cs = p ++ rest ∧ l' = l.after p := by
  induction h with
  | @blanks l w rest hw => exact ⟨w, rfl, rfl⟩
  | @token l l' w x cs rest k ts hw hx others ih =>
      obtain ⟨p, rfl, rfl⟩ := ih
      refine ⟨w ++ x ++ p, by simp, ?_⟩
      rw [Location.after_append, Location.after_append]

/-- Each token is munched at its place, and the text in front of that splits into the tokens in
    front of it. -/
theorem at_token {vs ws : List Token} {t : Token} (h : Splits l cs (vs ++ t :: ws) l' rest) :
    ∃ r, Splits l cs vs t.location (t.source ++ r) ∧ Munched t.kind t.source r := by
  induction vs generalizing l cs with
  | nil =>
      cases h with
      | @token _ _ w x cs _ k _ hw hx others =>
          obtain ⟨s, hs, hfits, -⟩ := hx.shape
          have hsource : (⟨k, Token.keep k x, l.after w⟩ : Token).source = x :=
            Token.source_of_fits hs hfits _
          refine ⟨cs, ?_, ?_⟩
          · rw [hsource, List.append_assoc]
            exact .blanks hw
          · rw [hsource]
            exact hx
  | cons v vs ih =>
      cases h with
      | token hw hx others =>
          obtain ⟨r, hsplits, hmunched⟩ := ih others
          exact ⟨r, .token hw hx hsplits, hmunched⟩

/-- Every token, and the place where the split ends, is where the split begins or further on. -/
theorem reaches (h : Splits l cs ts l' rest) :
    ∀ m ∈ ts.map Token.location ++ [l'], ∃ q, m = l.after q := by
  induction h with
  | @blanks l w rest hw =>
      intro m hm
      exact ⟨w, by simpa using hm⟩
  | @token l l' w x cs rest k ts hw hx others ih =>
      refine List.forall_mem_cons.mpr ⟨⟨w, rfl⟩, fun m hm => ?_⟩
      obtain ⟨q, rfl⟩ := ih m hm
      exact ⟨w ++ x ++ q, by rw [Location.after_append, Location.after_append]⟩

/-- Each token is further on than the one in front of it, and the end is further on than all. -/
theorem pairwise_before (h : Splits l cs ts l' rest) :
    (ts.map Token.location ++ [l']).Pairwise Location.Before := by
  induction h with
  | blanks hw => exact List.pairwise_singleton _ _
  | @token l l' w x cs rest k ts hw hx others ih =>
      refine List.pairwise_cons.mpr ⟨fun m hm => ?_, ih⟩
      obtain ⟨q, rfl⟩ := others.reaches m hm
      have hne : x ++ q ≠ [] := List.append_ne_nil_of_left_ne_nil hx.ne_nil q
      rw [← Location.after_append]
      exact Location.before_after hne (l.after w)

end Splits

/-! ## Places in a source text -/

namespace Token

/-- Places are exact.  The token that stands for the beginning is at line 1 and column 1, the one
    that stands for the end is at the place behind the whole text, and in between every token is at
    the place behind the text in front of its first character, in which the tokens in front of it
    are found; behind the first token the places are strictly increasing.  The character that no
    token begins with is at the place behind the text in front of it, too. -/
theorem scan_places (source : String) :
    match scan source with
    | .ok ts => ∃ us, ts = first :: us ++ [endAt (.behind source.toList)] ∧
        first.location = ⟨1, 1⟩ ∧
        (∀ vs t ws, us = vs ++ t :: ws → ∃ p rest, source.toList = p ++ t.source ++ rest ∧
          Munched t.kind t.source rest ∧
          Splits .start source.toList vs t.location (t.source ++ rest) ∧
          t.location = .behind p) ∧
        (us ++ [endAt (.behind source.toList)]).Pairwise fun t u => t.location.Before u.location
    | .error e => ∃ us p rest, source.toList = p ++ e.found :: rest ∧
        Splits .start source.toList us e.location (e.found :: rest) ∧
        e.location = .behind p := by
  have hmunch := scan_maximal_munch source
  cases hscan : scan source with
  | ok ts =>
      rw [hscan] at hmunch
      obtain ⟨us, l, rfl, hsplits⟩ := hmunch
      -- nothing is left, so the split ends behind the whole text
      obtain ⟨p, hp, rfl⟩ := hsplits.front
      rw [List.append_nil] at hp
      rw [← hp, Location.after_start] at hsplits
      refine ⟨us, by rw [← hp, Location.after_start], rfl, ?_, ?_⟩
      · rintro vs t ws rfl
        obtain ⟨rest, hfront, hmunched⟩ := hsplits.at_token
        obtain ⟨p, hp, hl⟩ := hfront.front
        refine ⟨p, rest, by rw [hp, List.append_assoc], hmunched, hfront, ?_⟩
        rw [hl, Location.after_start]
      · have hplaces : ((us ++ [endAt (.behind source.toList)]).map Token.location).Pairwise
            Location.Before := by
          rw [List.map_append]
          exact hsplits.pairwise_before
        exact List.pairwise_map.mp hplaces
  | error e =>
      rw [hscan] at hmunch
      obtain ⟨us, rest, hsplits, -⟩ := hmunch
      obtain ⟨p, hp, hl⟩ := hsplits.front
      exact ⟨us, p, rest, hp, hsplits, by rw [hl, Location.after_start]⟩

end Token

end PocketC
