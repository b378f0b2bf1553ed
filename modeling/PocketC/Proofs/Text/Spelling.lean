/-
  PocketC.Proofs.Text.Spelling

  How the texts of literals are written.  `Spells` says which raw texts stand for which
  characters between two quotes, apart from any way of decoding them, and
  `decode_eq_some_iff` that decoding finds the characters.  A raw text that stands for
  nothing has a backslash with no backslash, or an even number of them, right in front of
  it, and behind it a character that is no letter of an escape (`decode_eq_none_iff`).  The
  number that a row of digits is written for is the sum of its digits by their places.
-/

import Mathlib.Data.List.Induction
import Mathlib.Data.Nat.Digits.Defs
import PocketC.Proofs.Print.Literals

namespace PocketC.Text

open Shape (Quotable)

/-! ## Escapes -/

/-- The letters of escapes, and the characters that they stand for. -/
def escapes : List (Char × Char) :=
  [('n', '\n'), ('t', '\t'), ('r', '\r'), ('0', '\x00'), ('\\', '\\'), ('"', '"'), ('\'', '\'')]

theorem escapeMeaning_of_mem {e c : Char} (h : (e, c) ∈ escapes) : escapeMeaning e = some c := by
  have hall : ∀ p ∈ escapes, escapeMeaning p.1 = some p.2 := by decide
  exact hall _ h

theorem mem_of_escapeMeaning {e c : Char} (h : escapeMeaning e = some c) : (e, c) ∈ escapes := by
  unfold escapeMeaning at h
  split at h <;> cases h <;> decide

theorem escapeMeaning_eq_none {e : Char} :
    escapeMeaning e = none ↔ e ∉ escapes.map Prod.fst := by
  constructor
  · rintro hnone hmem
    obtain ⟨p, hp, rfl⟩ := List.mem_map.mp hmem
    rw [escapeMeaning_of_mem hp] at hnone
    cases hnone
  · intro hnot
    cases h : escapeMeaning e with
    | none => rfl
    | some c => exact absurd (List.mem_map_of_mem (mem_of_escapeMeaning h)) hnot

/-! ## Spellings -/

/-- The raw text stands for the characters between two quotes `mark`: a character for itself, if
    it is no backslash, no line feed and not the quote, or a backslash with the letter of an escape
    for what that escape means. -/
inductive Spells (mark : Char) : (cs raw : List Char) → Prop where
  | nil : Spells mark [] []
  | plain {c : Char} {cs raw : List Char} (hback : c ≠ '\\') (hline : c ≠ '\n') (hmark : c ≠ mark)
      (others : Spells mark cs raw) : Spells mark (c :: cs) (c :: raw)
  | escaped {e c : Char} {cs raw : List Char} (he : (e, c) ∈ escapes)
      (others : Spells mark cs raw) : Spells mark (c :: cs) ('\\' :: e :: raw)

variable {mark : Char} {cs raw : List Char}

theorem Spells.quotable (h : Spells mark cs raw) : Quotable mark raw := by
  induction h with
  | nil => exact .nil
  | plain hback hline hmark _ ih => exact .plain hback hline hmark ih
  | escaped he _ ih =>
      have hline : ∀ p ∈ escapes, p.1 ≠ '\n' := by decide
      exact .escaped (hline _ he) ih

theorem decode_plain {c : Char} (hc : c ≠ '\\') (raw : List Char) :
    decode (c :: raw) = (decode raw).map (c :: ·) := by
  rw [decode]
  · exact fun h _ => hc h
  · exact fun _ _ h _ => hc h

theorem decode_escaped (e : Char) (raw : List Char) :
    decode ('\\' :: e :: raw) = (escapeMeaning e).bind fun c => (decode raw).map (c :: ·) := by
  rw [decode]
  cases escapeMeaning e with
  | none => rfl
  | some c => cases decode raw <;> rfl

theorem Spells.decode (h : Spells mark cs raw) : decode raw = some cs := by
  induction h with
  | nil => rfl
  | plain hback _ _ _ ih => rw [decode_plain hback, ih, Option.map_some]
  | escaped he _ ih =>
      rw [decode_escaped, escapeMeaning_of_mem he, ih, Option.bind_some, Option.map_some]

/-- Decoding what stands between two quotes finds the characters that it was written for. -/
theorem decode_eq_some_iff (hraw : Quotable mark raw) :
    decode raw = some cs ↔ Spells mark cs raw := by
  refine ⟨fun h => ?_, Spells.decode⟩
  induction hraw generalizing cs with
  | nil =>
      cases h
      exact .nil
  | plain hback hline hmark _ ih =>
      rw [decode_plain hback] at h
      obtain ⟨ds, hds, rfl⟩ := Option.map_eq_some_iff.mp h
      exact .plain hback hline hmark (ih hds)
  | escaped _ _ ih =>
      rw [decode_escaped] at h
      obtain ⟨c, hc, h⟩ := Option.bind_eq_some_iff.mp h
      obtain ⟨ds, hds, rfl⟩ := Option.map_eq_some_iff.mp h
      exact .escaped (mem_of_escapeMeaning hc) (ih hds)

/-- Every text has a spelling in either kind of quotes. -/
theorem exists_spells (hmark : mark = '"' ∨ mark = '\'') (cs : List Char) :
    ∃ raw, Spells mark cs raw :=
  ⟨_, (decode_eq_some_iff (quotable_escape hmark cs)).mp (decode_escape cs)⟩

/-! ## Texts that stand for nothing -/

/-- How many backslashes there are right at the end of a text. -/
def backslashes (pre : List Char) : Nat := (pre.reverse.takeWhile (· == '\\')).length

/-- The raw text has a backslash that is not itself escaped, for there is an even number of
    backslashes right in front of it, and that no letter of an escape follows. -/
def BadEscape (raw : List Char) : Prop :=
  ∃ pre e post, raw = pre ++ '\\' :: e :: post ∧ backslashes pre % 2 = 0 ∧
    e ∉ escapes.map Prod.fst

theorem backslashes_cons (c : Char) (pre : List Char) :
    backslashes (c :: pre) =
      if backslashes pre = pre.length then pre.length + (if c = '\\' then 1 else 0)
      else backslashes pre := by
  unfold backslashes
  rw [List.reverse_cons, List.takeWhile_append, List.length_reverse]
  split
  · rw [List.length_append, List.length_reverse]
    by_cases hc : c = '\\' <;> simp [hc]
  · rfl

/-- Another character in front does not matter. -/
theorem backslashes_plain {c : Char} (hc : c ≠ '\\') (pre : List Char) :
    backslashes (c :: pre) = backslashes pre := by
  rw [backslashes_cons, if_neg hc]
  split <;> omega

/-- Nor does a whole escape, as far as they are counted in pairs. -/
theorem backslashes_escaped (e : Char) (pre : List Char) :
    backslashes ('\\' :: e :: pre) % 2 = backslashes pre % 2 := by
  rw [backslashes_cons, backslashes_cons, List.length_cons, if_pos rfl]
  by_cases hall : backslashes pre = pre.length
  · rw [if_pos hall, hall]
    by_cases he : e = '\\'
    · rw [if_pos he, if_pos rfl]
      omega
    · rw [if_neg he, if_neg (by omega), Nat.add_zero]
  · have hle : backslashes pre ≤ pre.length := by
      have hfront : backslashes pre ≤ pre.reverse.length := (List.takeWhile_prefix _).length_le
      rwa [List.length_reverse] at hfront
    rw [if_neg hall, if_neg (by omega)]

theorem badEscape_plain {c : Char} (hc : c ≠ '\\') : BadEscape (c :: raw) ↔ BadEscape raw := by
  constructor
  · rintro ⟨pre, e, post, hsplit, heven, he⟩
    cases pre with
    | nil => exact absurd (List.cons.inj hsplit).1 hc
    | cons d pre =>
        obtain ⟨rfl, rfl⟩ := List.cons.inj hsplit
        rw [backslashes_plain hc] at heven
        exact ⟨pre, e, post, rfl, heven, he⟩
  · rintro ⟨pre, e, post, rfl, heven, he⟩
    refine ⟨c :: pre, e, post, rfl, ?_, he⟩
    rw [backslashes_plain hc, heven]

theorem badEscape_escaped {e : Char} :
    BadEscape ('\\' :: e :: raw) ↔ e ∉ escapes.map Prod.fst ∨ BadEscape raw := by
  constructor
  · rintro ⟨pre, e', post, hsplit, heven, he⟩
    match pre, hsplit, heven with
    | [], hsplit, _ =>
        obtain ⟨-, htail⟩ := List.cons.inj hsplit
        obtain ⟨rfl, -⟩ := List.cons.inj htail
        exact .inl he
    | [d], hsplit, heven =>
        -- the backslash behind the first one is escaped
        obtain ⟨rfl, -⟩ := List.cons.inj hsplit
        exact absurd heven (by decide)
    | d :: d' :: pre, hsplit, heven =>
        obtain ⟨rfl, htail⟩ := List.cons.inj hsplit
        obtain ⟨rfl, rfl⟩ := List.cons.inj htail
        rw [backslashes_escaped] at heven
        exact .inr ⟨pre, e', post, rfl, heven, he⟩
  · rintro (he | ⟨pre, e', post, rfl, heven, he⟩)
    · exact ⟨[], e, raw, rfl, rfl, he⟩
    · refine ⟨'\\' :: e :: pre, e', post, rfl, ?_, he⟩
      rw [backslashes_escaped, heven]

/-- Decoding fails at the first such backslash, and only there. -/
theorem decode_eq_none_iff (hraw : Quotable mark raw) : decode raw = none ↔ BadEscape raw := by
  induction hraw with
  | nil =>
      refine ⟨nofun, ?_⟩
      rintro ⟨pre, e, post, hsplit, -⟩
      exact absurd hsplit.symm (List.append_ne_nil_of_right_ne_nil pre (List.cons_ne_nil _ _))
  | plain hback _ _ _ ih =>
      rw [decode_plain hback, Option.map_eq_none_iff, ih, badEscape_plain hback]
  | @escaped e cs _ _ ih =>
      rw [decode_escaped, badEscape_escaped, ← escapeMeaning_eq_none, ← ih]
      cases escapeMeaning e with
      | none => simp
      | some c => simp

/-! ## Numbers -/

/-- The number that a row of digits is written for: the sum of its digits, each times the power of
    ten of its place from the right. -/
def placeValue (cs : List Char) : Nat :=
  Nat.ofDigits 10 (cs.reverse.map fun c => c.toNat - '0'.toNat)

theorem digitsValue_eq_placeValue (cs : List Char) : digitsValue cs = placeValue cs := by
  induction cs using List.reverseRecOn with
  | nil => rfl
  | append_singleton cs c ih =>
      rw [placeValue, List.reverse_concat, List.map_cons, Nat.ofDigits_cons, ← placeValue, ← ih,
        digitsValue, List.foldl_append]
      exact Nat.add_comm _ _

end PocketC.Text
