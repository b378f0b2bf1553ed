/-
  PocketC.Proofs.Print.Literals

  The printed texts of literals have the meaning that they were printed from.
-/

import PocketC.Proofs.Print.Lexemes

namespace PocketC

/-! ## Numbers -/

namespace Text

theorem isDigit_of_core {c : Char} (h : c.isDigit = true) : isDigit c = true := by
  simpa [isDigit, Char.isDigit, Char.le_def, UInt32.le_iff_toNat_le] using h

theorem isDigit_repr (n : Nat) : ∀ c ∈ n.repr.toList, isDigit c = true := by
  intro c hc
  rw [Nat.repr_eq_ofList_toDigits, String.toList_ofList] at hc
  exact isDigit_of_core (Nat.isDigit_of_mem_toDigits (by decide) (by decide) hc)

theorem repr_ne_nil (n : Nat) : n.repr.toList ≠ [] := by
  rw [Nat.repr_eq_ofList_toDigits, String.toList_ofList]
  exact Nat.toDigits_ne_nil

theorem digitsValue_repr (n : Nat) : digitsValue n.repr.toList = n := by
  rw [Nat.repr_eq_ofList_toDigits, String.toList_ofList]
  have hvalue := Nat.ofDigitChars_ten_toDigits (n := n)
  rwa [Nat.ofDigitChars_eq_foldl] at hvalue

/-- A row of digits has no sign. -/
theorem readWord?_digits {cs : List Char} (hne : cs ≠ []) (hcs : ∀ c ∈ cs, isDigit c = true) :
    readWord? cs = word? (digitsValue cs : Nat) := by
  have hdigits : readDigits? cs = some (digitsValue cs) := by
    rw [readDigits?, if_pos ⟨hne, List.all_eq_true.mpr hcs⟩]
  cases cs with
  | nil => exact absurd rfl hne
  | cons c cs =>
      have hminus : c ≠ '-' := by
        rintro rfl
        exact absurd (hcs _ List.mem_cons_self) (by decide)
      have hplus : c ≠ '+' := by
        rintro rfl
        exact absurd (hcs _ List.mem_cons_self) (by decide)
      rw [readWord?, hdigits]
      · rfl
      · rintro _ ⟨⟩
        exact hminus rfl
      · rintro _ ⟨⟩
        exact hplus rfl

/-! ## Quoted texts -/

/-- An escape stands for its character. -/
theorem decode_escapeChar (c : Char) (cs : List Char) :
    decode (escapeChar c ++ cs) = (decode cs).map (c :: ·) := by
  unfold escapeChar
  split
  -- the character that stands for itself, and then the pairs
  case h_8 c hline htab hreturn hzero hback hdouble hsingle =>
    rw [List.singleton_append, decode]
    · exact fun h _ => hback h
    · exact fun _ _ h _ => hback h
  all_goals
    rw [List.cons_append, List.singleton_append, decode]
    cases decode cs <;> rfl

theorem decode_escape (cs : List Char) : decode (escape cs).toList = some cs := by
  rw [escape, String.toList_ofList]
  induction cs with
  | nil => rfl
  | cons c cs ih => rw [List.flatMap_cons, decode_escapeChar, ih, Option.map_some]

theorem quotable_escapeChar {mark : Char} (hmark : mark = '"' ∨ mark = '\'') (c : Char)
    {cs : List Char} (h : Shape.Quotable mark cs) : Shape.Quotable mark (escapeChar c ++ cs) := by
  unfold escapeChar
  split
  case h_8 c hline htab hreturn hzero hback hdouble hsingle =>
    refine .plain hback hline ?_ h
    rcases hmark with rfl | rfl
    · exact hdouble
    · exact hsingle
  all_goals exact .escaped (by decide) h

/-- An escaped text can stand between quotes. -/
theorem quotable_escape {mark : Char} (hmark : mark = '"' ∨ mark = '\'') (cs : List Char) :
    Shape.Quotable mark (escape cs).toList := by
  rw [escape, String.toList_ofList]
  induction cs with
  | nil => exact .nil
  | cons c cs ih => exact quotable_escapeChar hmark c ih

end Text

/-! ## Meanings -/

namespace Grammar

theorem stringMeaning_escape (s : String) : stringMeaning (Text.escape s.toList) = some s := by
  rw [stringMeaning, Text.decode_escape, Option.map_some, String.ofList_toList]

theorem charMeaning_escape (c : Char) : charMeaning (Text.escape [c]) = some c := by
  rw [charMeaning, Text.decode_escape]

/-- What a row of digits means is what its decimal means. -/
theorem intMeaning_decimal {x : String} {n : Int} (hx : ∀ c ∈ x.toList, Text.isDigit c = true)
    (h : intMeaning x = some n) :
    intMeaning (Text.decimal n) = some n ∧ (Text.decimal n).toList ≠ [] ∧
      ∀ c ∈ (Text.decimal n).toList, Text.isDigit c = true := by
  by_cases hne : x.toList = []
  · rw [intMeaning, hne] at h
    cases h
  · rw [intMeaning, Text.readWord?_digits hne hx] at h
    generalize Text.digitsValue x.toList = m at h
    have hn : n = m := by
      unfold word? at h
      split at h
      · exact (Option.some.inj h).symm
      · cases h
    subst hn
    refine ⟨?_, Text.repr_ne_nil m, Text.isDigit_repr m⟩
    show Text.readWord? m.repr.toList = _
    rw [Text.readWord?_digits (Text.repr_ne_nil m) (Text.isDigit_repr m), Text.digitsValue_repr, h]

end Grammar

end PocketC
