/-
  PocketC.Proofs.Token.Shapes

  Which texts fit a shape, and which of the shapes that a text begins with wins.

  `Shape.Fits` says what the texts of a shape look like, apart from any way of finding
  them.  A shape takes the longest text in front that fits it (`fits_of_length?`,
  `length?_of_fits`).  The table is ordered so that of two shapes that both take
  something the earlier one takes more, or as much as a name does that it wins over
  (`firstIn_wins`): the order is checked entry by entry through `Shape.Before`, a test
  that looks at the entries alone, and the test is shown to be right for every text.
-/

import PocketC.Token.Shape

namespace PocketC

open Text (isDigit)

/-! ## Characters -/

/-- No digit begins a name. -/
theorem isNameStart_eq_false_of_isDigit {c : Char} (h : isDigit c = true) :
    isNameStart c = false := by
  simp only [isDigit, Bool.and_eq_true, decide_eq_true_eq, Char.le_def, UInt32.le_iff_toNat_le]
    at h
  have hlow : ¬ ('a' ≤ c) := by
    simp only [Char.le_def, UInt32.le_iff_toNat_le]
    have h9 : ('9' : Char).val.toNat < ('a' : Char).val.toNat := by decide
    omega
  have hhigh : ¬ ('A' ≤ c) := by
    simp only [Char.le_def, UInt32.le_iff_toNat_le]
    have h9 : ('9' : Char).val.toNat < ('A' : Char).val.toNat := by decide
    omega
  have hline : c ≠ '_' := by
    rintro rfl
    exact absurd h.2 (by decide)
  simp [isNameStart, hlow, hhigh, hline]

/-- Keywords and the name of the built-in operation: texts that would be names otherwise. -/
def Kind.isReserved : Kind → Bool
  | .kwIf | .kwElse | .kwWhile | .kwFor | .kwReturn | .kwBreak | .kwContinue | .intrinsic => true
  | _ => false

namespace Shape

/-! ## Texts that fit -/

/-- A text that may stand between two quotes: it is on one line, a backslash protects the
    character behind it, and the quote itself is protected wherever it stands. -/
inductive Quotable (mark : Char) : List Char → Prop where
  | nil : Quotable mark []
  | plain {c : Char} {cs : List Char} (hback : c ≠ '\\') (hline : c ≠ '\n') (hmark : c ≠ mark)
      (others : Quotable mark cs) : Quotable mark (c :: cs)
  | escaped {c : Char} {cs : List Char} (hline : c ≠ '\n') (others : Quotable mark cs) :
      Quotable mark ('\\' :: c :: cs)

/-- The text `x` fits the shape where `rest` is behind it. -/
def Fits : (s : Shape) → (x rest : List Char) → Prop
  | .fixed text, x, _ => x = text
  | .word text, x, rest => x = text ∧ rest.head?.any isNameChar = false
  | .digits, x, _ => x ≠ [] ∧ ∀ c ∈ x, isDigit c = true
  | .name, x, _ => ∃ c cs, x = c :: cs ∧ isNameStart c = true ∧ ∀ d ∈ cs, isNameChar d = true
  | .quoted mark, x, _ => ∃ raw, x = mark :: raw ++ [mark] ∧ Quotable mark raw

/-- A quote that can be told from what stands between the quotes. -/
def hasPlainMark : Shape → Bool
  | .quoted mark => mark != '\\' && mark != '\n'
  | _ => true

/-! ## A shape takes the longest text that fits it -/

theorem closing_of_quotable {mark : Char} {raw : List Char} (hraw : Quotable mark raw)
    (hback : mark ≠ '\\') (hline : mark ≠ '\n') (rest : List Char) :
    closing mark (raw ++ mark :: rest) = some (raw.length + 1) := by
  induction hraw with
  | nil => simp [closing, hback, hline]
  | plain hb hl hm _ ih => simp [closing, hb, hl, hm, ih]
  | escaped hl _ ih => simp [closing, hl, ih]

theorem quotable_of_closing {mark : Char} {cs : List Char} {n : Nat}
    (h : closing mark cs = some n) :
    ∃ raw rest, cs = raw ++ mark :: rest ∧ Quotable mark raw ∧ n = raw.length + 1 := by
  fun_induction closing mark cs generalizing n with
  | case1 | case2 | case3 => cases h
  | case4 c cs hline ih =>
    obtain ⟨m, hm, rfl⟩ := Option.map_eq_some_iff.mp h
    obtain ⟨raw, rest, rfl, hraw, rfl⟩ := ih hm
    exact ⟨'\\' :: c :: raw, rest, rfl, .escaped hline hraw, rfl⟩
  | case5 => cases h
  | case6 cs _ _ =>
    cases h
    exact ⟨[], cs, rfl, .nil, rfl⟩
  | case7 c cs hnil hcons hline hmark ih =>
    obtain ⟨m, hm, rfl⟩ := Option.map_eq_some_iff.mp h
    obtain ⟨raw, rest, rfl, hraw, rfl⟩ := ih hm
    have hc : c ≠ '\\' := by
      rintro rfl
      cases raw with
      | nil => exact hcons mark rest rfl rfl
      | cons d raw => exact hcons d (raw ++ mark :: rest) rfl rfl
    exact ⟨c :: raw, rest, rfl, .plain hc hline hmark hraw, rfl⟩

/-- The characters in front that satisfy `p` are taken from the front and satisfy it. -/
theorem take_takeWhile (p : Char → Bool) (cs : List Char) :
    (cs.takeWhile p).length ≤ cs.length ∧
      cs.take (cs.takeWhile p).length = cs.takeWhile p ∧ ∀ c ∈ cs.takeWhile p, p c = true := by
  have hfront : cs.takeWhile p <+: cs := List.takeWhile_prefix p
  refine ⟨hfront.length_le, (List.prefix_iff_eq_take.mp hfront).symm, ?_⟩
  exact List.all_eq_true.mp List.all_takeWhile

/-- What a shape takes is there, and it fits. -/
theorem fits_of_length? {s : Shape} {cs : List Char} {n : Nat}
    (h : s.length? cs = some n) : n ≤ cs.length ∧ s.Fits (cs.take n) (cs.drop n) := by
  cases s with
  | fixed text =>
    simp only [length?] at h
    split at h
    · rename_i hfront
      cases h
      obtain ⟨rest, rfl⟩ := List.isPrefixOf_iff_prefix.mp hfront
      simp [Fits]
    · cases h
  | word text =>
    simp only [length?] at h
    split at h
    · rename_i hfront
      cases h
      rw [Bool.and_eq_true, Bool.not_eq_true'] at hfront
      obtain ⟨rest, rfl⟩ := List.isPrefixOf_iff_prefix.mp hfront.1
      have hrest : rest.head?.any isNameChar = false := by simpa using hfront.2
      simp [Fits, hrest]
    · cases h
  | digits =>
    simp only [length?] at h
    split at h
    · cases h
    · rename_i hne
      cases h
      obtain ⟨hle, htake, hall⟩ := take_takeWhile isDigit cs
      refine ⟨hle, ?_⟩
      rw [htake]
      exact ⟨fun hnil => hne (by rw [hnil]; rfl), hall⟩
  | name =>
    simp only [length?] at h
    split at h
    · rename_i hstart
      cases h
      obtain ⟨hle, htake, -⟩ := take_takeWhile isNameChar cs
      refine ⟨hle, ?_⟩
      rw [htake]
      cases cs with
      | nil => cases hstart
      | cons c cs =>
        have hc : isNameStart c = true := by simpa using hstart
        have hchar : isNameChar c = true := by simp [isNameChar, hc]
        exact ⟨c, cs.takeWhile isNameChar, by simp [hchar], hc, (take_takeWhile isNameChar cs).2.2⟩
    · cases h
  | quoted mark =>
    cases cs with
    | nil => cases h
    | cons c cs =>
      simp only [length?] at h
      split at h
      · rename_i hc
        obtain ⟨m, hm, rfl⟩ := Option.map_eq_some_iff.mp h
        obtain ⟨raw, rest, rfl, hraw, rfl⟩ := quotable_of_closing hm
        subst hc
        refine ⟨by simp, raw, ?_, hraw⟩
        have htake : raw.take (raw.length + 1) = raw := List.take_of_length_le (by omega)
        simp [List.take_append, htake]
      · cases h

/-- A shape takes at least as much as any text in front that fits it. -/
theorem length?_of_fits {s : Shape} {x rest : List Char} (hs : s.hasPlainMark = true)
    (h : s.Fits x rest) : ∃ n, s.length? (x ++ rest) = some n ∧ x.length ≤ n := by
  cases s with
  | fixed text =>
    cases h
    exact ⟨x.length, by simp [length?], Nat.le_refl _⟩
  | word text =>
    obtain ⟨rfl, hrest⟩ := h
    exact ⟨x.length, by simp [length?, hrest], Nat.le_refl _⟩
  | digits =>
    obtain ⟨hne, hdigits⟩ := h
    have hwhile : (x ++ rest).takeWhile isDigit = x ++ rest.takeWhile isDigit :=
      List.takeWhile_append_of_pos hdigits
    have hpos : 0 < x.length := List.length_pos_iff.mpr hne
    refine ⟨((x ++ rest).takeWhile isDigit).length, ?_, ?_⟩
    · have hlen : ((x ++ rest).takeWhile isDigit).length ≠ 0 := by
        rw [hwhile, List.length_append]
        omega
      simp only [length?, if_neg hlen]
    · rw [hwhile, List.length_append]
      omega
  | name =>
    obtain ⟨c, cs, rfl, hc, hcs⟩ := h
    have hall : ∀ d ∈ c :: cs, isNameChar d = true := by
      intro d hd
      rcases List.mem_cons.mp hd with rfl | hd
      · simp [isNameChar, hc]
      · exact hcs d hd
    have hwhile : ((c :: cs) ++ rest).takeWhile isNameChar =
        (c :: cs) ++ rest.takeWhile isNameChar := List.takeWhile_append_of_pos hall
    refine ⟨(((c :: cs) ++ rest).takeWhile isNameChar).length, by simp [length?, hc], ?_⟩
    rw [hwhile, List.length_append]
    omega
  | quoted mark =>
    obtain ⟨raw, rfl, hraw⟩ := h
    have hmark : mark ≠ '\\' ∧ mark ≠ '\n' := by simpa [hasPlainMark] using hs
    have hclosing := closing_of_quotable hraw hmark.1 hmark.2 rest
    exact ⟨raw.length + 2, by simp [length?, hclosing], by simp⟩

/-! ## Which shape wins -/

/-- The first character of all texts of a shape, if they have no other. -/
def lead? : Shape → Option Char
  | .fixed text | .word text => text.head?
  | .quoted mark => some mark
  | .digits | .name => none

/-- Whether a text of the shape may begin with `c`. -/
def mayBegin (s : Shape) (c : Char) : Bool :=
  match s with
  | .fixed text | .word text => text.head? == some c
  | .digits => isDigit c
  | .name => isNameStart c
  | .quoted mark => c == mark

/-- No text begins with both shapes. -/
def apart (s t : Shape) : Bool :=
  match s, t with
  | .digits, .name | .name, .digits => true
  | s, t => s.lead?.any (!t.mayBegin ·) || t.lead?.any (!s.mayBegin ·)

theorem mayBegin_of_length? {s : Shape} {cs : List Char} {n : Nat} (hs : s.hasText = true)
    (h : s.length? cs = some n) : ∃ c rest, cs = c :: rest ∧ s.mayBegin c = true := by
  cases cs with
  | nil => cases s <;> simp_all [length?, hasText]
  | cons c rest =>
    refine ⟨c, rest, rfl, ?_⟩
    cases s with
    | fixed text | word text =>
      cases text with
      | nil => simp [hasText] at hs
      | cons d text =>
        by_cases hd : d = c
        · simp [mayBegin, hd]
        · simp [length?, hd] at h
    | digits => by_cases hc : isDigit c <;> simp_all [length?, mayBegin]
    | name => by_cases hc : isNameStart c <;> simp_all [length?, mayBegin]
    | quoted mark => by_cases hc : c = mark <;> simp_all [length?, mayBegin]

/-- A shape with one leading character begins with no other. -/
theorem eq_of_mayBegin {s : Shape} {c d : Char} (hlead : s.lead? = some d)
    (h : s.mayBegin c = true) : c = d := by
  cases s with
  | fixed text | word text =>
    simp only [lead?] at hlead
    simp only [mayBegin, hlead] at h
    simpa using (beq_iff_eq.mp h).symm
  | quoted mark =>
    cases hlead
    simpa [mayBegin] using h
  | digits | name => cases hlead

/-- Where a shape has a first character that begins no text of another, the two begin with
    different ones. -/
theorem mayBegin_of_lead {s t : Shape} {c : Char} (h : s.lead?.any (!t.mayBegin ·) = true)
    (hs : s.mayBegin c = true) : t.mayBegin c = false := by
  cases hlead : s.lead? with
  | none =>
    rw [hlead] at h
    cases h
  | some d =>
    rw [hlead] at h
    rw [eq_of_mayBegin hlead hs]
    simpa using h

theorem apart_sound {s t : Shape} {c : Char} (h : s.apart t = true) (hs : s.mayBegin c = true) :
    t.mayBegin c = false := by
  unfold apart at h
  split at h
  · exact isNameStart_eq_false_of_isDigit hs
  · cases hd : isDigit c with
    | false => exact hd
    | true =>
      have hstart : isNameStart c = true := hs
      rw [isNameStart_eq_false_of_isDigit hd] at hstart
      cases hstart
  · rw [Bool.or_eq_true] at h
    rcases h with h | h
    · exact mayBegin_of_lead h hs
    · cases ht : t.mayBegin c with
      | false => rfl
      | true =>
        rw [mayBegin_of_lead h ht] at hs
        cases hs

/-- Whether an entry of the table may stand before another: it takes more wherever both take
    something, or as much, and then the other one is that of names and it is reserved. -/
def Before (e f : Kind × Shape) : Bool :=
  e.2.apart f.2 ||
  match e.2, f.2 with
  | .fixed x, .fixed y => !x.isPrefixOf y
  | .word x, .word y => x != y && x.all isNameChar && y.all isNameChar
  | .word x, .name => e.1.isReserved && f.1 == .identifier && x.all isNameChar
  | _, _ => false

/-- The table is in order. -/
theorem table_pairwise : table.Pairwise fun e f => Before e f = true := by decide +kernel

theorem plainMark_table : ∀ e ∈ table, e.2.hasPlainMark = true := by decide

/-- A word of characters of names is all that a name takes where the word ends. -/
theorem takeWhile_word {x rest : List Char} (hx : x.all isNameChar = true)
    (hrest : rest.head?.any isNameChar = false) : (x ++ rest).takeWhile isNameChar = x := by
  have hnone : rest.takeWhile isNameChar = [] := by
    cases rest with
    | nil => rfl
    | cons c rest =>
      have hc : isNameChar c = false := by simpa using hrest
      simp [hc]
  rw [List.takeWhile_append_of_pos (List.all_eq_true.mp hx), hnone, List.append_nil]

theorem word_of_length? {x cs : List Char} {n : Nat} (h : (word x).length? cs = some n) :
    n = x.length ∧ ∃ rest, cs = x ++ rest ∧ rest.head?.any isNameChar = false := by
  obtain ⟨hn, hfits⟩ := fits_of_length? h
  have hx : cs.take n = x := hfits.1
  refine ⟨?_, cs.drop n, ?_, hfits.2⟩
  · rw [← hx, List.length_take]
    omega
  · rw [← hx, List.take_append_drop]

theorem fixed_of_length? {x cs : List Char} {n : Nat} (h : (fixed x).length? cs = some n) :
    n = x.length ∧ ∃ rest, cs = x ++ rest := by
  obtain ⟨hn, hfits⟩ := fits_of_length? h
  have hx : cs.take n = x := hfits
  refine ⟨?_, cs.drop n, ?_⟩
  · rw [← hx, List.length_take]
    omega
  · rw [← hx, List.take_append_drop]

/-- The test tells the truth about every text. -/
theorem before_sound {e f : Kind × Shape} (h : Before e f = true) (he : e.2.hasText = true)
    (hf : f.2.hasText = true) {cs : List Char} {n m : Nat} (hn : e.2.length? cs = some n)
    (hm : f.2.length? cs = some m) :
    m < n ∨ (m = n ∧ f.1 = .identifier ∧ e.1.isReserved = true) := by
  obtain ⟨c, rest, rfl, hce⟩ := mayBegin_of_length? he hn
  obtain ⟨c', rest', hcs, hcf⟩ := mayBegin_of_length? hf hm
  cases hcs
  rw [Before, Bool.or_eq_true] at h
  rcases h with h | h
  · -- the two shapes begin with different characters
    rw [apart_sound h hce] at hcf
    cases hcf
  · split at h
    · rename_i x y hx hy
      rw [hx] at hn
      rw [hy] at hm
      obtain ⟨rfl, rest₁, h₁⟩ := fixed_of_length? hn
      obtain ⟨rfl, rest₂, h₂⟩ := fixed_of_length? hm
      rcases Nat.lt_or_ge y.length x.length with hlt | hle
      · exact .inl hlt
      · -- of two texts in front of one text the shorter is in front of the longer
        have hfront : x <+: y :=
          List.prefix_of_prefix_length_le ⟨rest₁, h₁.symm⟩ ⟨rest₂, h₂.symm⟩ hle
        rw [List.isPrefixOf_iff_prefix.mpr hfront] at h
        cases h
    · rename_i x y hx hy
      rw [hx] at hn
      rw [hy] at hm
      simp only [Bool.and_eq_true, bne_iff_ne] at h
      obtain ⟨_, rest₁, h₁, hend₁⟩ := word_of_length? hn
      obtain ⟨_, rest₂, h₂, hend₂⟩ := word_of_length? hm
      have hwhile₁ := takeWhile_word h.1.2 hend₁
      have hwhile₂ := takeWhile_word h.2 hend₂
      rw [← h₁] at hwhile₁
      rw [← h₂, hwhile₁] at hwhile₂
      exact absurd hwhile₂ h.1.1
    · rename_i x hx hy
      rw [hx] at hn
      rw [hy] at hm
      simp only [Bool.and_eq_true, beq_iff_eq] at h
      obtain ⟨hlen, rest₁, h₁, hend₁⟩ := word_of_length? hn
      have hwhile := takeWhile_word h.2 hend₁
      simp only [length?, h₁, hwhile] at hm
      split at hm
      · cases hm
        exact .inr ⟨hlen.symm, h.1.2, h.1.1⟩
      · cases hm
    · cases h

/-- Of the shapes of an ordered table that take something, the first one wins. -/
theorem firstIn_wins {cs : List Char} {shapes : List (Kind × Shape)} {k : Kind} {n : Nat}
    (horder : shapes.Pairwise fun e f => Before e f = true)
    (htext : ∀ e ∈ shapes, e.2.hasText = true) (h : firstIn cs shapes = some (k, n)) :
    ∃ s, (k, s) ∈ shapes ∧ s.length? cs = some n ∧
      ∀ e ∈ shapes, ∀ m, e.2.length? cs = some m →
        m ≤ n ∧ (m = n → e.1 = k ∨ (e.1 = .identifier ∧ k.isReserved = true)) := by
  induction shapes with
  | nil => cases h
  | cons first others ih =>
    obtain ⟨hfirst, hothers⟩ := List.pairwise_cons.mp horder
    obtain ⟨htext₁, htexts⟩ := List.forall_mem_cons.mp htext
    obtain ⟨l, s⟩ := first
    cases hs : s.length? cs with
    | none =>
      have hrest : firstIn cs others = some (k, n) := by
        simpa [firstIn, List.findSome?_cons, hs] using h
      obtain ⟨t, hmem, ht, hbest⟩ := ih hothers htexts hrest
      refine ⟨t, List.mem_cons_of_mem _ hmem, ht, ?_⟩
      intro e he m hm
      rcases List.mem_cons.mp he with rfl | he
      · rw [hs] at hm
        cases hm
      · exact hbest e he m hm
    | some m =>
      have hkn : (l, m) = (k, n) := by
        simpa [firstIn, List.findSome?_cons, hs] using h
      cases hkn
      refine ⟨s, List.mem_cons_self .., hs, ?_⟩
      intro e he m' hm'
      rcases List.mem_cons.mp he with rfl | he
      · rw [hs] at hm'
        cases hm'
        exact ⟨Nat.le_refl _, fun _ => .inl rfl⟩
      · rcases before_sound (hfirst e he) htext₁ (htexts e he) hs hm' with hlt | ⟨heq, htie⟩
        · exact ⟨Nat.le_of_lt hlt, fun heq => absurd heq (Nat.ne_of_lt hlt)⟩
        · exact ⟨Nat.le_of_eq heq, fun _ => .inr htie⟩

theorem firstIn_eq_none {cs : List Char} {shapes : List (Kind × Shape)}
    (h : firstIn cs shapes = none) : ∀ e ∈ shapes, e.2.length? cs = none := by
  intro e he
  have hnone := List.findSome?_eq_none_iff.mp h e he
  exact Option.map_eq_none_iff.mp hnone

end Shape
end PocketC
