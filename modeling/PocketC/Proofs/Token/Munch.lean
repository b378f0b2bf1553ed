/-
  PocketC.Proofs.Token.Munch

  Scanning loses nothing and always takes the longest token.

  `Munched` says that a text is the longest one in front of what is left that fits a
  shape, and which kind wins; `Splits` that a text is blanks and munched texts in turn,
  and which tokens they are.  The main statement, `scan_maximal_munch`, says of every
  source text that its tokens are those of such a split, or that it splits up to the
  place of the error, where no shape fits.  `scanFrom_of_splits` is the way back: a
  text has no other split, so it may be given to find the tokens.
-/

import PocketC.Proofs.Token.Shapes
import PocketC.Token.Scan

namespace PocketC

/-! ## The longest text in front -/

/-- Of all texts in front of `x ++ rest` that fit a shape, `x` is the longest, and of the kinds
    with a shape that it fits, `k` wins. -/
structure Munched (k : Kind) (x rest : List Char) : Prop where
  shape : ∃ s, (k, s) ∈ Shape.table ∧ s.Fits x rest ∧ s.length? (x ++ rest) = some x.length
  longest : ∀ e ∈ Shape.table, ∀ y r, x ++ rest = y ++ r → e.2.Fits y r → y.length ≤ x.length
  wins : ∀ e ∈ Shape.table, e.2.Fits x rest →
    e.1 = k ∨ (e.1 = .identifier ∧ k.isReserved = true)

/-- Blank characters are the control characters and the space, or beyond ASCII. -/
theorem Text.toNat_of_isBlank {c : Char} (h : isBlank c = true) : c.toNat ≤ 32 ∨ 133 ≤ c.toNat := by
  simp only [isBlank, blankRanges, List.any_cons, List.any_nil, Bool.or_false, Bool.or_eq_true,
    Bool.and_eq_true, decide_eq_true_eq] at h
  omega

/-- A digit is no blank, and neither is a character that begins a name. -/
theorem isBlank_eq_false_of_char {c : Char}
    (h : Text.isDigit c = true ∨ isNameStart c = true) : Text.isBlank c = false := by
  cases hblank : Text.isBlank c with
  | false => rfl
  | true =>
    have hrange := Text.toNat_of_isBlank hblank
    simp only [Text.isDigit, isNameStart, Bool.and_eq_true, Bool.or_eq_true, decide_eq_true_eq,
      Char.le_def, UInt32.le_iff_toNat_le, beq_iff_eq] at h
    have hdigits : ('0' : Char).val.toNat = 48 ∧ ('9' : Char).val.toNat = 57 := by decide
    have hlower : ('a' : Char).val.toNat = 97 ∧ ('z' : Char).val.toNat = 122 := by decide
    have hupper : ('A' : Char).val.toNat = 65 ∧ ('Z' : Char).val.toNat = 90 := by decide
    have hc : c.toNat = c.val.toNat := rfl
    rcases h with h | (h | h) | rfl
    · omega
    · omega
    · omega
    · exact absurd hrange (by decide)

/-- No text that fits a shape of the table begins with a blank. -/
theorem Shape.isBlank_of_mayBegin {e : Kind × Shape} (he : e ∈ table) {c : Char}
    (h : e.2.mayBegin c = true) : Text.isBlank c = false := by
  have hlead : ∀ e ∈ table, ∀ d, e.2.lead? = some d → Text.isBlank d = false := by
    have hall : ∀ e ∈ table, e.2.lead?.all (fun d => !Text.isBlank d) = true := by
      decide +kernel
    intro e he d hd
    have hblank := hall e he
    rw [hd] at hblank
    simpa using hblank
  cases hs : e.2.lead? with
  | some d =>
    rw [eq_of_mayBegin hs h]
    exact hlead e he d hs
  | none =>
    cases hshape : e.2 with
    | digits =>
      rw [hshape] at h
      exact isBlank_eq_false_of_char (.inl h)
    | name =>
      rw [hshape] at h
      exact isBlank_eq_false_of_char (.inr h)
    | fixed text | word text =>
      rw [hshape] at h hs
      simp only [lead?] at hs
      simp [mayBegin, hs] at h
    | quoted mark =>
      rw [hshape] at hs
      cases hs

/-- A munched text begins with no blank, and with something. -/
theorem Munched.head_not_blank {k : Kind} {x rest : List Char} (h : Munched k x rest) :
    ∃ c cs, x = c :: cs ∧ Text.isBlank c = false := by
  obtain ⟨s, hs, -, hlen⟩ := h.shape
  obtain ⟨c, cs, hcs, hc⟩ := Shape.mayBegin_of_length? (Shape.hasText_table _ hs) hlen
  have hpos : 0 < x.length := Shape.length?_pos (Shape.hasText_table _ hs) hlen
  cases x with
  | nil => exact absurd hpos (Nat.lt_irrefl 0)
  | cons d x =>
    cases hcs
    exact ⟨c, x, rfl, Shape.isBlank_of_mayBegin hs hc⟩

namespace Shape

variable {k : Kind} {n : Nat} {x rest cs : List Char}

/-- What the table gives for a text is munched. -/
theorem munched_of_first? (h : first? cs = some (k, n)) :
    n ≤ cs.length ∧ Munched k (cs.take n) (cs.drop n) := by
  obtain ⟨s, hs, hlen, hbest⟩ := firstIn_wins table_pairwise hasText_table h
  obtain ⟨hn, hfits⟩ := fits_of_length? hlen
  have hcs : cs.take n ++ cs.drop n = cs := List.take_append_drop n cs
  have htake : (cs.take n).length = n := List.length_take_of_le hn
  -- a shape takes at least the texts that fit it, and the winner takes at least as much
  have hle : ∀ e ∈ table, ∀ y r, cs = y ++ r → e.2.Fits y r →
      ∃ m, e.2.length? cs = some m ∧ y.length ≤ m ∧ m ≤ n := by
    rintro e he y r rfl hy
    obtain ⟨m, hm, hym⟩ := length?_of_fits (plainMark_table e he) hy
    exact ⟨m, hm, hym, (hbest e he m hm).1⟩
  refine ⟨hn, ⟨s, hs, hfits, ?_⟩, ?_, ?_⟩
  · rw [hcs, hlen, htake]
  · intro e he y r hyr hy
    obtain ⟨m, -, hym, hmn⟩ := hle e he y r (hcs.symm.trans hyr) hy
    omega
  · intro e he hfit
    obtain ⟨m, hm, hnm, hmn⟩ := hle e he _ _ hcs.symm hfit
    exact (hbest e he m hm).2 (by omega)

/-- Where the table gives nothing, no shape fits any text in front. -/
theorem not_fits_of_first? (h : first? cs = none) :
    ∀ e ∈ table, e.2.length? cs = none ∧ ∀ y r, cs = y ++ r → ¬ e.2.Fits y r := by
  intro e he
  have hnone := firstIn_eq_none h e he
  refine ⟨hnone, ?_⟩
  rintro y r rfl hy
  obtain ⟨m, hm, -⟩ := length?_of_fits (plainMark_table e he) hy
  rw [hnone] at hm
  cases hm

/-- A munched text is what the table gives. -/
theorem first?_of_munched (h : Munched k x rest) : first? (x ++ rest) = some (k, x.length) := by
  obtain ⟨s, hs, hfits, hlen⟩ := h.shape
  cases hfirst : first? (x ++ rest) with
  | none =>
    have hnone := (not_fits_of_first? hfirst _ hs).1
    rw [hlen] at hnone
    cases hnone
  | some found =>
    obtain ⟨l, n⟩ := found
    obtain ⟨hn, hmunched⟩ := munched_of_first? hfirst
    have hcs : (x ++ rest).take n ++ (x ++ rest).drop n = x ++ rest := List.take_append_drop ..
    have htake : ((x ++ rest).take n).length = n := List.length_take_of_le hn
    -- each of the two texts is as long as the other
    obtain ⟨t, ht, htfits, -⟩ := hmunched.shape
    have hle := h.longest _ ht _ _ hcs.symm htfits
    have hge := hmunched.longest _ hs x rest hcs hfits
    have hlength : n = x.length := by omega
    subst hlength
    rw [List.take_left, List.drop_left] at hmunched htfits
    -- neither kind wins over the other unless they are the same
    have hkl : l = k := by
      rcases h.wins _ ht htfits with hkl | ⟨hl, hk⟩
      · exact hkl
      · rcases hmunched.wins _ hs hfits with hkl | ⟨hk', hl'⟩
        · exact hkl.symm
        · have hk'' : k = .identifier := hk'
          rw [hk''] at hk
          cases hk
    rw [hkl]

end Shape

/-! ## Splits -/

/-- The text `cs`, which begins at `l`, is blanks and munched texts in turn up to `rest`, which
    begins at `l'`; the munched texts are the tokens `ts`. -/
inductive Splits : (l : Location) → (cs : List Char) → (ts : List Token) → (l' : Location) →
    (rest : List Char) → Prop where
  | blanks {l : Location} {w rest : List Char} (hw : ∀ c ∈ w, Text.isBlank c = true) :
      Splits l (w ++ rest) [] (l.after w) rest
  | token {l l' : Location} {w x cs rest : List Char} {k : Kind} {ts : List Token}
      (hw : ∀ c ∈ w, Text.isBlank c = true) (hx : Munched k x cs)
      (others : Splits ((l.after w).after x) cs ts l' rest) :
      Splits l (w ++ x ++ cs) (⟨k, Token.keep k x, l.after w⟩ :: ts) l' rest

namespace Splits

variable {l l' : Location} {cs rest : List Char} {ts : List Token}

/-- One more blank in front. -/
theorem cons_blank {c : Char} (hc : Text.isBlank c = true)
    (h : Splits (l.advance c) cs ts l' rest) : Splits l (c :: cs) ts l' rest := by
  have hcons : ∀ {w : List Char}, (∀ d ∈ w, Text.isBlank d = true) →
      ∀ d ∈ c :: w, Text.isBlank d = true := fun hw => List.forall_mem_cons.mpr ⟨hc, hw⟩
  cases h with
  | blanks hw => exact .blanks (w := c :: _) (hcons hw)
  | token hw hx others => exact .token (w := c :: _) (hcons hw) hx others

end Splits

/-! ## Scanning -/

namespace Token

open Shape (first?)

/-- The next token and what is behind it. -/
theorem scanFrom_token {k : Kind} {x rest : List Char} (hx : Munched k x rest) (l : Location) :
    scanFrom 0 l (x ++ rest) =
      (scanFrom 0 (l.after x) rest).map (⟨k, keep k x, l⟩ :: ·) := by
  have hfirst := Shape.first?_of_munched hx
  obtain ⟨c, x, rfl, hc⟩ := hx.head_not_blank
  rw [List.cons_append] at hfirst ⊢
  have hskip : scanFrom ((c :: x).length - 1) (l.advance c) (x ++ rest) =
      scanFrom 0 (l.after (c :: x)) rest := scanFrom_skip x rest (l.advance c)
  have htake : (c :: (x ++ rest)).take (c :: x).length = c :: x := List.take_left
  simp only [scanFrom, hc, hfirst, hskip, htake, Bool.false_eq_true, if_false]
  cases scanFrom 0 (l.after (c :: x)) rest <;> rfl

/-- A text that splits to its end is scanned as its tokens. -/
theorem scanFrom_of_splits {l l' : Location} {cs rest : List Char} {ts : List Token}
    (h : Splits l cs ts l' rest) (hrest : rest = []) :
    scanFrom 0 l cs = .ok (ts ++ [endAt l']) := by
  induction h with
  | blanks hw =>
    subst hrest
    rw [scanFrom_blanks _ _ _ hw]
    rfl
  | token hw hx _ ih =>
    rw [List.append_assoc, scanFrom_blanks _ _ _ hw, scanFrom_token hx, ih hrest]
    rfl

/-- How the text `cs`, which begins at `l`, splits if scanning it ends in that way. -/
def Scanned (l : Location) (cs : List Char) : Except LexError (List Token) → Prop
  | .ok ts => ∃ us l', ts = us ++ [endAt l'] ∧ Splits l cs us l' []
  | .error e => ∃ us rest, Splits l cs us e.location (e.found :: rest) ∧
      Text.isBlank e.found = false ∧ first? (e.found :: rest) = none

namespace Scanned

variable {l : Location} {cs : List Char} {r : Except LexError (List Token)}

theorem cons_blank {c : Char} (hc : Text.isBlank c = true) (h : Scanned (l.advance c) cs r) :
    Scanned l (c :: cs) r := by
  cases r with
  | ok ts =>
    obtain ⟨us, l', hus, hsplits⟩ := h
    exact ⟨us, l', hus, hsplits.cons_blank hc⟩
  | error e =>
    obtain ⟨us, rest, hsplits, hfound⟩ := h
    exact ⟨us, rest, hsplits.cons_blank hc, hfound⟩

theorem token {k : Kind} {x : List Char} (hx : Munched k x cs) (h : Scanned (l.after x) cs r) :
    Scanned l (x ++ cs) (r.map (⟨k, keep k x, l⟩ :: ·)) := by
  cases r with
  | ok ts =>
    obtain ⟨us, l', rfl, hsplits⟩ := h
    exact ⟨_, l', rfl, .token (l := l) (w := []) nofun hx hsplits⟩
  | error e =>
    obtain ⟨us, rest, hsplits, hfound⟩ := h
    exact ⟨_, rest, .token (l := l) (w := []) nofun hx hsplits, hfound⟩

end Scanned

/-- The characters that are scanned split.  By induction on how many they are: a blank is passed
    over alone, and a token with all of its characters. -/
theorem scanned_scanFrom (n : Nat) : ∀ (cs : List Char) (l : Location), cs.length ≤ n →
    Scanned l cs (scanFrom 0 l cs) := by
  induction n with
  | zero =>
    intro cs l hcs
    obtain rfl := List.length_eq_zero_iff.mp (Nat.le_zero.mp hcs)
    exact ⟨[], l, rfl, .blanks (w := []) nofun⟩
  | succ n ih =>
    intro cs l hcs
    cases cs with
    | nil => exact ⟨[], l, rfl, .blanks (w := []) nofun⟩
    | cons c cs =>
      by_cases hblank : Text.isBlank c = true
      · have hscan : scanFrom 0 l (c :: cs) = scanFrom 0 (l.advance c) cs := by
          simp [scanFrom, hblank]
        rw [hscan]
        exact (ih cs (l.advance c) (Nat.le_of_succ_le_succ hcs)).cons_blank hblank
      · rw [Bool.not_eq_true] at hblank
        cases hfirst : first? (c :: cs) with
        | none =>
          have hscan : scanFrom 0 l (c :: cs) = .error ⟨c, l⟩ := by
            simp [scanFrom, hblank, hfirst]
          rw [hscan]
          exact ⟨[], cs, .blanks (w := []) nofun, hblank, hfirst⟩
        | some found =>
          obtain ⟨k, m⟩ := found
          obtain ⟨-, hx⟩ := Shape.munched_of_first? hfirst
          have hpos := Shape.first?_pos hfirst
          have hrest := ih ((c :: cs).drop m) (l.after ((c :: cs).take m))
            (by rw [List.length_drop]; omega)
          have htoken := hrest.token hx
          rw [← scanFrom_token hx, List.take_append_drop] at htoken
          exact htoken

/-- The tokens of a source text are the texts it splits into, between the two ends of the
    input. -/
theorem splits_of_scan {source : String} {ts : List Token} (h : scan source = .ok ts) :
    ∃ us l, ts = first :: us ++ [endAt l] ∧ Splits .start source.toList us l [] := by
  have hsplits := scanned_scanFrom source.toList.length source.toList .start (Nat.le_refl _)
  rw [scan] at h
  cases hscan : scanFrom 0 .start source.toList with
  | error e =>
    rw [hscan] at h
    cases h
  | ok us =>
    rw [hscan] at h hsplits
    obtain ⟨us, l, rfl, hsplit⟩ := hsplits
    cases h
    exact ⟨us, l, rfl, hsplit⟩

/-- Scanning is lossless and takes the longest token.  If it succeeds, the source text is blanks
    and munched texts in turn, which are the tokens between the two ends of the input.  If it
    fails, the text in front of the place of the error splits in the same way, and what is behind
    it begins with the reported character, which is no blank and begins no text that fits a
    shape. -/
theorem scan_maximal_munch (source : String) :
    match scan source with
    | .ok ts => ∃ us l, ts = first :: us ++ [endAt l] ∧ Splits .start source.toList us l []
    | .error e => ∃ us rest, Splits .start source.toList us e.location (e.found :: rest) ∧
        Text.isBlank e.found = false ∧ ∀ shape ∈ Shape.table,
          shape.2.length? (e.found :: rest) = none ∧
          ∀ x r, e.found :: rest = x ++ r → ¬ shape.2.Fits x r := by
  cases hscan : scan source with
  | ok ts => exact splits_of_scan hscan
  | error e =>
    have hsplits := scanned_scanFrom source.toList.length source.toList .start (Nat.le_refl _)
    rw [scan] at hscan
    cases hfrom : scanFrom 0 .start source.toList with
    | ok us =>
      rw [hfrom] at hscan
      cases hscan
    | error e' =>
      rw [hfrom] at hscan hsplits
      cases hscan
      obtain ⟨us, rest, hsplit, hblank, hnone⟩ := hsplits
      exact ⟨us, rest, hsplit, hblank, Shape.not_fits_of_first? hnone⟩

end Token

end PocketC
