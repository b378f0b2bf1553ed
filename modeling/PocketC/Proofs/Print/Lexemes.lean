/-
  PocketC.Proofs.Print.Lexemes

  Which tokens can be written and scanned again.

  A token is well-formed if its kind and its text are those of a token that a source text
  may have, and the tokens that were scanned are (`wellFormed_of_splits`).  The source text
  of such a token is scanned as the token wherever nothing or a blank is behind it
  (`WellFormed.first?_source`): quoted texts end at their closing quotes, and of the other
  shapes none goes past a blank.  A token is a lexeme if this holds of it with a space
  behind, and a row of lexemes is scanned from its text.
-/

import PocketC.Proofs.Print.Printer
import PocketC.Proofs.Token.Munch
import PocketC.Proofs.Tree.Unplaced

namespace PocketC

open Shape (table first?)

/-! ## Blanks behind a text -/

/-- The text begins with no quote. -/
def Unquoted (x : List Char) : Prop := x.head? ≠ some '"' ∧ x.head? ≠ some '\''

namespace Shape

/-- Whether the shape asks for no blank outside of quotes. -/
def blankless : Shape → Bool
  | .fixed text | .word text => text.all fun c => !Text.isBlank c
  | .digits | .name => true
  | .quoted mark => mark == '"' || mark == '\''

theorem blankless_table : ∀ e ∈ table, e.2.blankless = true := by decide +kernel

/-- A text with no blank in it stands in front of `x` if it stands in front of `x` with a blank
    behind. -/
theorem prefix_of_prefix_append {x y rest : List Char} (hy : ∀ c ∈ y, Text.isBlank c = false)
    (hrest : rest.head?.all Text.isBlank = true) (h : y <+: x ++ rest) : y <+: x := by
  induction x generalizing y with
  | nil =>
      cases y with
      | nil => exact List.nil_prefix
      | cons d y =>
          obtain ⟨r, rfl⟩ := h
          have hd : Text.isBlank d = false := hy d List.mem_cons_self
          simp [hd] at hrest
  | cons c x ih =>
      cases y with
      | nil => exact List.nil_prefix
      | cons d y =>
          obtain ⟨hdc, htail⟩ := List.cons_prefix_cons.mp h
          exact List.cons_prefix_cons.mpr ⟨hdc, ih (List.forall_mem_cons.mp hy).2 htail⟩

theorem isPrefixOf_append_of_blank {x y rest : List Char} (hy : ∀ c ∈ y, Text.isBlank c = false)
    (hrest : rest.head?.all Text.isBlank = true) : y.isPrefixOf (x ++ rest) = y.isPrefixOf x := by
  rw [Bool.eq_iff_iff, List.isPrefixOf_iff_prefix, List.isPrefixOf_iff_prefix]
  exact ⟨prefix_of_prefix_append hy hrest, fun h => h.trans (List.prefix_append x rest)⟩

theorem head?_append_of_blank {p : Char → Bool} {x rest : List Char}
    (hp : ∀ c, Text.isBlank c = true → p c = false) (hrest : rest.head?.all Text.isBlank = true) :
    (x ++ rest).head?.any p = x.head?.any p := by
  cases x with
  | cons c x => rfl
  | nil =>
      cases rest with
      | nil => rfl
      | cons c rest => exact hp c hrest

theorem takeWhile_append_of_blank {p : Char → Bool} {x rest : List Char}
    (hp : ∀ c, Text.isBlank c = true → p c = false) (hrest : rest.head?.all Text.isBlank = true) :
    (x ++ rest).takeWhile p = x.takeWhile p := by
  induction x with
  | nil =>
      cases rest with
      | nil => rfl
      | cons c rest => exact List.takeWhile_cons_of_neg (by simp [hp c hrest])
  | cons c x ih => simp only [List.cons_append, List.takeWhile_cons, ih]

theorem isNameChar_of_isBlank {c : Char} (hc : Text.isBlank c = true) : isNameChar c = false := by
  cases hchar : isNameChar c with
  | false => rfl
  | true =>
      rw [isBlank_eq_false_of_char (Bool.or_eq_true_iff.mp hchar).symm] at hc
      cases hc

theorem quoted_length?_eq_none {mark : Char} {cs : List Char} (h : cs.head? ≠ some mark) :
    (quoted mark).length? cs = none := by
  cases cs with
  | nil => rfl
  | cons c cs => exact if_neg fun hc => h (congrArg some hc)

theorem length?_append_of_blank {s : Shape} {x rest : List Char} (hs : s.blankless = true)
    (hx : Unquoted x) (hrest : rest.head?.all Text.isBlank = true) :
    s.length? (x ++ rest) = s.length? x := by
  have hchar : ∀ c, Text.isBlank c = true → isNameChar c = false := fun _ => isNameChar_of_isBlank
  have hstart : ∀ c, Text.isBlank c = true → isNameStart c = false := fun c hc =>
    (Bool.or_eq_false_iff.mp (hchar c hc)).1
  have hdigit : ∀ c, Text.isBlank c = true → Text.isDigit c = false := fun c hc =>
    (Bool.or_eq_false_iff.mp (hchar c hc)).2
  cases s with
  | fixed text =>
      have htext : ∀ c ∈ text, Text.isBlank c = false := by simpa [blankless] using hs
      simp only [length?, isPrefixOf_append_of_blank htext hrest]
  | word text =>
      have htext : ∀ c ∈ text, Text.isBlank c = false := by simpa [blankless] using hs
      simp only [length?, isPrefixOf_append_of_blank htext hrest]
      cases hfront : text.isPrefixOf x with
      | false => rfl
      | true =>
          obtain ⟨y, rfl⟩ := List.isPrefixOf_iff_prefix.mp hfront
          rw [List.append_assoc, List.drop_left, List.drop_left, head?_append_of_blank hchar hrest]
  | digits => simp only [length?, takeWhile_append_of_blank hdigit hrest]
  | name =>
      simp only [length?, takeWhile_append_of_blank hchar hrest, head?_append_of_blank hstart hrest]
  | quoted mark =>
      have hmark : Text.isBlank mark = false ∧ x.head? ≠ some mark := by
        simp only [blankless, Bool.or_eq_true, beq_iff_eq] at hs
        rcases hs with rfl | rfl
        · exact ⟨by decide, hx.1⟩
        · exact ⟨by decide, hx.2⟩
      rw [quoted_length?_eq_none hmark.2, quoted_length?_eq_none]
      -- the first character of `rest` is no quote, because it is a blank
      intro hhead
      cases x with
      | cons c x => exact hmark.2 hhead
      | nil =>
          rw [List.nil_append] at hhead
          rw [hhead, Option.all_some, hmark.1] at hrest
          cases hrest

theorem firstIn_congr {cs cs' : List Char} {shapes : List (Kind × Shape)}
    (h : ∀ e ∈ shapes, e.2.length? cs = e.2.length? cs') :
    firstIn cs shapes = firstIn cs' shapes := by
  induction shapes with
  | nil => rfl
  | cons e es ih =>
      obtain ⟨he, hes⟩ := List.forall_mem_cons.mp h
      have hothers := ih hes
      simp only [firstIn] at hothers
      simp only [firstIn, List.findSome?_cons, he, hothers]

/-- A blank behind a text that begins with no quote does not matter to the first token of it. -/
theorem first?_append_of_blank {x rest : List Char} (hx : Unquoted x)
    (hrest : rest.head?.all Text.isBlank = true) : first? (x ++ rest) = first? x :=
  firstIn_congr fun e he => length?_append_of_blank (blankless_table e he) hx hrest

end Shape

namespace Token

/-! ## Well-formed tokens -/

/-- The keywords and the name of the built-in operation, which would be names otherwise. -/
def reservedWords : List String :=
  ["if", "else", "while", "for", "return", "break", "continue", "printf"]

/-- The words of the table are reserved. -/
theorem mem_reservedWords {k : Kind} {x : List Char} (h : (k, Shape.word x) ∈ table) :
    String.ofList x ∈ reservedWords := by
  have hall : ∀ e ∈ table, (match e.2 with
      | .word y => decide (String.ofList y ∈ reservedWords)
      | _ => true) = true := by
    decide +kernel
  exact of_decide_eq_true (hall _ h)

/-- Each reserved word has a kind of its own. -/
theorem word_of_mem_reservedWords :
    ∀ x ∈ reservedWords, ∃ k, (k, Shape.word x.toList) ∈ table ∧ k.isReserved = true := by
  simp only [reservedWords, List.forall_mem_cons]
  refine ⟨⟨.kwIf, ?_⟩, ⟨.kwElse, ?_⟩, ⟨.kwWhile, ?_⟩, ⟨.kwFor, ?_⟩, ⟨.kwReturn, ?_⟩,
    ⟨.kwBreak, ?_⟩, ⟨.kwContinue, ?_⟩, ⟨.intrinsic, ?_⟩, nofun⟩ <;> decide +kernel

/-- A token that a source text may have: a mark or keyword, which keeps no text, a name that is
    not reserved, a row of digits, the built-in operation, or what may stand between quotes. -/
inductive WellFormed : Token → Prop where
  | mark {k : Kind} {l : Location} (hk : k.spelling?.isSome = true) : WellFormed ⟨k, none, l⟩
  | name {x : String} {l : Location} (hstart : x.toList.head?.any isNameStart = true)
      (hchars : ∀ c ∈ x.toList, isNameChar c = true) (hfree : x ∉ reservedWords) :
      WellFormed ⟨.identifier, some x, l⟩
  | number {x : String} {l : Location} (hne : x.toList ≠ [])
      (hdigits : ∀ c ∈ x.toList, Text.isDigit c = true) : WellFormed ⟨.intLiteral, some x, l⟩
  | printf {l : Location} : WellFormed ⟨.intrinsic, some "printf", l⟩
  | string {x : String} {l : Location} (hraw : Shape.Quotable '"' x.toList) :
      WellFormed ⟨.stringLiteral, some x, l⟩
  | char {x : String} {l : Location} (hraw : Shape.Quotable '\'' x.toList) :
      WellFormed ⟨.charLiteral, some x, l⟩

/-! ## Tokens that were scanned -/

/-- Each kind has one shape. -/
theorem lookup_table : ∀ e ∈ table, table.lookup e.1 = some e.2 := by decide +kernel

/-- What a token keeps of its source text, and its kind, tell the source text. -/
theorem source_of_fits {k : Kind} {s : Shape} {x rest : List Char} (hs : (k, s) ∈ table)
    (hx : s.Fits x rest) (l : Location) : (⟨k, keep k x, l⟩ : Token).source = x := by
  have hshape := lookup_table _ hs
  cases k with
  | stringLiteral | charLiteral =>
      cases hshape
      obtain ⟨raw, rfl, -⟩ := hx
      simp [source, keep, text]
  | intLiteral | identifier | intrinsic => simp [source, keep, text]
  | startOfInput | endOfInput => cases hshape
  | _ =>
      cases hshape
      first
        | exact Eq.symm hx
        | exact hx.1.symm

/-- Keywords are whole words. -/
theorem word_of_isReserved {k : Kind} {s : Shape} (hs : (k, s) ∈ table)
    (hk : k.isReserved = true) : ∃ x, s = .word x := by
  have hshape := lookup_table _ hs
  cases k <;> cases hk <;> cases hshape <;> exact ⟨_, rfl⟩

/-- What is behind a munched name does not go on with it. -/
theorem head_of_munched_name {x rest : List Char} (h : Munched .identifier x rest) :
    ∃ c xs, x = c :: xs ∧ isNameStart c = true ∧ (∀ d ∈ xs, isNameChar d = true) ∧
      rest.head?.any isNameChar = false := by
  have hname : (Kind.identifier, Shape.name) ∈ table := by decide
  obtain ⟨s, hs, hx, -⟩ := h.shape
  cases lookup_table _ hs
  obtain ⟨c, xs, rfl, hc, hxs⟩ := hx
  refine ⟨c, xs, rfl, hc, hxs, ?_⟩
  cases rest with
  | nil => rfl
  | cons d rest =>
      cases hd : isNameChar d with
      | false => simpa using hd
      | true =>
          have hlonger : ∀ u ∈ xs ++ [d], isNameChar u = true := by
            intro u hu
            rcases List.mem_append.mp hu with hu | hu
            · exact hxs u hu
            · rw [List.mem_singleton.mp hu]
              exact hd
          have hle := h.longest _ hname (c :: (xs ++ [d])) rest (by simp)
            ⟨c, xs ++ [d], rfl, hc, hlonger⟩
          simp only [List.length_cons, List.length_append, List.length_nil] at hle
          omega

/-- What is munched makes a well-formed token. -/
theorem wellFormed_of_munched {k : Kind} {x rest : List Char} (h : Munched k x rest)
    (l : Location) : (⟨k, keep k x, l⟩ : Token).WellFormed := by
  obtain ⟨s, hs, hx, -⟩ := h.shape
  have hshape := lookup_table _ hs
  cases k with
  | identifier =>
      obtain ⟨c, xs, rfl, hc, hxs, hend⟩ := head_of_munched_name h
      refine .name (by simpa using hc) ?_ fun hmem => ?_
      · rw [String.toList_ofList]
        exact List.forall_mem_cons.mpr ⟨by rw [isNameChar, hc, Bool.true_or], hxs⟩
      · -- a keyword would have won
        obtain ⟨k, hk, hreserved⟩ := word_of_mem_reservedWords _ hmem
        rw [String.toList_ofList] at hk
        have hident : k = .identifier := by
          rcases h.wins _ hk ⟨rfl, hend⟩ with hident | hident
          · exact hident
          · exact hident.1
        rw [hident] at hreserved
        cases hreserved
  | intLiteral =>
      cases hshape
      exact .number (by simpa using hx.1) (by simpa using hx.2)
  | stringLiteral =>
      cases hshape
      obtain ⟨raw, rfl, hraw⟩ := hx
      exact .string (by simpa using hraw)
  | charLiteral =>
      cases hshape
      obtain ⟨raw, rfl, hraw⟩ := hx
      exact .char (by simpa using hraw)
  | intrinsic =>
      cases hshape
      rw [hx.1]
      exact .printf
  | startOfInput | endOfInput => cases hshape
  | _ => exact .mark rfl

/-- The tokens of a text that splits are well-formed. -/
theorem wellFormed_of_splits {l l' : Location} {cs rest : List Char} {ts : List Token}
    (h : Splits l cs ts l' rest) : ∀ t ∈ ts, t.WellFormed := by
  induction h with
  | blanks _ => exact nofun
  | token _ hx _ ih => exact List.forall_mem_cons.mpr ⟨wellFormed_of_munched hx _, ih⟩

/-! ## Well-formed tokens are scanned -/

/-- A string literal ends at its closing quote, whatever is behind it. -/
theorem first?_string {raw : List Char} (hraw : Shape.Quotable '"' raw) (rest : List Char) :
    first? ('"' :: raw ++ ['"'] ++ rest) = some (.stringLiteral, raw.length + 2) := by
  have hclosing := Shape.closing_of_quotable hraw (by decide) (by decide) rest
  simp [first?, Shape.firstIn, table, Shape.length?, hclosing]

/-- So does a char literal. -/
theorem first?_char {raw : List Char} (hraw : Shape.Quotable '\'' raw) (rest : List Char) :
    first? ('\'' :: raw ++ ['\''] ++ rest) = some (.charLiteral, raw.length + 2) := by
  have hclosing := Shape.closing_of_quotable hraw (by decide) (by decide) rest
  simp [first?, Shape.firstIn, table, Shape.length?, hclosing]

/-- A row of digits is a number. -/
theorem first?_digits {x : List Char} (hne : x ≠ []) (hx : ∀ c ∈ x, Text.isDigit c = true) :
    first? x = some (.intLiteral, x.length) := by
  have hlength : Shape.digits.length? x = some x.length := by
    have happend : (x ++ []).takeWhile Text.isDigit = x ++ [].takeWhile Text.isDigit :=
      List.takeWhile_append_of_pos hx
    have htake : x.takeWhile Text.isDigit = x := by simpa using happend
    rw [Shape.length?, htake]
    exact if_neg fun h => hne (List.length_eq_zero_iff.mp h)
  -- in the table only the quotes stand in front of the digits
  have hquote : ∀ mark, Text.isDigit mark = false → (Shape.quoted mark).length? x = none := by
    intro mark hmark
    refine Shape.quoted_length?_eq_none fun hhead => ?_
    rw [hx mark (List.mem_of_mem_head? hhead)] at hmark
    cases hmark
  simp only [first?, Shape.firstIn, table, List.cons_append, List.findSome?_cons,
    hquote '"' (by decide), hquote '\'' (by decide), hlength, Option.map_none, Option.map_some]

/-- A name that is not reserved is a name. -/
theorem first?_name {x : List Char} (hstart : x.head?.any isNameStart = true)
    (hchars : ∀ c ∈ x, isNameChar c = true) (hfree : String.ofList x ∉ reservedWords) :
    first? x = some (.identifier, x.length) := by
  have hname : (Kind.identifier, Shape.name) ∈ table := by decide
  have hfits : ∀ rest, Shape.name.Fits x rest := by
    intro rest
    cases x with
    | nil => cases hstart
    | cons c cs => exact ⟨c, cs, rfl, hstart, (List.forall_mem_cons.mp hchars).2⟩
  have hwhole : x = x ++ [] := (List.append_nil x).symm
  cases hfirst : first? x with
  | none => exact absurd (hfits _) ((Shape.not_fits_of_first? hfirst _ hname).2 x [] hwhole)
  | some found =>
      obtain ⟨k, n⟩ := found
      obtain ⟨hn, hmunched⟩ := Shape.munched_of_first? hfirst
      -- the name takes all of the text
      have hge := hmunched.longest _ hname x [] (by rw [List.take_append_drop, ← hwhole]) (hfits _)
      rw [List.length_take] at hge
      obtain rfl : n = x.length := by omega
      rw [List.take_length, List.drop_length] at hmunched
      rcases hmunched.wins _ hname (hfits _) with hk | ⟨-, hk⟩
      · rw [← hk]
      · obtain ⟨s, hs, hx, -⟩ := hmunched.shape
        obtain ⟨y, rfl⟩ := word_of_isReserved hs hk
        rw [hx.1] at hfree
        exact absurd (mem_reservedWords hs) hfree

/-- A spelling is what it spells. -/
theorem first?_spelling {k : Kind} (hk : k.spelling?.isSome = true) :
    Unquoted (k.spelling?.getD []) ∧
      first? (k.spelling?.getD []) = some (k, (k.spelling?.getD []).length) := by
  cases k <;> first
    | exact ⟨⟨by decide, by decide⟩, rfl⟩
    | cases hk

/-- There is no quote in a text of characters of names. -/
theorem unquoted_of_isNameChar {x : List Char} (hx : ∀ c ∈ x, isNameChar c = true) :
    Unquoted x := by
  constructor <;> intro hhead <;>
    exact absurd (hx _ (List.mem_of_mem_head? hhead)) (by decide)

namespace WellFormed

variable {t : Token}

/-- A quoted text ends with its quote, and of the other texts the front that is scanned is the
    whole text. -/
theorem quoted_or_plain (h : t.WellFormed) :
    (∀ rest, first? (t.source ++ rest) = some (t.kind, t.source.length)) ∨
      Unquoted t.source ∧ first? t.source = some (t.kind, t.source.length) := by
  cases h with
  | @mark k l hk =>
      have hsource : (⟨k, none, l⟩ : Token).source = k.spelling?.getD [] := by
        cases k <;> first
          | rfl
          | cases hk
      rw [hsource]
      exact .inr (first?_spelling hk)
  | @name x l hstart hchars hfree =>
      refine .inr ⟨unquoted_of_isNameChar hchars, first?_name hstart hchars ?_⟩
      rwa [show (⟨.identifier, some x, l⟩ : Token).source = x.toList from rfl,
        String.ofList_toList]
  | @number x l hne hdigits =>
      refine .inr ⟨unquoted_of_isNameChar fun c hc => ?_, first?_digits hne hdigits⟩
      rw [isNameChar, hdigits c hc, Bool.or_true]
  | @printf l =>
      have hsource : (⟨.intrinsic, some "printf", l⟩ : Token).source = Shape.printfName := by
        show "printf".toList = _
        decide
      rw [hsource]
      exact .inr ⟨unquoted_of_isNameChar (List.all_eq_true.mp rfl), rfl⟩
  | @string x l hraw =>
      refine .inl fun rest => ?_
      rw [show (⟨.stringLiteral, some x, l⟩ : Token).source = '"' :: x.toList ++ ['"'] from rfl,
        first?_string hraw]
      simp
  | @char x l hraw =>
      refine .inl fun rest => ?_
      rw [show (⟨.charLiteral, some x, l⟩ : Token).source = '\'' :: x.toList ++ ['\''] from rfl,
        first?_char hraw]
      simp

/-- The source text of the token is scanned as the token wherever nothing or a blank is behind
    it. -/
theorem first?_source (h : t.WellFormed) {rest : List Char}
    (hrest : rest.head?.all Text.isBlank = true) :
    first? (t.source ++ rest) = some (t.kind, t.source.length) := by
  rcases h.quoted_or_plain with hquoted | ⟨hplain, hfirst⟩
  · exact hquoted rest
  · rw [Shape.first?_append_of_blank hplain hrest, hfirst]

theorem munched (h : t.WellFormed) {rest : List Char}
    (hrest : rest.head?.all Text.isBlank = true) : Munched t.kind t.source rest := by
  have hmunched := (Shape.munched_of_first? (h.first?_source hrest)).2
  rwa [List.take_left, List.drop_left] at hmunched

theorem keeps (h : t.WellFormed) : keep t.kind t.source = t.kept := by
  cases h with
  | @mark k l hk => cases k <;> first | rfl | cases hk
  | _ => simp [keep, source, text]

end WellFormed

/-! ## Lexemes -/

/-- The source text of the token is scanned as the token wherever a space is behind it. -/
structure IsLexeme (t : Token) : Prop where
  first (cs : List Char) : first? (t.source ++ ' ' :: cs) = some (t.kind, t.source.length)
  keeps : keep t.kind t.source = t.kept

/-- The place of a token does not matter for that. -/
theorem isLexeme_unplaced {t : Token} : t.unplaced.IsLexeme ↔ t.IsLexeme :=
  ⟨fun h => ⟨h.first, h.keeps⟩, fun h => ⟨h.first, h.keeps⟩⟩

theorem WellFormed.isLexeme {t : Token} (h : t.WellFormed) : t.IsLexeme where
  first _ := h.first?_source rfl
  keeps := h.keeps

namespace IsLexeme

variable {t : Token}

theorem munched (h : t.IsLexeme) (cs : List Char) : Munched t.kind t.source (' ' :: cs) := by
  have hmunched := (Shape.munched_of_first? (h.first cs)).2
  rwa [List.take_left, List.drop_left] at hmunched

/-- The tokens of names keep a text. -/
theorem unplaced_eq (h : t.IsLexeme) (hk : t.kind = .identifier ∨ t.kind = .intrinsic) :
    t.unplaced = ⟨t.kind, some t.text, .start⟩ := by
  obtain ⟨k, kept, l⟩ := t
  have hkeeps := h.keeps
  cases kept with
  | some x => rfl
  | none => rcases hk with rfl | rfl <;> cases hkeeps

/-- What a token of a name keeps can be written as a name. -/
theorem name (h : t.IsLexeme) (ht : t.kind = .identifier) : (name t.text).IsLexeme := by
  have hunplaced := isLexeme_unplaced.mpr h
  rwa [h.unplaced_eq (.inl ht), ht] at hunplaced

theorem isNameChar (h : t.IsLexeme) (ht : t.kind = .identifier) :
    ∀ c ∈ t.text.toList, isNameChar c = true := by
  have hmunched := h.munched []
  have hsource : t.source = t.text.toList := by
    rw [source, ht]
  rw [ht, hsource] at hmunched
  obtain ⟨c, xs, hx, hc, hxs, -⟩ := head_of_munched_name hmunched
  rw [hx]
  refine List.forall_mem_cons.mpr ⟨?_, hxs⟩
  rw [PocketC.isNameChar, hc, Bool.true_or]

theorem isDigit (h : t.IsLexeme) (ht : t.kind = .intLiteral) :
    ∀ c ∈ t.text.toList, Text.isDigit c = true := by
  obtain ⟨s, hs, hx, -⟩ := (h.munched []).shape
  have hsource : t.source = t.text.toList := by
    rw [source, ht]
  rw [ht] at hs
  cases lookup_table _ hs
  rw [hsource] at hx
  exact hx.2

end IsLexeme

/-! ## Rows of tokens -/

/-- The tokens of a text that splits are lexemes. -/
theorem isLexeme_of_splits {l l' : Location} {cs rest : List Char} {ts : List Token}
    (h : Splits l cs ts l' rest) : ∀ t ∈ ts, t.IsLexeme := fun t ht =>
  (wellFormed_of_splits h t ht).isLexeme

/-- The source text of a well-formed token is scanned as the token alone. -/
theorem WellFormed.scan_source {t : Token} (h : t.WellFormed) (hstart : t.location = .start) :
    ∃ l, scan (String.ofList t.source) = .ok [Token.first, t, endAt l] := by
  have hmunched : Munched t.kind t.source [] := h.munched rfl
  have htoken := scanFrom_token hmunched .start
  rw [List.append_nil, h.keeps, ← hstart] at htoken
  refine ⟨t.location.after t.source, ?_⟩
  rw [scan, String.toList_ofList, ← hstart, htoken]
  rfl

/-- The text of lexemes splits into their source texts. -/
theorem splits_write {ts : List Token} (h : ∀ t ∈ ts, t.IsLexeme) (l : Location) :
    ∃ us l', Splits l (write ts) us l' [] ∧ us.map unplaced = ts.map unplaced := by
  have hblank : Text.isBlank ' ' = true := rfl
  induction ts generalizing l with
  | nil => exact ⟨[], l, .blanks (w := []) nofun, rfl⟩
  | cons t ts ih =>
      obtain ⟨ht, hts⟩ := List.forall_mem_cons.mp h
      obtain ⟨us, l', hsplits, hus⟩ := ih hts ((l.after t.source).advance ' ')
      have hwrite : write (t :: ts) = t.source ++ ' ' :: write ts := by
        simp [write]
      have htoken := Splits.token (l := l) (w := []) nofun (ht.munched (write ts))
        (hsplits.cons_blank hblank)
      refine ⟨_, l', hwrite ▸ htoken, ?_⟩
      rw [List.map_cons, hus, ht.keeps]
      rfl

end Token

end PocketC
