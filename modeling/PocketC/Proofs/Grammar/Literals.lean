/-
  PocketC.Proofs.Grammar.Literals

  Literals, from what they stand for to a source text and from there to a tree.  The scan
  finds where a quoted text ends by passing over pairs that begin with a backslash, and the
  decoding reads the same pairs as escapes; `Shape.Quotable` is what the two agree on.  A
  text that spells some characters is quotable, so it is scanned as one token whose raw text
  decodes to those characters, and that token alone derives its literal.
-/

import PocketC.Proofs.Grammar.Prompt.Expr
import PocketC.Proofs.Text.Spelling

namespace PocketC

/-! ## Tokens of literals -/

/-- Whether the tokens of the kind are literals. -/
def Kind.isLiteral : Kind → Bool
  | .intLiteral | .stringLiteral | .charLiteral => true
  | _ => false

namespace Grammar

open Parse

/-- The literal that a token stands for, if its text has a meaning. -/
def literalOf (t : Token) : Option Expr :=
  match t.kind with
  | .intLiteral => (intMeaning t.text).map (.int · t.location)
  | .stringLiteral => (stringMeaning t.text).map (.string · t.location)
  | .charLiteral => (charMeaning t.text).map (.char · t.location)
  | _ => none

/-- A literal without a meaning. -/
def unreadable (t : Token) : ParseError := ⟨.unreadableLiteral t.kind t.text, t.location⟩

variable {t : Token} {e : Expr}

theorem derives_of_literalOf (h : literalOf t = some e) : Derives (.expr .value e) [t] := by
  unfold literalOf at h
  split at h
  case h_1 hk =>
    obtain ⟨n, hn, rfl⟩ := Option.map_eq_some_iff.mp h
    exact .int hk hn
  case h_2 hk =>
    obtain ⟨s, hs, rfl⟩ := Option.map_eq_some_iff.mp h
    exact .string hk hs
  case h_3 hk =>
    obtain ⟨c, hc, rfl⟩ := Option.map_eq_some_iff.mp h
    exact .char hk hc
  case h_4 => cases h

/-- Wherever a value is read, a literal is read at once or is reported. -/
theorem value_of_isLiteral (ht : t.kind.isLiteral = true) (expr : Parse Expr) (bound : Nat)
    (q : Parser) :
    value expr bound (q.prepend [t]) = match literalOf t with
      | some e => .ok e q
      | none => .error (unreadable t) q := by
  rw [value_eq, Parser.next_prepend_cons]
  cases hk : t.kind with
  | intLiteral =>
      simp only [literalOf, unreadable, hk, literal_prepend q hk]
      cases intMeaning t.text <;> rfl
  | stringLiteral =>
      simp only [literalOf, unreadable, hk, literal_prepend q hk]
      cases stringMeaning t.text <;> rfl
  | charLiteral =>
      simp only [literalOf, unreadable, hk, literal_prepend q hk]
      cases charMeaning t.text <;> rfl
  | _ =>
      rw [hk] at ht
      cases ht

/-! ## A source text that is one expression -/

/-- Reads an expression between the two ends of the input. -/
def wholeExpression : Parse Expr := do
  let _ ← expect .startOfInput
  let bound ← tokensLeft
  let e ← expression bound
  let _ ← expect .endOfInput
  return e

/-- The expression that a row of tokens is. -/
def readExpression (ts : List Token) : Except ParseError Expr :=
  match wholeExpression (.ofCursor (.ofTokens ts)) with
  | .ok e _ => .ok e
  | .error e _ => .error e

theorem tier_error {operator : Kind → Option BinaryOp} {bound : Nat} {operand : Parse Expr}
    {p q : Parser} {err : ParseError} (h : operand p = .error err q) :
    tier operator bound operand p = .error err q := by
  rw [tier, bind_apply, h]

theorem expression_of_literal_error (ht : t.kind.isLiteral = true) (hnone : literalOf t = none)
    (b : Nat) (q : Parser) : expression (b + 1) (q.prepend [t]) = .error (unreadable t) q := by
  have hident : (q.prepend [t]).next ≠ .identifier := by
    rw [Parser.next_prepend_cons]
    intro hk
    rw [hk] at ht
    cases ht
  have hminus : (q.prepend [t]).next ≠ .minus := by
    rw [Parser.next_prepend_cons]
    intro hk
    rw [hk] at ht
    cases ht
  have hvalue : value (expression b) (b + 1) (q.prepend [t]) = .error (unreadable t) q := by
    rw [value_of_isLiteral ht, hnone]
  rw [expression_other hident, equality]
  refine tier_error (tier_error (tier_error (tier_error ?_)))
  rw [unary_value (b + 1) hminus, hvalue]

/-- A literal alone between the ends of the input is read as what it stands for, or reported. -/
theorem readExpression_literal (ht : t.kind.isLiteral = true) (l : Location) :
    readExpression [Token.first, t, Token.endAt l] = match literalOf t with
      | some e => .ok e
      | none => .error (unreadable t) := by
  let q : Parser := .ofCursor ⟨[Token.endAt l], l⟩
  have hstart : Parser.ofCursor (.ofTokens [Token.first, t, Token.endAt l]) =
      q.prepend [Token.first, t] := rfl
  have hbegin : wholeExpression (q.prepend [Token.first, t]) =
      (do let e ← expression 2; let _ ← expect .endOfInput; return e) (q.prepend [t]) := by
    rw [wholeExpression, bind_ok (expect_prepend (k := .startOfInput) [t] rfl)]
    rfl
  rw [readExpression, hstart, hbegin]
  cases h : literalOf t with
  | some e =>
      have hread : expression 2 (q.prepend [t]) = .ok e q :=
        expression_complete (derives_of_literalOf h).ofValue rfl (Nat.le_refl _)
      rw [bind_ok hread]
      rfl
  | none => rw [bind_apply, expression_of_literal_error ht h]

end Grammar

/-! ## Meanings -/

open Text (Spells BadEscape placeValue)

/-- The raw text of a quoted token stands for nothing, or, in a char literal, for more or less
    than one character. -/
def Token.Meaningless (t : Token) : Prop :=
  BadEscape t.text.toList ∨
    t.kind = .charLiteral ∧ ∃ cs, Spells '\'' cs t.text.toList ∧ cs.length ≠ 1

namespace Grammar

theorem stringMeaning_of_spells {s : String} {raw : List Char} (h : Spells '"' s.toList raw) :
    stringMeaning (String.ofList raw) = some s := by
  rw [stringMeaning, String.toList_ofList, h.decode, Option.map_some, String.ofList_toList]

theorem charMeaning_of_spells {c : Char} {raw : List Char} (h : Spells '\'' [c] raw) :
    charMeaning (String.ofList raw) = some c := by
  rw [charMeaning, String.toList_ofList, h.decode]

/-- A row of digits means its number as long as a word has it. -/
theorem intMeaning_digits {x : List Char} (hne : x ≠ [])
    (hx : ∀ c ∈ x, Text.isDigit c = true) :
    intMeaning (String.ofList x) =
      if placeValue x ≤ 2 ^ 31 - 1 then some (placeValue x : Int) else none := by
  rw [intMeaning, String.toList_ofList, Text.readWord?_digits hne hx,
    Text.digitsValue_eq_placeValue, word?]
  have hfits : FitsWord (placeValue x) ↔ placeValue x ≤ 2 ^ 31 - 1 := by
    unfold FitsWord minWord maxWord
    omega
  simp only [hfits]

theorem stringMeaning_eq_none_iff {x : String} (hx : Shape.Quotable '"' x.toList) :
    stringMeaning x = none ↔ BadEscape x.toList := by
  rw [stringMeaning, Option.map_eq_none_iff, Text.decode_eq_none_iff hx]

theorem charMeaning_eq_none_iff {x : String} (hx : Shape.Quotable '\'' x.toList) :
    charMeaning x = none ↔
      BadEscape x.toList ∨ ∃ cs, Spells '\'' cs x.toList ∧ cs.length ≠ 1 := by
  rw [charMeaning]
  cases h : Text.decode x.toList with
  | none => exact ⟨fun _ => .inl ((Text.decode_eq_none_iff hx).mp h), fun _ => rfl⟩
  | some cs =>
      have hgood : ¬ BadEscape x.toList := by
        rw [← Text.decode_eq_none_iff hx, h]
        exact Option.some_ne_none cs
      have hspells : ∀ ds, Spells '\'' ds x.toList ↔ ds = cs := by
        intro ds
        rw [← Text.decode_eq_some_iff hx, h, Option.some.injEq]
        exact eq_comm
      simp only [hgood, false_or, hspells, exists_eq_left]
      rcases cs with _ | ⟨c, _ | ⟨d, cs⟩⟩
      · exact ⟨fun _ => Nat.zero_ne_one, fun _ => rfl⟩
      · exact ⟨fun hnone => absurd hnone (Option.some_ne_none c), fun hne => absurd rfl hne⟩
      · exact ⟨fun _ => by simp, fun _ => rfl⟩

/-- A quoted token has no meaning in just these cases. -/
theorem literalOf_eq_none_iff {t : Token} (hwell : t.WellFormed)
    (ht : t.kind = .stringLiteral ∨ t.kind = .charLiteral) :
    literalOf t = none ↔ t.Meaningless := by
  unfold Token.Meaningless
  cases hwell with
  | @string x l hraw =>
      have hmeaning : literalOf ⟨.stringLiteral, some x, l⟩ = none ↔ stringMeaning x = none :=
        Option.map_eq_none_iff
      rw [hmeaning, stringMeaning_eq_none_iff hraw]
      simp [Token.text]
  | @char x l hraw =>
      have hmeaning : literalOf ⟨.charLiteral, some x, l⟩ = none ↔ charMeaning x = none :=
        Option.map_eq_none_iff
      rw [hmeaning, charMeaning_eq_none_iff hraw]
      simp [Token.text]
  | mark hk =>
      exfalso
      rcases ht with rfl | rfl <;> cases hk
  | name | number | printf => rcases ht with ht | ht <;> cases ht

end Grammar

/-! ## From the value to the source text and to the tree -/

/-- The source text is scanned as the one token, and reading it as an expression ends so. -/
def ReadsAs (source : List Char) (t : Token) (r : Except ParseError Expr) : Prop :=
  ∃ l, Token.scan (String.ofList source) = .ok [Token.first, t, Token.endAt l] ∧
    Grammar.readExpression [Token.first, t, Token.endAt l] = r

/-- The source text of a well-formed literal is read as what the literal stands for. -/
theorem readsAs_literal {t : Token} (hwell : t.WellFormed) (hstart : t.location = .start)
    (ht : t.kind.isLiteral = true) :
    ReadsAs t.source t (match Grammar.literalOf t with
      | some e => .ok e
      | none => .error (Grammar.unreadable t)) := by
  obtain ⟨l, hscan⟩ := hwell.scan_source hstart
  exact ⟨l, hscan, Grammar.readExpression_literal ht l⟩

theorem readsAs_string {s : String} {raw : List Char} (h : Spells '"' s.toList raw) :
    ReadsAs ('"' :: raw ++ ['"']) ⟨.stringLiteral, some (String.ofList raw), .start⟩
      (.ok (.string s .start)) := by
  let t : Token := ⟨.stringLiteral, some (String.ofList raw), .start⟩
  have hwell : t.WellFormed := .string (by rw [String.toList_ofList]; exact h.quotable)
  have hsource : t.source = '"' :: raw ++ ['"'] := by
    simp [t, Token.source, Token.text]
  have hmeaning : Grammar.literalOf t = some (.string s .start) :=
    congrArg (Option.map _) (Grammar.stringMeaning_of_spells h)
  have hread := readsAs_literal hwell rfl rfl
  rwa [hsource, hmeaning] at hread

theorem readsAs_char {c : Char} {raw : List Char} (h : Spells '\'' [c] raw) :
    ReadsAs ('\'' :: raw ++ ['\'']) ⟨.charLiteral, some (String.ofList raw), .start⟩
      (.ok (.char c .start)) := by
  let t : Token := ⟨.charLiteral, some (String.ofList raw), .start⟩
  have hwell : t.WellFormed := .char (by rw [String.toList_ofList]; exact h.quotable)
  have hsource : t.source = '\'' :: raw ++ ['\''] := by
    simp [t, Token.source, Token.text]
  have hmeaning : Grammar.literalOf t = some (.char c .start) :=
    congrArg (Option.map _) (Grammar.charMeaning_of_spells h)
  have hread := readsAs_literal hwell rfl rfl
  rwa [hsource, hmeaning] at hread

theorem readsAs_int {x : List Char} (hne : x ≠ []) (hx : ∀ c ∈ x, Text.isDigit c = true) :
    ReadsAs x ⟨.intLiteral, some (String.ofList x), .start⟩
      (if placeValue x ≤ 2 ^ 31 - 1 then .ok (.int (placeValue x) .start)
        else .error ⟨.unreadableLiteral .intLiteral (String.ofList x), .start⟩) := by
  let t : Token := ⟨.intLiteral, some (String.ofList x), .start⟩
  have hwell : t.WellFormed :=
    .number (by rwa [String.toList_ofList]) (by rwa [String.toList_ofList])
  have hsource : t.source = x := String.toList_ofList
  have hmeaning : Grammar.literalOf t = Option.map (.int · .start)
      (if placeValue x ≤ 2 ^ 31 - 1 then some (placeValue x : Int) else none) :=
    congrArg (Option.map _) (Grammar.intMeaning_digits hne hx)
  have hread := readsAs_literal hwell rfl rfl
  rw [hsource, hmeaning] at hread
  by_cases hfits : placeValue x ≤ 2 ^ 31 - 1
  · rw [if_pos hfits] at hread ⊢
    exact hread
  · rw [if_neg hfits] at hread ⊢
    exact hread

/-- Literals come back from their source texts.

    A text in double quotes, or a character in single quotes, with any spelling, of which there is
    one for every text, is one token and is read as the literal of that text or character.  A row of
    digits is one token, and it is read as its number, or reported with its text and place if that
    number is beyond the greatest word.  And wherever a value is read, a quoted token of any source
    text is reported with its text and place just if it has no meaning: if a backslash in it that is
    not itself escaped begins no escape, or if in single quotes it stands for more or less than one
    character. -/
theorem literals_read_back :
    (∀ (s : String) (raw : List Char), Spells '"' s.toList raw →
      ReadsAs ('"' :: raw ++ ['"']) ⟨.stringLiteral, some (String.ofList raw), .start⟩
        (.ok (.string s .start))) ∧
    (∀ (c : Char) (raw : List Char), Spells '\'' [c] raw →
      ReadsAs ('\'' :: raw ++ ['\'']) ⟨.charLiteral, some (String.ofList raw), .start⟩
        (.ok (.char c .start))) ∧
    (∀ mark, mark = '"' ∨ mark = '\'' → ∀ cs, ∃ raw, Spells mark cs raw) ∧
    (∀ x : List Char, x ≠ [] → (∀ c ∈ x, Text.isDigit c = true) →
      ReadsAs x ⟨.intLiteral, some (String.ofList x), .start⟩
        (if placeValue x ≤ 2 ^ 31 - 1 then .ok (.int (placeValue x) .start)
          else .error ⟨.unreadableLiteral .intLiteral (String.ofList x), .start⟩)) ∧
    ∀ source ts, Token.scan source = .ok ts → ∀ t ∈ ts,
      t.kind = .stringLiteral ∨ t.kind = .charLiteral →
      ∀ (expr : Parse Expr) (bound : Nat) (q : Parser),
        (Grammar.value expr bound (q.prepend [t]) =
            .error ⟨.unreadableLiteral t.kind t.text, t.location⟩ q ↔ t.Meaningless) ∧
          (¬ t.Meaningless → ∃ e, Grammar.value expr bound (q.prepend [t]) = .ok e q) := by
  refine ⟨fun s raw => readsAs_string, fun c raw => readsAs_char,
    fun mark hmark cs => Text.exists_spells hmark cs, fun x => readsAs_int, ?_⟩
  intro source ts hscan t ht hquoted expr bound q
  obtain ⟨us, l, rfl, hsplits⟩ := Token.splits_of_scan hscan
  have hwell : t.WellFormed := by
    refine Token.wellFormed_of_splits hsplits t ?_
    -- the two ends of the input are not quoted
    simp only [List.cons_append, List.mem_cons, List.mem_append, List.not_mem_nil, or_false] at ht
    rcases ht with rfl | ht | rfl
    · rcases hquoted with hk | hk <;> cases hk
    · exact ht
    · rcases hquoted with hk | hk <;> cases hk
  have hliteral : t.kind.isLiteral = true := by
    rcases hquoted with hk | hk <;> rw [hk] <;> rfl
  rw [Grammar.value_of_isLiteral hliteral, ← Grammar.literalOf_eq_none_iff hwell hquoted]
  cases Grammar.literalOf t with
  | none => exact ⟨⟨fun _ => rfl, fun _ => rfl⟩, fun hsome => absurd rfl hsome⟩
  | some e => exact ⟨⟨nofun, nofun⟩, fun _ => ⟨e, rfl⟩⟩

/-- A string that ends in an escaped backslash, the single quote in its own quotes, a line feed,
    a number with zeros in front, and two characters in single quotes. -/
theorem literals_read_back_backslashes :
    ReadsAs ['"', 'q', '\\', '\\', '"'] ⟨.stringLiteral, some "q\\\\", .start⟩
        (.ok (.string "q\\" .start)) ∧
      ReadsAs ['\'', '\\', '\'', '\''] ⟨.charLiteral, some "\\'", .start⟩
        (.ok (.char '\'' .start)) ∧
      (∃ raw, Spells '"' ['\n'] raw) ∧
      ReadsAs ['0', '0', '7'] ⟨.intLiteral, some "007", .start⟩ (.ok (.int 7 .start)) ∧
      Grammar.value (Grammar.expression 0) 1
          (Parser.prepend (.ofCursor ⟨[], .start⟩) [⟨.charLiteral, some "ab", .start⟩]) =
        .error ⟨.unreadableLiteral .charLiteral "ab", .start⟩ (.ofCursor ⟨[], .start⟩) := by
  obtain ⟨hstring, hchar, hexists, hint, hquoted⟩ := literals_read_back
  refine ⟨?_, ?_, hexists '"' (.inl rfl) ['\n'], ?_, ?_⟩
  · refine hstring "q\\" ['q', '\\', '\\'] ?_
    exact .plain (by decide) (by decide) (by decide) (.escaped (by decide) .nil)
  · exact hchar '\'' ['\\', '\''] (.escaped (by decide) .nil)
  · exact hint ['0', '0', '7'] (by decide) (List.all_eq_true.mp rfl)
  · have hscan : Token.scan "'ab'" = .ok [Token.first, ⟨.charLiteral, some "ab", .start⟩,
        Token.endAt ⟨1, 5⟩] := rfl
    have hspells : Spells '\'' ['a', 'b'] ['a', 'b'] :=
      .plain (by decide) (by decide) (by decide) (.plain (by decide) (by decide) (by decide) .nil)
    refine (hquoted _ _ hscan _ (by simp) (.inr rfl) _ _ _).1.mpr ?_
    exact .inr ⟨rfl, ['a', 'b'], hspells, by decide⟩

end PocketC
