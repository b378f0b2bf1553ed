/-
  PocketC.Token.Shape

  What the source text of a token looks like.  A shape says how many characters
  at the front of a text it takes; the table lists the shapes in the order in
  which they are tried, and the first that takes anything wins.
  Operators of two characters stand before their first character alone, and
  keywords before names.
-/

import PocketC.Text.Numeral
import PocketC.Token.Kind

namespace PocketC

/-! ## Characters of names -/

/-- A character that a name may begin with. -/
def isNameStart (c : Char) : Bool :=
  (decide ('a' ≤ c) && decide (c ≤ 'z')) || (decide ('A' ≤ c) && decide (c ≤ 'Z')) || c == '_'

/-- A character that a name may go on with. -/
def isNameChar (c : Char) : Bool := isNameStart c || Text.isDigit c

/-! ## Shapes -/

/-- The shape of a token's source text. -/
inductive Shape where
  /-- this text, whatever follows -/
  | fixed (text : List Char)
  /-- this text, not followed by a character of a name -/
  | word (text : List Char)
  /-- a row of digits -/
  | digits
  /-- a name -/
  | name
  /-- a text of one line between two equal quotes, in which a backslash protects
      the character after it -/
  | quoted (mark : Char)
deriving DecidableEq

namespace Shape

/-- How many characters it takes to get past the closing quote, right after the
    opening one; `none` if the line or the text ends before it. -/
def closing (mark : Char) : List Char → Option Nat
  | [] => none
  | '\\' :: [] => none
  | '\\' :: c :: rest => if c = '\n' then none else (closing mark rest).map (· + 2)
  | c :: rest =>
    if c = '\n' then none
    else if c = mark then some 1
    else (closing mark rest).map (· + 1)

/-- How many characters at the front of a text the shape takes, if any. -/
def length? : Shape → List Char → Option Nat
  | .fixed text, cs => if text.isPrefixOf cs then some text.length else none
  | .word text, cs =>
    if text.isPrefixOf cs && !((cs.drop text.length).head?.any isNameChar) then some text.length
    else none
  | .digits, cs =>
    let n := (cs.takeWhile Text.isDigit).length
    if n = 0 then none else some n
  | .name, cs =>
    if cs.head?.any isNameStart then some (cs.takeWhile isNameChar).length else none
  | .quoted mark, cs =>
    match cs with
    | [] => none
    | c :: rest => if c = mark then (closing mark rest).map (· + 1) else none

/-- A kind with the shape that takes exactly its spelling. -/
def spelled (k : Kind) : Kind × Shape := (k, .fixed (k.spelling?.getD []))

/-- A kind with the shape that takes its spelling as a whole word. -/
def reserved (k : Kind) : Kind × Shape := (k, .word (k.spelling?.getD []))

/-- The one name that is a token kind of its own. -/
def printfName : List Char := ['p', 'r', 'i', 'n', 't', 'f']

/-- All shapes, in the order in which they are tried. -/
def table : List (Kind × Shape) :=
  [(.stringLiteral, .quoted '"'), (.charLiteral, .quoted '\''), (.intLiteral, .digits)] ++
  [Kind.openParen, .closeParen, .plus, .minus, .slash, .star, .percent, .greaterEq, .lessEq,
    .less, .greater, .equal, .notEqual, .assign, .comma].map spelled ++
  [Kind.kwWhile, .kwFor, .kwIf, .kwElse].map reserved ++
  [(.intrinsic, .word printfName)] ++
  [Kind.kwReturn, .kwBreak, .kwContinue].map reserved ++
  [(.identifier, .name)] ++
  [Kind.semicolon, .openBrace, .closeBrace, .openBracket, .closeBracket].map spelled

/-- The kind and the length of the first shape in a table that takes
    something at the front of `cs`. -/
def firstIn (cs : List Char) (shapes : List (Kind × Shape)) : Option (Kind × Nat) :=
  shapes.findSome? fun (k, p) => (p.length? cs).map (k, ·)

/-- The token at the front of a text: its kind and how many characters it has. -/
def first? (cs : List Char) : Option (Kind × Nat) := firstIn cs table

/-! ## No shape takes nothing -/

/-- Whether a shape asks for a text that has characters. -/
def hasText : Shape → Bool
  | .fixed text | .word text => !text.isEmpty
  | _ => true

theorem hasText_table : ∀ e ∈ table, e.2.hasText = true := by decide

theorem closing_pos {mark : Char} {cs : List Char} {n : Nat} (h : closing mark cs = some n) :
    0 < n := by
  fun_induction closing mark cs generalizing n with
  | case1 => cases h
  | case2 => cases h
  | case3 => cases h
  | case4 _ _ _ ih =>
    obtain ⟨m, _, rfl⟩ := Option.map_eq_some_iff.1 h
    omega
  | case5 => cases h
  | case6 => cases h; omega
  | case7 _ _ _ _ _ ih =>
    obtain ⟨m, _, rfl⟩ := Option.map_eq_some_iff.1 h
    omega

theorem length?_pos {s : Shape} {cs : List Char} {n : Nat} (hs : s.hasText = true)
    (h : s.length? cs = some n) : 0 < n := by
  cases s with
  | fixed text =>
    simp only [length?] at h
    split at h <;> cases h
    simpa [hasText, List.length_pos_iff] using hs
  | word text =>
    simp only [length?] at h
    split at h <;> cases h
    simpa [hasText, List.length_pos_iff] using hs
  | digits =>
    simp only [length?] at h
    split at h <;> cases h
    omega
  | name =>
    simp only [length?] at h
    split at h <;> cases h
    cases cs with
    | nil => simp_all
    | cons c cs =>
      have hc : isNameChar c = true := by simp_all [isNameChar]
      simp [hc]
  | quoted mark =>
    cases cs with
    | nil => cases h
    | cons c cs =>
      simp only [length?] at h
      split at h
      · obtain ⟨m, _, rfl⟩ := Option.map_eq_some_iff.1 h
        omega
      · cases h

/-- A token has at least one character. -/
theorem first?_pos {cs : List Char} {k : Kind} {n : Nat} (h : first? cs = some (k, n)) :
    0 < n := by
  obtain ⟨e, he, hn⟩ := List.exists_of_findSome?_eq_some h
  obtain ⟨m, hm, hkn⟩ := Option.map_eq_some_iff.1 hn
  cases hkn
  exact length?_pos (hasText_table e he) hm

end Shape

end PocketC
