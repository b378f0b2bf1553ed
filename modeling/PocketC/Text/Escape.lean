/-
  PocketC.Text.Escape

  Backslash escapes.  `decode` reads the text between the quotes of a literal;
  `quote` writes a text so that it fits on one line of a journal.
-/

namespace PocketC.Text

/-! ## Reading -/

/-- What a character stands for right after a backslash. -/
def escapeMeaning : Char → Option Char
  | 'n' => some '\n'
  | 't' => some '\t'
  | 'r' => some '\r'
  | '0' => some '\x00'
  | '\\' => some '\\'
  | '"' => some '"'
  | '\'' => some '\''
  | _ => none

/-- The text that a literal's raw text stands for; `none` if a backslash is
    followed by nothing or by a character that has no meaning there. -/
def decode : List Char → Option (List Char)
  | [] => some []
  | '\\' :: [] => none
  | '\\' :: c :: rest => do
      let meant ← escapeMeaning c
      let others ← decode rest
      return meant :: others
  | c :: rest => (decode rest).map (c :: ·)

/-! ## Writing -/

/-- How one character is written inside a quoted text: the usual five escapes
    and the two quoting characters, a control character by its code point, all
    others as they are. -/
def quoteChar (c : Char) : List Char :=
  match c with
  | '\n' => ['\\', 'n']
  | '\t' => ['\\', 't']
  | '\r' => ['\\', 'r']
  | '\x00' => ['\\', '0']
  | '\\' => ['\\', '\\']
  | '"' => ['\\', '"']
  | c =>
    if c.toNat < 0x20 ∨ (0x7f ≤ c.toNat ∧ c.toNat < 0xa0) then
      ['\\', 'u', '{'] ++ Nat.toDigits 16 c.toNat ++ ['}']
    else [c]

/-- A text in double quotes, on one line. -/
def quote (s : String) : String :=
  String.ofList ('"' :: s.toList.flatMap quoteChar ++ ['"'])

end PocketC.Text
