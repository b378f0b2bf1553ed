/-
  PocketC.Token.Kind

  The kinds of token.  Keywords, operators and punctuation have one fixed
  spelling each; the other kinds are classes of texts, or the two ends of a
  token list.  Type names such as `int` or `void` are plain identifiers.
-/

namespace PocketC

/-- What sort of token it is. -/
inductive Kind where
  -- the two ends
  | startOfInput | endOfInput
  -- literals and names
  | intLiteral | stringLiteral | charLiteral | identifier | intrinsic
  -- keywords
  | kwIf | kwElse | kwWhile | kwFor | kwReturn | kwBreak | kwContinue
  -- operators
  | plus | minus | star | slash | percent
  | less | greater | lessEq | greaterEq | equal | notEqual | assign
  -- punctuation
  | openParen | closeParen | openBrace | closeBrace | openBracket | closeBracket
  | comma | semicolon
deriving DecidableEq, Inhabited

namespace Kind

/-- The spelling of a keyword, an operator or a punctuation mark; `none` for the
    kinds whose tokens differ in their text. -/
def spelling? : Kind → Option (List Char)
  | .kwIf => some ['i', 'f']
  | .kwElse => some ['e', 'l', 's', 'e']
  | .kwWhile => some ['w', 'h', 'i', 'l', 'e']
  | .kwFor => some ['f', 'o', 'r']
  | .kwReturn => some ['r', 'e', 't', 'u', 'r', 'n']
  | .kwBreak => some ['b', 'r', 'e', 'a', 'k']
  | .kwContinue => some ['c', 'o', 'n', 't', 'i', 'n', 'u', 'e']
  | .plus => some ['+']
  | .minus => some ['-']
  | .star => some ['*']
  | .slash => some ['/']
  | .percent => some ['%']
  | .less => some ['<']
  | .greater => some ['>']
  | .lessEq => some ['<', '=']
  | .greaterEq => some ['>', '=']
  | .equal => some ['=', '=']
  | .notEqual => some ['!', '=']
  | .assign => some ['=']
  | .openParen => some ['(']
  | .closeParen => some [')']
  | .openBrace => some ['{']
  | .closeBrace => some ['}']
  | .openBracket => some ['[']
  | .closeBracket => some [']']
  | .comma => some [',']
  | .semicolon => some [';']
  | .startOfInput | .endOfInput | .intLiteral | .stringLiteral | .charLiteral
  | .identifier | .intrinsic => none

/-- The spelling as a text, empty for the kinds that have none. -/
def spelling (k : Kind) : String := String.ofList (k.spelling?.getD [])

/-- How messages name a kind. -/
def describe : Kind → String
  | .endOfInput => "end of input"
  | .startOfInput => "beginning of input"
  | .intLiteral => "int literal"
  | .stringLiteral => "string literal"
  | .charLiteral => "char literal"
  | .identifier => "identifier"
  | .intrinsic => "intrinsic"
  | k => "'" ++ k.spelling ++ "'"

end Kind

end PocketC
