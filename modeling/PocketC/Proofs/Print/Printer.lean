/-
  PocketC.Proofs.Print.Printer

  Printing programs as source texts.  A tree is printed as a row of tokens at no place in
  particular, and the tokens as their source texts with a space behind each.

  An expression that is an operand, an index, an argument or an initial value is in
  parentheses unless it is a value by itself, and so is an expression that is a
  statement.  Characters with an escape are escaped, an `else` with nothing in it is left
  out, the declarations and assignments of a group are one chain of declarators, and the
  declaration in front of a definition is left out.
-/

import PocketC.Proofs.Grammar.Derivation
import PocketC.Tree.Stmt

namespace PocketC

/-! ## Texts of literals -/

namespace Text

/-- How a character is written between quotes. -/
def escapeChar : Char → List Char
  | '\n' => ['\\', 'n']
  | '\t' => ['\\', 't']
  | '\r' => ['\\', 'r']
  | '\x00' => ['\\', '0']
  | '\\' => ['\\', '\\']
  | '"' => ['\\', '"']
  | '\'' => ['\\', '\'']
  | c => [c]

/-- How a text is written between quotes. -/
def escape (cs : List Char) : String := String.ofList (cs.flatMap escapeChar)

end Text

/-! ## Tokens and their texts -/

namespace Token

/-- A token whose kind tells its text. -/
def mark (k : Kind) : Token := ⟨k, none, .start⟩

/-- A name. -/
def name (s : String) : Token := ⟨.identifier, some s, .start⟩

/-- The source text of a token. -/
def source (t : Token) : List Char :=
  match t.kind with
  | .stringLiteral => '"' :: t.text.toList ++ ['"']
  | .charLiteral => '\'' :: t.text.toList ++ ['\'']
  | .intLiteral | .identifier | .intrinsic => t.text.toList
  | k => k.spelling?.getD []

/-- The source texts of the tokens, with a space behind each. -/
def write (ts : List Token) : List Char := ts.flatMap fun t => t.source ++ [' ']

/-- Rows of tokens with commas between them. -/
def separated : List (List Token) → List Token
  | [] => []
  | [w] => w
  | v :: w :: ws => v ++ mark .comma :: separated (w :: ws)

/-- The tokens in parentheses. -/
def inParens (w : List Token) : List Token := mark .openParen :: w ++ [mark .closeParen]

end Token

/-! ## Expressions -/

namespace Expr

open Token

/-- Whether the expression is a value without parentheses around it. -/
def isAtom : Expr → Bool
  | .binary .. | .negate .. | .assign .. | .assignElement .. => false
  | _ => true

/-- The tokens of an expression where there has to be a value. -/
def enclose (e : Expr) (tokens : List Token) : List Token :=
  if e.isAtom then tokens else inParens tokens

mutual

/-- The tokens of an expression. -/
def tokens : Expr → List Token
  | .int n _ => [⟨.intLiteral, some (Text.decimal n), .start⟩]
  | .char c _ => [⟨.charLiteral, some (Text.escape [c]), .start⟩]
  | .string s _ => [⟨.stringLiteral, some (Text.escape s.toList), .start⟩]
  | .var n _ => [name n]
  | .binary op left right _ =>
      left.enclose (tokens left) ++ mark op.kind :: right.enclose (tokens right)
  | .negate e _ => mark .minus :: e.enclose (tokens e)
  | .assign n value _ => name n :: mark .assign :: value.enclose (tokens value)
  | .assignElement n index value _ =>
      name n :: mark .openBracket :: index.enclose (tokens index) ++
        mark .closeBracket :: mark .assign :: value.enclose (tokens value)
  | .call n args _ => name n :: inParens (separated (operands args))
  | .array elements _ =>
      mark .openBrace :: separated (operands elements) ++ [mark .closeBrace]
  | .element n index _ =>
      name n :: mark .openBracket :: index.enclose (tokens index) ++ [mark .closeBracket]

/-- The tokens of expressions where there have to be values. -/
def operands : List Expr → List (List Token)
  | [] => []
  | e :: es => e.enclose (tokens e) :: operands es

end

/-- The tokens of an expression where there has to be a value. -/
def operand (e : Expr) : List Token := e.enclose e.tokens

theorem operands_eq_map (es : List Expr) : operands es = es.map operand := by
  induction es with
  | nil => rfl
  | cons e es ih => rw [operands, ih, List.map_cons, operand]

end Expr

/-! ## Statements -/

namespace Stmt

open Token

/-- Whether the type is that of an array. -/
def isArrayType (type : String) : Bool := ['[', ']'].isSuffixOf type.toList

/-- The type that stands in front of a declarator. -/
def elementType (type : String) : String :=
  if isArrayType type then String.ofList (type.toList.take (type.toList.length - 2)) else type

/-- The brackets behind a name of that type. -/
def brackets (type : String) : List Token :=
  if isArrayType type then [mark .openBracket, mark .closeBracket] else []

/-- What stands behind a declared name. -/
def suffix (type : String) : (size : Option Expr) → List Token
  | none => brackets type
  | some e => mark .openBracket :: e.operand ++ [mark .closeBracket]

/-- The declarators of a group, each with the assignment that is right behind it. -/
def declarators : List Stmt → List (List Token)
  | .declareVar n type size _ :: .expression (.assign _ value _) :: ss =>
      (name n :: suffix type size ++ mark .assign :: value.operand) :: declarators ss
  | .declareVar n type size _ :: ss => (name n :: suffix type size) :: declarators ss
  | _ :: ss => declarators ss
  | [] => []

/-- A chain of declarators behind the type that they share. -/
def chain : List Stmt → List Token
  | [] => []
  | .declareVar n type size l :: ss =>
      name (elementType type) :: separated (declarators (.declareVar n type size l :: ss))
  | _ :: ss => chain ss

/-- A parameter. -/
def param (p : Param) : List Token := name (elementType p.type) :: name p.name :: brackets p.type

/-- The signature of a function. -/
def signature (n result : String) (params : List Param) : List Token :=
  name result :: name n :: inParens (separated (params.map param))

/-- The tokens of a statement up to its `;`. -/
def clause : Stmt → List Token
  | .breakLoop _ => [mark .kwBreak]
  | .continueLoop _ => [mark .kwContinue]
  | .returnValue none _ => [mark .kwReturn]
  | .returnValue (some e) _ => mark .kwReturn :: e.tokens
  | .intrinsic n args _ =>
      ⟨.intrinsic, some n, .start⟩ :: inParens (separated (Expr.operands args))
  | .expression e => inParens e.tokens
  | .declareFun n result params _ => signature n result params
  | .declareVar n type size l => chain [.declareVar n type size l]
  | .group ss => chain ss
  | _ => []

mutual

/-- The tokens of a statement. -/
def tokens : Stmt → List Token
  | .block body _ => mark .openBrace :: tokensAll body ++ [mark .closeBrace]
  | .group (.declareFun .. :: definitions) => tokensAll definitions
  | .defineFun n result params body _ =>
      signature n result params ++ mark .openBrace :: (tokensAll body ++ [mark .closeBrace])
  | .ifElse c yes (.group []) _ => mark .kwIf :: inParens c.tokens ++ tokens yes
  | .ifElse c yes no _ =>
      mark .kwIf :: inParens c.tokens ++ (tokens yes ++ mark .kwElse :: tokens no)
  | .whileLoop c body _ => mark .kwWhile :: inParens c.tokens ++ tokens body
  | .forLoop init c step body _ =>
      mark .kwFor :: mark .openParen :: (init.clause ++ mark .semicolon :: (c.tokens ++
        mark .semicolon :: (step.tokens ++ mark .closeParen :: tokens body)))
  | s => s.clause ++ [mark .semicolon]

/-- The tokens of statements. -/
def tokensAll : List Stmt → List Token
  | [] => []
  | s :: ss => tokens s ++ tokensAll ss

end

end Stmt

/-- The program as a source text. -/
def Program.print (p : Program) : String := String.ofList (Token.write (Stmt.tokensAll p.nodes))

end PocketC
