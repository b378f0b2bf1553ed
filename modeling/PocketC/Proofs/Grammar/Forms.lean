/-
  PocketC.Proofs.Grammar.Forms

  The grammar of statements and programs as a relation between rows of tokens and trees,
  apart from any way of reading them:

    statement   ::= "{" statement* "}" | "if" "(" expr ")" branch ( "else" branch )?
                  | "while" "(" expr ")" statement
                  | "for" "(" ( variables | expr ) ";" expr ";" expr ")" statement
                  | simple ";"
    branch      ::= statement
    simple      ::= "break" | "continue" | "return" expr? | intrinsic "(" args ")"
                  | variables | expr
    variables   ::= type declarator ( "," declarator )*
    declarator  ::= name ( "[" expr? "]" )? ( "=" expr )?
    node        ::= variables ";" | type name "(" params ")" ( ";" | "{" statement* "}" )
    params      ::= nothing | "void" | param ( "," param )*
    param       ::= type name ( "[" "]" )?
    program     ::= start node* end

  An `else` belongs to the nearest `if` that has none, a statement that begins with a
  brace is a block, and a jump has to be inside of a loop; `loops` is the number of
  loops around.
-/

import PocketC.Grammar.Program
import PocketC.Proofs.Grammar.Lookahead

namespace PocketC

/-! ## Rows of tokens -/

/-- Rows of tokens, each with what it stands for. -/
abbrev Rows (α : Type) : Type := α → List Token → Prop

namespace Rows

variable {α : Type}

/-- Rows of `L` with commas between them, at least one. -/
inductive Separated (L : Rows α) : Rows (List α) where
  | one {a : α} {w : List Token} (last : L a w) : Separated L [a] w
  | more {a : α} {as : List α} {comma : Token} {v w : List Token} (first : L a v)
      (hc : comma.kind = .comma) (others : Separated L as w) :
      Separated L (a :: as) (v ++ comma :: w)

theorem Separated.mono {L M : Rows α} {as : List α} {w : List Token} (h : Separated L as w)
    (hM : ∀ a w, L a w → M a w) : Separated M as w := by
  induction h with
  | one last => exact .one (hM _ _ last)
  | more first hc _ ih => exact .more (hM _ _ first) hc ih

/-- Whatever holds of the tokens holds of those of each part. -/
theorem Separated.forall_mem {L : Rows α} {Q : Token → Prop} {P : α → Prop} {as : List α}
    {w : List Token} (h : Separated L as w) (hw : ∀ t ∈ w, Q t)
    (hP : ∀ a v, L a v → (∀ t ∈ v, Q t) → P a) : ∀ a ∈ as, P a := by
  induction h with
  | one last => exact List.forall_mem_singleton.mpr (hP _ _ last hw)
  | more first _ _ ih =>
      refine List.forall_mem_cons.mpr ⟨hP _ _ first fun t ht => hw t (by simp [ht]), ?_⟩
      exact ih fun t ht => hw t (by simp [ht])

theorem Separated.ne_nil {L : Rows α} {as : List α} {w : List Token} (h : Separated L as w) :
    as ≠ [] := by
  cases h <;> exact List.cons_ne_nil _ _

/-- Rows of `L` one behind the other. -/
inductive Repeated (L : Rows α) : Rows (List α) where
  | nil : Repeated L [] []
  | cons {a : α} {as : List α} {v w : List Token} (first : L a v) (others : Repeated L as w) :
      Repeated L (a :: as) (v ++ w)

end Rows

/-- The rows of expressions. -/
abbrev Expression : Rows Expr := fun e w => Derives (.expr .assignment e) w

/-! ## Variables -/

/-- What stands behind the name in a declarator, with the type and the size that it makes of
    the type in front. -/
inductive Suffix (type : String) : Rows (String × Option Expr) where
  | none : Suffix type (type, .none) []
  | unsized {opening closing : Token} (ho : opening.kind = .openBracket)
      (hc : closing.kind = .closeBracket) : Suffix type (type ++ "[]", .none) [opening, closing]
  | sized {opening closing : Token} {e : Expr} {w : List Token}
      (ho : opening.kind = .openBracket) (hc : closing.kind = .closeBracket)
      (size : Expression e w) : Suffix type (type ++ "[]", some e) (opening :: w ++ [closing])

/-- One declarator of a type, a declaration and an assignment for its initializer. -/
inductive Declarator (type : String) : Rows (List Stmt) where
  | bare {name : Token} {suffix : String × Option Expr} {w : List Token}
      (hn : name.kind = .identifier) (hsuffix : Suffix type suffix w) :
      Declarator type [.declareVar name.text suffix.1 suffix.2 name.location] (name :: w)
  | initialized {name sign : Token} {suffix : String × Option Expr} {e : Expr}
      {v w : List Token} (hn : name.kind = .identifier) (hsuffix : Suffix type suffix v)
      (hs : sign.kind = .assign) (value : Expression e w) :
      Declarator type [.declareVar name.text suffix.1 suffix.2 name.location,
        .expression (.assign name.text e name.location)] (name :: v ++ sign :: w)

theorem Declarator.ne_nil {type : String} {ss : List Stmt} {w : List Token}
    (h : Declarator type ss w) : w ≠ [] := by
  cases h <;> simp

/-- Declarators that share one type. -/
inductive Variables : Rows Stmt where
  | intro {type : Token} {groups : List (List Stmt)} {w : List Token}
      (ht : type.kind = .identifier)
      (declarators : Rows.Separated (Declarator type.text) groups w) :
      Variables (.group groups.flatten) (type :: w)

theorem Variables.ne_nil {s : Stmt} {w : List Token} (h : Variables s w) : w ≠ [] := by
  cases h
  simp

/-- A declaration of variables or an expression. -/
inductive VariablesOrExpression : Rows Stmt where
  | declaration {s : Stmt} {w : List Token} (h : Variables s w) : VariablesOrExpression s w
  | expression {e : Expr} {w : List Token} (h : Expression e w) :
      VariablesOrExpression (.expression e) w

/-! ## Statements -/

namespace Stmt

/-- Whether it is a conditional without an `else`, or ends in one: an `else` behind it would
    be part of it. -/
def openEnded : Stmt → Bool
  | ifElse _ _ (group []) _ => true
  | ifElse _ _ no _ => no.openEnded
  | whileLoop _ body _ => body.openEnded
  | forLoop _ _ _ body _ => body.openEnded
  | _ => false

/-- The statement as a branch of a conditional: a declaration of variables, at place `l`, gets
    a block of its own. -/
def enclosed (l : Location) : Stmt → Stmt
  | group body => block [group body] l
  | s => s

end Stmt

/-- A statement up to its `;`, with so many loops around it. -/
inductive Simple (loops : Nat) : Rows Stmt where
  | leave {t : Token} (ht : t.kind = .kwBreak) (h : loops ≠ 0) :
      Simple loops (.breakLoop t.location) [t]
  | next {t : Token} (ht : t.kind = .kwContinue) (h : loops ≠ 0) :
      Simple loops (.continueLoop t.location) [t]
  | done {t : Token} (ht : t.kind = .kwReturn) : Simple loops (.returnValue none t.location) [t]
  | value {t : Token} {e : Expr} {w : List Token} (ht : t.kind = .kwReturn)
      (h : Expression e w) : Simple loops (.returnValue (some e) t.location) (t :: w)
  | intrinsic {name opening closing : Token} {es : List Expr} {w : List Token}
      (hn : name.kind = .intrinsic) (ho : opening.kind = .openParen)
      (hc : closing.kind = .closeParen) (args : Derives (.args es) w) :
      Simple loops (.intrinsic name.text es name.location) (name :: opening :: w ++ [closing])
  | other {s : Stmt} {w : List Token} (h : VariablesOrExpression s w) : Simple loops s w

theorem Simple.ne_nil {loops : Nat} {s : Stmt} {w : List Token} (h : Simple loops s w) :
    w ≠ [] := by
  cases h with
  | other h =>
      cases h with
      | declaration h => exact h.ne_nil
      | expression h => exact h.ne_nil
  | _ => simp

/-- What a row of tokens may be formed as. -/
inductive Form where
  | statement (s : Stmt)
  | statements (ss : List Stmt)
  | branch (s : Stmt)

/-- The row of tokens has the form, with so many loops around it. -/
inductive Forms : (loops : Nat) → Form → List Token → Prop where
  | block {loops : Nat} {opening closing : Token} {ss : List Stmt} {w : List Token}
      (ho : opening.kind = .openBrace) (hc : closing.kind = .closeBrace)
      (body : Forms loops (.statements ss) w) :
      Forms loops (.statement (.block ss opening.location)) (opening :: w ++ [closing])
  | ifThen {loops : Nat} {keyword opening closing : Token} {c : Expr} {yes : Stmt}
      {v w : List Token} (hk : keyword.kind = .kwIf) (ho : opening.kind = .openParen)
      (hc : closing.kind = .closeParen) (test : Expression c v)
      (first : Forms loops (.branch yes) w) :
      Forms loops (.statement (.ifElse c yes (.group []) keyword.location))
        (keyword :: opening :: v ++ closing :: w)
  | ifElse {loops : Nat} {keyword opening closing other : Token} {c : Expr} {yes no : Stmt}
      {u v w : List Token} (hk : keyword.kind = .kwIf) (ho : opening.kind = .openParen)
      (hc : closing.kind = .closeParen) (test : Expression c u)
      (first : Forms loops (.branch yes) v) (hclosed : yes.openEnded = false)
      (hother : other.kind = .kwElse) (second : Forms loops (.branch no) w) :
      Forms loops (.statement (.ifElse c yes no keyword.location))
        (keyword :: opening :: u ++ closing :: v ++ other :: w)
  | whileLoop {loops : Nat} {keyword opening closing : Token} {c : Expr} {body : Stmt}
      {v w : List Token} (hk : keyword.kind = .kwWhile) (ho : opening.kind = .openParen)
      (hc : closing.kind = .closeParen) (test : Expression c v)
      (inner : Forms (loops + 1) (.statement body) w) :
      Forms loops (.statement (.whileLoop c body keyword.location))
        (keyword :: opening :: v ++ closing :: w)
  | forLoop {loops : Nat} {keyword opening semi semi' closing : Token} {init body : Stmt}
      {c step : Expr} {t u v w : List Token} (hk : keyword.kind = .kwFor)
      (ho : opening.kind = .openParen) (first : VariablesOrExpression init t)
      (hs : semi.kind = .semicolon) (test : Expression c u) (hs' : semi'.kind = .semicolon)
      (next : Expression step v) (hc : closing.kind = .closeParen)
      (inner : Forms (loops + 1) (.statement body) w) :
      Forms loops (.statement (.forLoop init c step body keyword.location))
        (keyword :: opening :: t ++ semi :: u ++ semi' :: v ++ closing :: w)
  | simple {loops : Nat} {first semi : Token} {s : Stmt} {w : List Token}
      (h : Simple loops s (first :: w)) (hfirst : first.kind ≠ .openBrace)
      (hs : semi.kind = .semicolon) : Forms loops (.statement s) (first :: w ++ [semi])
  | nil {loops : Nat} : Forms loops (.statements []) []
  | cons {loops : Nat} {s : Stmt} {ss : List Stmt} {v w : List Token}
      (first : Forms loops (.statement s) v) (others : Forms loops (.statements ss) w) :
      Forms loops (.statements (s :: ss)) (v ++ w)
  | branch {loops : Nat} {first : Token} {s : Stmt} {w : List Token}
      (h : Forms loops (.statement s) (first :: w)) :
      Forms loops (.branch (s.enclosed first.location)) (first :: w)

theorem Forms.ofRepeated {loops : Nat} {ss : List Stmt} {w : List Token}
    (h : Rows.Repeated (fun s w => Forms loops (.statement s) w) ss w) :
    Forms loops (.statements ss) w := by
  induction h with
  | nil => exact .nil
  | cons first _ ih => exact .cons first ih

/-- There are statements, inside of as many loops as one likes. -/
theorem Forms.exists_statement (loops : Nat) : ∃ s w, Forms loops (.statement s) w := by
  let keyword : Token := ⟨.kwReturn, none, .start⟩
  let semi : Token := ⟨.semicolon, none, .start⟩
  have hdone : Simple loops _ [keyword] := .done rfl
  exact ⟨_, [keyword] ++ [semi], .simple hdone (by decide) rfl⟩

theorem Forms.exists_cons {loops : Nat} {s : Stmt} {w : List Token}
    (h : Forms loops (.statement s) w) : ∃ t ts, w = t :: ts := by
  cases h <;> exact ⟨_, _, rfl⟩

theorem Forms.exists_branch (loops : Nat) : ∃ s w, Forms loops (.branch s) w := by
  obtain ⟨s, w, h⟩ := Forms.exists_statement loops
  obtain ⟨t, ts, rfl⟩ := h.exists_cons
  exact ⟨_, _, .branch h⟩

/-! ## Programs -/

/-- One parameter. -/
inductive Parameter : Rows Param where
  | plain {type name : Token} (ht : type.kind = .identifier) (hn : name.kind = .identifier) :
      Parameter ⟨type.text, name.text⟩ [type, name]
  | array {type name opening closing : Token} (ht : type.kind = .identifier)
      (hn : name.kind = .identifier) (ho : opening.kind = .openBracket)
      (hc : closing.kind = .closeBracket) :
      Parameter ⟨type.text ++ "[]", name.text⟩ [type, name, opening, closing]

theorem Parameter.ne_nil {p : Param} {w : List Token} (h : Parameter p w) : w ≠ [] := by
  cases h <;> simp

/-- The parameters of a function. -/
inductive Parameters : Rows (List Param) where
  | none : Parameters [] []
  | void {t : Token} (ht : t.kind = .identifier) (htext : t.text = "void") : Parameters [] [t]
  | some {ps : List Param} {w : List Token} (h : Rows.Separated Parameter ps w) : Parameters ps w

/-- A node of a program. -/
inductive TopLevel : Rows Stmt where
  | declaration {semi : Token} {s : Stmt} {w : List Token} (h : Variables s w)
      (hs : semi.kind = .semicolon) : TopLevel s (w ++ [semi])
  | signature {type name opening closing semi : Token} {ps : List Param} {w : List Token}
      (ht : type.kind = .identifier) (hn : name.kind = .identifier)
      (ho : opening.kind = .openParen) (params : Parameters ps w)
      (hc : closing.kind = .closeParen) (hs : semi.kind = .semicolon) :
      TopLevel (.declareFun name.text type.text ps type.location)
        (type :: name :: opening :: w ++ [closing, semi])
  | function {type name opening closing start stop : Token} {ps : List Param} {ss : List Stmt}
      {v w : List Token} (ht : type.kind = .identifier) (hn : name.kind = .identifier)
      (ho : opening.kind = .openParen) (params : Parameters ps v)
      (hc : closing.kind = .closeParen) (hstart : start.kind = .openBrace)
      (body : Forms 0 (.statements ss) w) (hstop : stop.kind = .closeBrace) :
      TopLevel (.group [.declareFun name.text type.text ps type.location,
          .defineFun name.text type.text ps ss type.location])
        (type :: name :: opening :: v ++ closing :: start :: w ++ [stop])

theorem TopLevel.ne_nil {s : Stmt} {w : List Token} (h : TopLevel s w) : w ≠ [] := by
  cases h <;> simp

end PocketC
