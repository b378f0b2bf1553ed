/-
  PocketC.Proofs.Grammar.Sessions

  One parser may read any number of programs, each from where the one before it ended or
  failed.  Wherever a reading fails, no loop stays open and no token comes back, so every
  reading begins as the first one does, and the programs that are read have the same
  shape, whatever was read or failed before.
-/

import PocketC.Proofs.Grammar.Branches
import PocketC.Proofs.Grammar.Prompt.Program

namespace PocketC

/-! ## The shape of statements -/

namespace Stmt

/-- Declarations of variables, each alone or with an assignment to its variable right behind. -/
inductive Declarations : List Stmt → Prop where
  | nil : Declarations []
  | bare (name type : String) (size : Option Expr) (l : Location) {ss : List Stmt}
      (others : Declarations ss) : Declarations (.declareVar name type size l :: ss)
  | initialized (name type : String) (size : Option Expr) (l : Location) (e : Expr)
      {ss : List Stmt} (others : Declarations ss) :
      Declarations (.declareVar name type size l :: .expression (.assign name e l) :: ss)

theorem Declarations.append {ss ts : List Stmt} (h : Declarations ss) (ht : Declarations ts) :
    Declarations (ss ++ ts) := by
  induction h with
  | nil => exact ht
  | bare name type size l _ ih => exact .bare name type size l ih
  | initialized name type size l e _ ih => exact .initialized name type size l e ih

theorem Declarations.plain {ss : List Stmt} (h : Declarations ss) : ∀ s ∈ ss, s.Plain := by
  induction h with
  | nil => exact nofun
  | bare _ _ _ _ _ ih => exact List.forall_mem_cons.mpr ⟨trivial, ih⟩
  | initialized _ _ _ _ _ _ ih =>
      exact List.forall_mem_cons.mpr ⟨trivial, List.forall_mem_cons.mpr ⟨trivial, ih⟩⟩

/-- What begins a loop: an expression, or declarations of variables, at least one. -/
def Initializes (init : Stmt) : Prop :=
  (∃ e, init = .expression e) ∨ ∃ ss, init = .group ss ∧ ss ≠ [] ∧ Declarations ss

/-- The shape of a statement that is read inside of a function, apart from that of its parts. -/
def Shape : Stmt → Prop
  | .ifElse _ yes no _ => yes.isGroup = false ∧ (no.isGroup = false ∨ no = .group [])
  | .forLoop init _ _ _ _ => init.Initializes
  | .group ss => Declarations ss
  | .defineFun .. => False
  | _ => True

/-- Everything in the statement has its shape. -/
def Shaped (s : Stmt) : Prop := ∀ r, s.Has r → r.Shape

theorem Shaped.ofParts {s : Stmt} (hs : s.Shape) (hparts : ∀ t ∈ s.parts, t.Shaped) :
    s.Shaped := by
  intro r hr
  rcases Relation.ReflTransGen.cases_head hr with rfl | ⟨t, ht, hr⟩
  · exact hs
  · exact hparts t ht r hr

theorem Declarations.shaped_mem {ss : List Stmt} (h : Declarations ss) : ∀ s ∈ ss, s.Shaped := by
  have hvar : ∀ name type size l, (declareVar name type size l).Shaped :=
    fun _ _ _ _ => .ofParts trivial nofun
  have hassign : ∀ e, (expression e).Shaped := fun _ => .ofParts trivial nofun
  induction h with
  | nil => exact nofun
  | bare name type size l _ ih => exact List.forall_mem_cons.mpr ⟨hvar _ _ _ _, ih⟩
  | initialized name type size l e _ ih =>
      have hrest := List.forall_mem_cons.mpr ⟨hassign (.assign name e l), ih⟩
      exact List.forall_mem_cons.mpr ⟨hvar _ _ _ _, hrest⟩

theorem Declarations.shaped {ss : List Stmt} (h : Declarations ss) : (group ss).Shaped :=
  .ofParts h h.shaped_mem

/-- A function that is declared and, right behind, defined with a body that defines none. -/
inductive DeclaredAndDefined : Stmt → Prop where
  | intro (name result : String) (params : List Param) {body : List Stmt} (l : Location)
      (inner : definitionsAll body = []) : DeclaredAndDefined
        (.group [.declareFun name result params l, .defineFun name result params body l])

end Stmt

/-! ## The shape of what is read -/

theorem Declarator.declarations {type : String} {ss : List Stmt} {w : List Token}
    (h : Declarator type ss w) : ss ≠ [] ∧ Stmt.Declarations ss := by
  cases h with
  | bare => exact ⟨by simp, .bare _ _ _ _ .nil⟩
  | initialized => exact ⟨by simp, .initialized _ _ _ _ _ .nil⟩

theorem Variables.declarations {s : Stmt} {w : List Token} (h : Variables s w) :
    ∃ ss, s = .group ss ∧ ss ≠ [] ∧ Stmt.Declarations ss := by
  obtain @⟨_, groups, _, _, declarators⟩ := h
  refine ⟨groups.flatten, rfl, ?_⟩
  induction declarators with
  | one last => simpa using last.declarations
  | more first _ _ ih =>
      obtain ⟨hne, hfirst⟩ := first.declarations
      rw [List.flatten_cons]
      exact ⟨by simp [hne], hfirst.append ih.2⟩

theorem VariablesOrExpression.initializes {s : Stmt} {w : List Token}
    (h : VariablesOrExpression s w) : s.Initializes ∧ s.Shaped := by
  cases h with
  | declaration h =>
      obtain ⟨ss, rfl, hne, hss⟩ := h.declarations
      exact ⟨.inr ⟨ss, rfl, hne, hss⟩, hss.shaped⟩
  | expression => exact ⟨.inl ⟨_, rfl⟩, .ofParts trivial nofun⟩

theorem Simple.shaped {loops : Nat} {s : Stmt} {w : List Token} (h : Simple loops s w) :
    s.Shaped := by
  cases h with
  | other h => exact h.initializes.2
  | _ => exact .ofParts trivial nofun

/-- Everything that is read in the form has its shape. -/
def Form.Shaped : Form → Prop
  | .statement s => s.Shaped
  | .statements ss => ∀ s ∈ ss, s.Shaped
  | .branch s => s.isGroup = false ∧ s.Shaped

theorem Forms.shaped {loops : Nat} {form : Form} {w : List Token} (h : Forms loops form w) :
    form.Shaped := by
  induction h with
  | block _ _ _ ih => exact .ofParts trivial ih
  | ifThen _ _ _ _ _ ih =>
      refine .ofParts ⟨ih.1, .inr rfl⟩ (List.forall_mem_cons.mpr ⟨ih.2, ?_⟩)
      exact List.forall_mem_singleton.mpr Stmt.Declarations.nil.shaped
  | ifElse _ _ _ _ _ _ _ _ ihyes ihno =>
      refine .ofParts ⟨ihyes.1, .inl ihno.1⟩ (List.forall_mem_cons.mpr ⟨ihyes.2, ?_⟩)
      exact List.forall_mem_singleton.mpr ihno.2
  | whileLoop _ _ _ _ _ ih => exact .ofParts trivial (List.forall_mem_singleton.mpr ih)
  | forLoop _ _ first _ _ _ _ _ _ ih =>
      obtain ⟨hinit, hshaped⟩ := first.initializes
      refine .ofParts hinit (List.forall_mem_cons.mpr ⟨hshaped, ?_⟩)
      exact List.forall_mem_singleton.mpr ih
  | simple h => exact h.shaped
  | nil => exact nofun
  | cons _ _ ihfirst ihothers => exact List.forall_mem_cons.mpr ⟨ihfirst, ihothers⟩
  | @branch _ _ s _ _ ih =>
      refine ⟨s.isGroup_enclosed _, ?_⟩
      cases s with
      | group body => exact .ofParts trivial (List.forall_mem_singleton.mpr ih)
      | _ => exact ih

/-- A node has its shape itself, or it is a function with a body in which everything has. -/
theorem TopLevel.shaped {s : Stmt} {w : List Token} (h : TopLevel s w) :
    s.Shaped ∨ ∃ name result params body l, s = .group [.declareFun name result params l,
      .defineFun name result params body l] ∧ ∀ t ∈ body, t.Shaped := by
  cases h with
  | declaration h =>
      obtain ⟨ss, rfl, _, hss⟩ := h.declarations
      exact .inl hss.shaped
  | signature => exact .inl (.ofParts trivial nofun)
  | function _ _ _ _ _ _ body => exact .inr ⟨_, _, _, _, _, rfl, body.shaped⟩

theorem Rows.Repeated.exists_row {α : Type} {L : Rows α} {as : List α} {w : List Token}
    (h : Rows.Repeated L as w) : ∀ a ∈ as, ∃ v, L a v := by
  induction h with
  | nil => exact nofun
  | cons first _ ih => exact List.forall_mem_cons.mpr ⟨⟨_, first⟩, ih⟩

/-! ## The shape of programs -/

/-- What holds of every program that is read. -/
structure Program.WellShaped (p : Program) : Prop where
  /-- every jump in a node is inside of a loop there, -/
  jumps : ∀ s ∈ p.nodes, ∀ j, s.escapes j = false
  /-- and so is every jump in the body of a function -/
  bodies : ∀ c ∈ Stmt.definitionsAll p.nodes, Stmt.closed c.body
  /-- functions are defined by nodes alone, right behind their declarations -/
  definitions : ∀ s ∈ p.nodes, s.definitions = [] ∨ s.DeclaredAndDefined
  /-- no branch is a declaration; a missing one is an empty group -/
  branches : ∀ c yes no l, p.HasStmt (.ifElse c yes no l) →
    yes.isGroup = false ∧ (no.isGroup = false ∨ no = .group [])
  initializers : ∀ init c step body l, p.HasStmt (.forLoop init c step body l) → init.Initializes
  /-- a group declares variables, or it is the node of a function -/
  groups : ∀ ss, p.HasStmt (.group ss) →
    Stmt.Declarations ss ∨ .group ss ∈ p.nodes ∧ (Stmt.group ss).DeclaredAndDefined

namespace Stmt

theorem definitions_of_plain {ss : List Stmt} (h : ∀ s ∈ ss, s.Plain) :
    (group ss).definitions = [] := by
  have hcontained : (group ss).Contained 0 := contained_group fun s hs => (h s hs).contained
  exact hcontained.definitions

theorem Node.escapes {s : Stmt} (h : s.Node) (j : Jump) : s.escapes j = false := by
  cases h with
  | declarations h =>
      rw [Stmt.escapes, escapesAny_eq_false_iff]
      intro s hs
      exact (h s hs).contained.escapes rfl j
  | signature => rfl
  | function => rfl

theorem Node.closed {s : Stmt} (h : s.Node) {c : Callee} (hc : c ∈ s.definitions) :
    Stmt.closed c.body := by
  cases h with
  | declarations h =>
      rw [definitions_of_plain h] at hc
      cases hc
  | signature => cases hc
  | @function name result params body l h =>
      have hinner := definitionsAll_of_contained h
      have hone : c = ⟨name, params, body⟩ := by
        simpa [Stmt.definitions, definitionsAll, hinner] using hc
      rw [hone]
      exact escapesAny_of_contained h rfl

theorem Node.definitions {s : Stmt} (h : s.Node) : s.definitions = [] ∨ s.DeclaredAndDefined := by
  cases h with
  | declarations h =>
      exact .inl (definitions_of_plain h)
  | signature => exact .inl rfl
  | function name result params l h =>
      exact .inr (.intro name result params l (definitionsAll_of_contained h))

end Stmt

namespace Program

variable {p : Program} {s : Stmt}

/-- What is neither the node of a function nor the definition in one has its shape. -/
theorem shape_of_hasStmt (hnodes : ∀ s ∈ p.nodes, s.Node)
    (hrows : ∀ s ∈ p.nodes, ∃ w, TopLevel s w) (h : p.HasStmt s)
    (hdefinition : ∀ name result params body l, s ≠ .defineFun name result params body l) :
    s.Shape ∨ s ∈ p.nodes ∧ s.DeclaredAndDefined := by
  obtain ⟨node, hnode, hs⟩ := h
  obtain ⟨w, hw⟩ := hrows node hnode
  rcases hw.shaped with hshaped | ⟨name, result, params, body, l, rfl, hbody⟩
  · exact .inl (hshaped s hs)
  rcases Relation.ReflTransGen.cases_head hs with rfl | ⟨t, ht, hs⟩
  · refine .inr ⟨hnode, (hnodes _ hnode).definitions.resolve_left ?_⟩
    simp [Stmt.definitions, Stmt.definitionsAll]
  -- the parts of such a node are the declaration and the definition
  obtain rfl | rfl : t = .declareFun name result params l ∨
      t = .defineFun name result params body l := by simpa [Stmt.parts] using ht
  · rcases Relation.ReflTransGen.cases_head hs with rfl | ⟨_, hnone, _⟩
    · exact .inl trivial
    · cases hnone
  · rcases Relation.ReflTransGen.cases_head hs with rfl | ⟨t, ht, hs⟩
    · exact absurd rfl (hdefinition name result params body l)
    · exact .inl (hbody t ht s hs)

theorem wellShaped_of_rows (hnodes : ∀ s ∈ p.nodes, s.Node)
    (hrows : ∀ s ∈ p.nodes, ∃ w, TopLevel s w) : p.WellShaped where
  jumps s hs := (hnodes s hs).escapes
  bodies c hc := by
    rw [Stmt.definitionsAll_eq_flatMap] at hc
    obtain ⟨s, hs, hc⟩ := List.mem_flatMap.mp hc
    exact (hnodes s hs).closed hc
  definitions s hs := (hnodes s hs).definitions
  branches c yes no l h := (shape_of_hasStmt hnodes hrows h nofun).resolve_right nofun
  initializers init c step body l h :=
    (shape_of_hasStmt hnodes hrows h nofun).resolve_right nofun
  groups ss h := shape_of_hasStmt hnodes hrows h nofun

end Program

/-! ## Reading on -/

namespace Parse

variable {α β : Type}

/-- The parser that a reading left. -/
def left : EStateM.Result ParseError Parser α → Parser
  | .ok _ q => q
  | .error _ q => q

/-- A reading of `p` that succeeds or fails where some tokens more are read and as many loops are
    open. -/
def Onward (x : Parse α) (p : Parser) : Prop := ∃ w, p = (left (x p)).prepend w

variable {x : Parse α} {p : Parser}

theorem onward_of_left (h : left (x p) = p) : Onward x p := ⟨[], by rw [h, Parser.prepend_nil]⟩

theorem Onward.bind {f : α → Parse β} (hx : Onward x p)
    (hf : ∀ a q, x p = .ok a q → Onward (f a) q) : Onward (x >>= f) p := by
  obtain ⟨v, hv⟩ := hx
  unfold Onward
  rw [bind_apply]
  cases h : x p with
  | ok a q =>
      obtain ⟨w, hw⟩ := hf a q h
      rw [h] at hv
      refine ⟨v ++ w, ?_⟩
      rw [← Parser.prepend_prepend, ← hw]
      exact hv
  | error e q =>
      rw [h] at hv
      exact ⟨v, hv⟩

theorem onward_expect (k : Kind) (p : Parser) : Onward (expect k) p := by
  by_cases hk : p.next = k
  · have htake : p.cursor.take k = .ok (p.cursor.peek 0, p.cursor.skip) := if_pos hk
    have hleft : left (expect k p) = { p with cursor := p.cursor.skip } := by
      rw [expect, htake]
      rfl
    obtain ⟨⟨rest, l⟩, loops⟩ := p
    cases rest with
    | nil => exact onward_of_left hleft
    | cons t ts => exact ⟨[t], by rw [hleft]; rfl⟩
  · exact onward_of_left (by rw [expect_of_ne hk]; rfl)

theorem PromptAt.onward {room : Nat} {L : Rows α} {y : Parse α} (h : PromptAt room L x y p) :
    Onward x p := by
  unfold PromptAt at h
  unfold Onward
  generalize x p = r at h
  cases h with
  | ok w front => exact ⟨w, front⟩
  | unexpected w front => exact ⟨w, front⟩
  | blamed w t front => exact ⟨w ++ [t], front⟩

end Parse

theorem Grammar.onward_program {p : Parser} (hp : p.openLoops = 0) :
    Parse.Onward Grammar.program p := by
  refine (Parse.onward_expect _ p).bind fun first q hfirst => ?_
  have hq : q.openLoops = 0 := (Parse.Yields.expect .startOfInput p first q hp hfirst).1
  -- how many nodes there can be is looked up without reading
  refine .bind (Parse.onward_of_left rfl) fun bound r hbound => ?_
  cases hbound
  refine .bind ((prompt_nodes _ 0).reads q hq (Nat.le_refl _)).onward fun nodes s _ => ?_
  exact (Parse.onward_expect _ s).bind fun _ _ _ => Parse.onward_of_left rfl

namespace Parser

/-- The parser after so many readings, each from where the one before it ended or failed. -/
def afterReadings (p : Parser) : Nat → Parser
  | 0 => p
  | n + 1 => (p.afterReadings n).parse.2

theorem parse_onward {p : Parser} (hp : p.openLoops = 0) : ∃ w, p = p.parse.2.prepend w := by
  obtain ⟨w, hw⟩ := Grammar.onward_program hp
  refine ⟨w, hw.trans ?_⟩
  unfold parse
  cases Grammar.program p <;> rfl

theorem openLoops_afterReadings {p : Parser} (hp : p.openLoops = 0) (n : Nat) :
    (p.afterReadings n).openLoops = 0 := by
  induction n with
  | zero => exact hp
  | succ n ih =>
      obtain ⟨w, hw⟩ := parse_onward ih
      rw [hw] at ih
      exact ih

theorem nodes_of_parse {p : Parser} (hp : p.openLoops = 0) {program : Program}
    (h : p.parse.1 = .ok program) : ∀ s ∈ program.nodes, s.Node := by
  unfold parse at h
  cases hread : Grammar.program p with
  | ok program' q =>
      rw [hread] at h
      cases h
      exact (Grammar.yields_program p program q hp hread).2
  | error e q =>
      rw [hread] at h
      cases h

theorem wellShaped_of_parse {p : Parser} (hp : p.openLoops = 0) {program : Program}
    (h : p.parse.1 = .ok program) : program.WellShaped := by
  obtain ⟨first, w, r, _, _, _, hrow⟩ := parse_sound hp (Prod.ext h rfl)
  exact Program.wellShaped_of_rows (nodes_of_parse hp h) hrow.exists_row

/-- Before and after every reading no loop is open, every reading goes on from where the one before
    it stopped, and every program that is read has its shape. -/
theorem readings_well_shaped (ts : List Token) (n : Nat) :
    let p := (ofCursor (.ofTokens ts)).afterReadings n
    (p.openLoops = 0 ∧ p.parse.2.openLoops = 0) ∧ (∃ w, p = p.parse.2.prepend w) ∧
      ∀ program, p.parse.1 = .ok program → program.WellShaped := by
  intro p
  have hp : p.openLoops = 0 := openLoops_afterReadings rfl n
  exact ⟨⟨hp, openLoops_afterReadings rfl (n + 1)⟩, parse_onward hp,
    fun program => wellShaped_of_parse hp⟩

/-- A program that breaks off inside of two loops, and a whole one behind it. -/
def interrupted : List Token :=
  let word (s : String) : Token := ⟨.identifier, some s, .start⟩
  let sign (k : Kind) : Token := ⟨k, none, .start⟩
  [sign .startOfInput, word "int", word "f", sign .openParen, sign .closeParen, sign .openBrace,
    sign .kwWhile, sign .openParen, word "a", sign .closeParen,
    sign .kwFor, sign .openParen, word "int", word "i", sign .assign, word "a", sign .semicolon,
    word "i", sign .semicolon, word "i", sign .closeParen,
    sign .startOfInput, word "int", word "a", sign .assign, word "b", sign .comma, word "c",
    sign .semicolon, word "int", word "main", sign .openParen, sign .closeParen, sign .openBrace,
    sign .kwWhile, sign .openParen, word "a", sign .closeParen, sign .kwIf, sign .openParen,
    word "c", sign .closeParen, sign .kwBreak, sign .semicolon, sign .closeBrace,
    sign .endOfInput]

theorem readings_well_shaped_interrupted :
    ((ofCursor (.ofTokens interrupted)).afterReadings 0).parse.1.toOption.isNone ∧
    ∃ program, ((ofCursor (.ofTokens interrupted)).afterReadings 1).parse.1 = .ok program ∧
      program.WellShaped := by
  have hread : ((ofCursor (.ofTokens interrupted)).afterReadings 1).parse.1.toOption.isSome := by
    decide +kernel
  refine ⟨by decide +kernel, ?_⟩
  have hshaped := (readings_well_shaped interrupted 1).2.2
  cases h : ((ofCursor (.ofTokens interrupted)).afterReadings 1).parse.1 with
  | ok program => exact ⟨program, rfl, hshaped program h⟩
  | error e =>
      rw [h] at hread
      cases hread

end Parser

/-- The program is one that a parser reads, whatever it read or failed to read before. -/
def Program.Parsed (p : Program) : Prop :=
  ∃ ts n, ((Parser.ofCursor (.ofTokens ts)).afterReadings n).parse.1 = .ok p

theorem Program.Parsed.nodes {p : Program} (h : p.Parsed) : ∀ s ∈ p.nodes, s.Node := by
  obtain ⟨ts, n, hread⟩ := h
  exact Parser.nodes_of_parse (Parser.openLoops_afterReadings rfl n) hread

end PocketC
