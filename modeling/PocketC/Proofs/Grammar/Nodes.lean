/-
  PocketC.Proofs.Grammar.Nodes

  What the nodes of a program that was read contain.  A node declares variables, or it
  declares a function, or it declares a function and defines it right behind.  No jump
  leaves the body of a function, since a jump is only read inside of a loop, and no
  body defines a function.

  The invariant is that a reading leaves as many loops open as it found; the number is
  what decides whether the statements that it gives may be left by a jump.
-/

import PocketC.Grammar.Program
import PocketC.Proofs.Grammar.Soundness
import PocketC.Proofs.Tree.Contents
import PocketC.Run.Session

namespace PocketC

/-! ## Statements that are read -/

namespace Stmt

/-- A declaration of a variable or an expression. -/
def Plain : Stmt → Prop
  | .declareVar .. | .expression _ => True
  | _ => False

/-- The statement defines no function, and no jump may leave it where no loop is open. -/
structure Contained (loops : Nat) (s : Stmt) : Prop where
  definitions : s.definitions = []
  escapes : loops = 0 → ∀ j, s.escapes j = false

theorem Plain.contained {loops : Nat} {s : Stmt} (h : s.Plain) : s.Contained loops := by
  cases s with
  | declareVar | expression => exact ⟨rfl, fun _ _ => rfl⟩
  | _ => cases h

section
variable {loops : Nat}

theorem definitionsAll_of_contained {body : List Stmt} (h : ∀ s ∈ body, s.Contained loops) :
    definitionsAll body = [] := by
  rw [definitionsAll_eq_flatMap, List.flatMap_eq_nil_iff]
  intro s hs
  exact (h s hs).definitions

theorem escapesAny_of_contained {body : List Stmt} (h : ∀ s ∈ body, s.Contained loops)
    (hloops : loops = 0) (j : Jump) : escapesAny j body = false := by
  rw [escapesAny_eq_false_iff]
  intro s hs
  exact (h s hs).escapes hloops j

theorem contained_block {body : List Stmt} (l : Location) (h : ∀ s ∈ body, s.Contained loops) :
    (block body l).Contained loops where
  definitions := by
    rw [definitions]
    exact definitionsAll_of_contained h
  escapes hloops j := by
    rw [Stmt.escapes]
    exact escapesAny_of_contained h hloops j

theorem contained_group {body : List Stmt} (h : ∀ s ∈ body, s.Contained loops) :
    (group body).Contained loops where
  definitions := by
    rw [definitions]
    exact definitionsAll_of_contained h
  escapes hloops j := by
    rw [Stmt.escapes]
    exact escapesAny_of_contained h hloops j

theorem contained_ifElse {yes no : Stmt} (c : Expr) (l : Location) (hyes : yes.Contained loops)
    (hno : no.Contained loops) : (ifElse c yes no l).Contained loops where
  definitions := by
    rw [definitions, hyes.definitions, hno.definitions]
    rfl
  escapes hloops j := by
    rw [Stmt.escapes, hyes.escapes hloops j, hno.escapes hloops j]
    rfl

/-- A loop takes the jumps of its body. -/
theorem contained_whileLoop {body : Stmt} (c : Expr) (l : Location)
    (h : body.Contained (loops + 1)) : (whileLoop c body l).Contained loops where
  definitions := by
    rw [definitions]
    exact h.definitions
  escapes _ _ := rfl

theorem contained_forLoop {init body : Stmt} (c step : Expr) (l : Location)
    (hinit : init.Contained loops) (hbody : body.Contained (loops + 1)) :
    (forLoop init c step body l).Contained loops where
  definitions := by
    rw [definitions, hinit.definitions, hbody.definitions]
    rfl
  escapes _ _ := rfl

end

/-- A node of a program that was read. -/
inductive Node : Stmt → Prop where
  | declarations {ss : List Stmt} (h : ∀ s ∈ ss, s.Plain) : Node (.group ss)
  | signature (name result : String) (params : List Param) (l : Location) :
      Node (.declareFun name result params l)
  | function (name result : String) (params : List Param) {body : List Stmt} (l : Location)
      (h : ∀ s ∈ body, s.Contained 0) :
      Node (.group [.declareFun name result params l, .defineFun name result params body l])

end Stmt

/-! ## Readings that leave the open loops as they are -/

namespace Parse

variable {α β : Type}

/-- Where so many loops are open the reading leaves as many open, and `Q` holds of its result. -/
def Yields (loops : Nat) (x : Parse α) (Q : α → Prop) : Prop :=
  ∀ p a q, p.openLoops = loops → x p = .ok a q → q.openLoops = loops ∧ Q a

namespace Yields

variable {loops : Nat} {x : Parse α} {Q R : α → Prop}

theorem pure {a : α} (h : Q a) : Yields loops (pure a) Q := by
  rintro p _ _ hp ⟨⟩
  exact ⟨hp, h⟩

theorem bind {f : α → Parse β} {R : β → Prop} (hx : Yields loops x Q)
    (hf : ∀ a, Q a → Yields loops (f a) R) : Yields loops (x >>= f) R := by
  intro p b q hp h
  obtain ⟨a, r, ha, hb⟩ := bind_eq_ok.mp h
  obtain ⟨hr, hQ⟩ := hx p a r hp ha
  exact hf a hQ r b q hr hb

theorem mono (hx : Yields loops x Q) (h : ∀ a, Q a → R a) : Yields loops x R := by
  intro p a q hp ha
  obtain ⟨hq, hQ⟩ := hx p a q hp ha
  exact ⟨hq, h a hQ⟩

/-- A reading that fails gives nothing. -/
theorem ofError (h : ∀ p a q, x p ≠ .ok a q) : Yields loops x Q :=
  fun p a q _ ha => absurd ha (h p a q)

/-- Looking ahead changes nothing. -/
theorem ofLook {f : Parser → α} (h : ∀ p, x p = .ok (f p) p) : Yields loops x fun _ => True := by
  intro p a q hp ha
  rw [h] at ha
  cases ha
  exact ⟨hp, trivial⟩

theorem expect (k : Kind) : Yields loops (expect k) fun _ => True := by
  intro p t q hp h
  unfold Parse.expect at h
  split at h
  · cases h
    exact ⟨hp, trivial⟩
  · cases h

theorem accept (k : Kind) : Yields loops (accept k) fun _ => True := by
  intro p b q hp h
  rw [accept_eq] at h
  split at h <;> cases h <;> exact ⟨hp, trivial⟩

theorem identifier : Yields loops identifier fun _ => True :=
  bind (expect .identifier) fun _ _ => pure trivial

/-- The tokens that an expression reads do not change which loops are open. -/
theorem expression (bound : Nat) : Yields loops (Grammar.expression bound) fun _ => True := by
  intro p e q hp h
  obtain ⟨w, rfl, _⟩ := Grammar.reads_expression bound p e q h
  exact ⟨hp, trivial⟩

theorem insideLoop (h : Yields (loops + 1) x Q) : Yields loops (insideLoop x) Q := by
  intro p a q hp ha
  unfold Parse.insideLoop at ha
  cases hx : x { p with openLoops := p.openLoops + 1 } with
  | ok b r =>
      rw [hx] at ha
      cases ha
      obtain ⟨hr, hQ⟩ := h _ _ _ (congrArg Nat.succ hp) hx
      refine ⟨?_, hQ⟩
      show r.openLoops - 1 = loops
      rw [hr]
      rfl
  | error e r =>
      rw [hx] at ha
      cases ha

theorem sequence (h : Yields loops x Q) (bound : Nat) :
    Yields loops (sequence x bound) fun as => ∀ a ∈ as, Q a := by
  induction bound with
  | zero => exact bind h fun a ha => pure (by simpa using ha)
  | succ bound ih =>
      rw [Parse.sequence]
      refine bind h fun a ha => bind (accept .comma) fun again _ => ?_
      split
      · exact bind ih fun as has => pure (List.forall_mem_cons.mpr ⟨ha, has⟩)
      · exact pure (by simpa using ha)

theorem listUntil (stop : Kind) (h : Yields loops x Q) (bound : Nat) :
    Yields loops (listUntil stop x bound) fun as => ∀ a ∈ as, Q a := by
  refine bind (ofLook (sees_eq stop 0)) fun none _ => ?_
  split
  · exact pure (by simp)
  · exact sequence h bound

theorem manyUntil (stop : Kind) (h : Yields loops x Q) (bound : Nat) :
    Yields loops (manyUntil stop x bound) fun as => ∀ a ∈ as, Q a := by
  induction bound with
  | zero =>
      rw [Parse.manyUntil]
      refine bind (ofLook (sees_eq stop 0)) fun none _ => ?_
      split
      · exact pure (by simp)
      · exact bind h fun a ha => pure (by simpa using ha)
  | succ bound ih =>
      rw [Parse.manyUntil]
      refine bind (ofLook (sees_eq stop 0)) fun none _ => ?_
      split
      · exact pure (by simp)
      · exact bind h fun a ha => bind ih fun as has => pure (List.forall_mem_cons.mpr ⟨ha, has⟩)

end Yields
end Parse

/-! ## Statements -/

namespace Grammar

open Parse

variable {loops : Nat}

theorem yields_here : Yields loops here fun _ => True := .ofLook here_eq

theorem yields_arraySuffix (type : String) (bound : Nat) :
    Yields loops (arraySuffix type bound) fun _ => True := by
  refine .bind (.accept _) fun opened _ => ?_
  split
  · refine .bind (.accept _) fun closed _ => ?_
    split
    · exact .pure trivial
    · exact .bind (.expression bound) fun _ _ => .bind (.expect _) fun _ _ => .pure trivial
  · exact .pure trivial

theorem yields_declarator (type : String) (bound : Nat) :
    Yields loops (declarator type bound) fun ss => ∀ s ∈ ss, s.Plain := by
  refine .bind yields_here fun l _ => .bind .identifier fun name _ => ?_
  refine .bind (yields_arraySuffix type bound) fun suffix _ => ?_
  refine .bind (.accept _) fun assigned _ => ?_
  split
  · refine .bind (.expression bound) fun e _ => .pure ?_
    simp [Stmt.Plain]
  · refine .pure ?_
    simp [Stmt.Plain]

theorem yields_declarators (bound : Nat) :
    Yields loops (declarators bound) fun s => ∃ ss, s = .group ss ∧ ∀ t ∈ ss, t.Plain := by
  refine .bind .identifier fun type _ => ?_
  refine .bind (.sequence (yields_declarator type bound) bound) fun groups hgroups => .pure ?_
  refine ⟨groups.flatten, rfl, ?_⟩
  intro t ht
  obtain ⟨ss, hss, htss⟩ := List.mem_flatten.mp ht
  exact hgroups ss hss t htss

theorem yields_jump (keyword : Kind) {node : Location → Stmt}
    (hnode : ∀ l, loops ≠ 0 → (node l).Contained loops) :
    Yields loops (jump keyword node) fun s => s.Contained loops := by
  refine .bind (.expect _) fun token _ => ?_
  -- the reading knows how many loops are open from the parser itself
  intro p s q hp h
  obtain ⟨r, p', hr, h'⟩ := bind_eq_ok.mp h
  cases hr
  split at h'
  · cases h'
  · rename_i hopen
    cases h'
    refine ⟨hp, hnode _ ?_⟩
    rw [← hp]
    exact hopen

theorem yields_returning (bound : Nat) :
    Yields loops (returning bound) fun s => s.Contained loops := by
  refine .bind (.expect _) fun token _ => .bind (.ofLook (sees_eq .semicolon 0)) fun bare _ => ?_
  split
  · exact .pure ⟨rfl, fun _ _ => rfl⟩
  · exact .bind (.expression bound) fun e _ => .pure ⟨rfl, fun _ _ => rfl⟩

theorem yields_intrinsicCall (bound : Nat) :
    Yields loops (intrinsicCall bound) fun s => s.Contained loops := by
  refine .bind (.expect _) fun token _ => .bind (.expect _) fun _ _ => ?_
  refine .bind (.listUntil .closeParen (.expression bound) bound) fun args _ => ?_
  exact .bind (.expect _) fun _ _ => .pure ⟨rfl, fun _ _ => rfl⟩

theorem yields_variablesOrExpression (bound : Nat) :
    Yields loops (variablesOrExpression bound) fun s => s.Contained loops := by
  refine .bind (.ofLook fun _ => rfl) fun declares _ => ?_
  split
  · refine (yields_declarators bound).mono ?_
    rintro _ ⟨ss, rfl, hss⟩
    exact Stmt.contained_group fun s hs => (hss s hs).contained
  · exact .bind (.expression bound) fun e _ => .pure ⟨rfl, fun _ _ => rfl⟩

theorem yields_simple (bound : Nat) :
    Yields loops (simple bound) fun s => s.Contained loops := by
  refine .bind (.ofLook (peek_eq 0)) fun token _ => ?_
  -- a jump needs an open loop, the other statements are left by no jump
  split
  · exact yields_jump .kwBreak fun l h => ⟨rfl, fun h' => absurd h' h⟩
  · exact yields_jump .kwContinue fun l h => ⟨rfl, fun h' => absurd h' h⟩
  · exact yields_returning bound
  · exact yields_intrinsicCall bound
  · exact yields_variablesOrExpression bound

section
variable {statement : Parse Stmt}
  (hstatement : ∀ loops, Yields loops statement fun s => s.Contained loops)
include hstatement

theorem yields_braces (bound : Nat) :
    Yields loops (braces statement bound) fun ss => ∀ s ∈ ss, s.Contained loops := by
  refine .bind (.expect _) fun _ _ => ?_
  refine .bind (.manyUntil .closeBrace (hstatement loops) bound) fun body hbody => ?_
  exact .bind (.expect _) fun _ _ => .pure hbody

theorem yields_branch : Yields loops (branch statement) fun s => s.Contained loops := by
  refine .bind (.ofLook fun _ => rfl) fun declares _ => ?_
  split
  · refine .bind yields_here fun l _ => .bind (hstatement loops) fun s hs => .pure ?_
    exact Stmt.contained_block l (by simpa using hs)
  · exact hstatement loops

omit hstatement in
theorem yields_condition (bound : Nat) : Yields loops (condition bound) fun _ => True := by
  refine .bind (.expect _) fun _ _ => .bind (.expression bound) fun e _ => ?_
  exact .bind (.expect _) fun _ _ => .pure trivial

theorem yields_elseBranch : Yields loops (elseBranch statement) fun s => s.Contained loops := by
  refine .bind (.accept _) fun other _ => ?_
  split
  · exact yields_branch hstatement
  · exact .pure (Stmt.contained_group (by simp))

theorem yields_conditional (bound : Nat) :
    Yields loops (conditional statement bound) fun s => s.Contained loops := by
  refine .bind (.expect _) fun token _ => .bind (yields_condition bound) fun c _ => ?_
  refine .bind (yields_branch hstatement) fun yes hyes => ?_
  refine .bind (yields_elseBranch hstatement) fun no hno => .pure ?_
  exact Stmt.contained_ifElse c token.location hyes hno

theorem yields_whileStatement (bound : Nat) :
    Yields loops (whileStatement statement bound) fun s => s.Contained loops := by
  refine .bind (.expect _) fun token _ => .bind (yields_condition bound) fun c _ => ?_
  -- the body is read with one more loop open and closes it again
  refine .bind (.insideLoop (hstatement (loops + 1))) fun body hbody => .pure ?_
  exact Stmt.contained_whileLoop c token.location hbody

theorem yields_forStatement (bound : Nat) :
    Yields loops (forStatement statement bound) fun s => s.Contained loops := by
  refine .bind (.expect _) fun token _ => .bind (.expect _) fun _ _ => ?_
  refine .bind (yields_variablesOrExpression bound) fun init hinit => ?_
  refine .bind (.expect _) fun _ _ => .bind (.expression bound) fun c _ => ?_
  refine .bind (.expect _) fun _ _ => .bind (.expression bound) fun step _ => ?_
  refine .bind (.expect _) fun _ _ => ?_
  refine .bind (.insideLoop (hstatement (loops + 1))) fun body hbody => .pure ?_
  exact Stmt.contained_forLoop c step token.location hinit hbody

theorem yields_statementWith (bound : Nat) :
    Yields loops (statementWith statement bound) fun s => s.Contained loops := by
  refine .bind (.ofLook (peek_eq 0)) fun token _ => ?_
  split
  · refine .bind yields_here fun l _ => ?_
    exact .bind (yields_braces hstatement bound) fun body hbody =>
      .pure (Stmt.contained_block l hbody)
  · exact yields_conditional hstatement bound
  · exact yields_whileStatement hstatement bound
  · exact yields_forStatement hstatement bound
  · exact .bind (yields_simple bound) fun s hs => .bind (.expect _) fun _ _ => .pure hs

end

/-- A statement that is read contains no definition, and no jump leaves the loops around it. -/
theorem yields_statement (bound : Nat) :
    ∀ loops, Yields loops (statement bound) fun s => s.Contained loops := by
  induction bound with
  | zero => exact fun loops => .ofError nofun
  | succ bound ih => exact fun loops => yields_statementWith ih (bound + 1)

/-! ## Programs -/

theorem yields_param : Yields loops param fun _ => True := by
  refine .bind .identifier fun type _ => .bind .identifier fun name _ => ?_
  refine .bind (.accept _) fun opened _ => ?_
  split
  · exact .bind (.expect _) fun _ _ => .pure trivial
  · exact .pure trivial

theorem yields_params (bound : Nat) : Yields loops (params bound) fun _ => True := by
  refine .bind (.ofLook (sees_eq .closeParen 0)) fun none _ => ?_
  split
  · exact .pure trivial
  · refine .bind (.ofLook fun _ => rfl) fun void _ => ?_
    split
    · exact .bind (.expect _) fun _ _ => .pure trivial
    · exact (Yields.sequence yields_param bound).mono fun _ _ => trivial

theorem yields_function (bound : Nat) : Yields 0 (function bound) Stmt.Node := by
  refine .bind yields_here fun l _ => .bind .identifier fun result _ => ?_
  refine .bind .identifier fun name _ => .bind (.expect _) fun _ _ => ?_
  refine .bind (yields_params bound) fun ps _ => .bind (.expect _) fun _ _ => ?_
  refine .bind (.ofLook (sees_eq .openBrace 0)) fun defined _ => ?_
  split
  · exact .bind (yields_braces (yields_statement bound) bound) fun body hbody =>
      .pure (.function name result ps l hbody)
  · exact .bind (.expect _) fun _ _ => .pure (.signature name result ps l)

theorem yields_topLevel (bound : Nat) : Yields 0 (topLevel bound) Stmt.Node := by
  refine .bind (.ofLook (sees_eq .openParen 2)) fun called _ => ?_
  split
  · exact yields_function bound
  · refine .bind (yields_declarators bound) fun s hs => .bind (.expect _) fun _ _ => .pure ?_
    obtain ⟨ss, rfl, hss⟩ := hs
    exact .declarations hss

theorem yields_program : Yields 0 program fun p => ∀ s ∈ p.nodes, s.Node := by
  refine .bind (.expect _) fun _ _ => .bind (.ofLook fun _ => rfl) fun bound _ => ?_
  refine .bind (.manyUntil .endOfInput (yields_topLevel bound) bound) fun nodes hnodes => ?_
  exact .bind (.expect _) fun _ _ => .pure hnodes

end Grammar

/-- The nodes of every program that is read from a source text. -/
theorem nodes_of_readProgram {source : String} {j j' : Journal} {p : Program}
    (h : readProgram source j = (.ok p, j')) : ∀ s ∈ p.nodes, s.Node := by
  rw [readProgram] at h
  split at h
  · cases h
  · rename_i cursor _ _
    rw [readNext, Parser.parse] at h
    cases hread : Grammar.program (.ofCursor cursor) with
    | ok program q =>
        rw [hread] at h
        cases h
        exact (Grammar.yields_program _ _ _ rfl hread).2
    | error e q =>
        rw [hread] at h
        cases h

end PocketC
