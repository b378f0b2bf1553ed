/-
  PocketC.Proofs.Run.Containment

  Jumps and definitions stay where they belong.  A jump can only end a body that it is
  written in, since every function that is bound is one that the program defines.  A
  program that was read defines no body that a jump may leave, and it defines no
  function before its declaration, so that its runs give a value or fault.
-/

import PocketC.Proofs.Grammar.Nodes
import PocketC.Proofs.Run.Provenance
import PocketC.Proofs.Run.Restoration

namespace PocketC
namespace Exec

variable {α : Type} {F : Functions}

/-! ## Nodes -/

/-- Where it ends by itself, the statement is done. -/
def Finishes (x : Exec Flow) : Prop := ∀ m flow q, x m = .ok flow q → flow = .done

theorem finishes_step (x : Exec α) : Finishes (x >>= fun _ => pure .done) := by
  intro m flow q h
  obtain ⟨a, r, _, hdone⟩ := bind_eq_ok.mp h
  cases hdone
  rfl

section
variable {limits : Limits} {fuel : Nat} {enter : Enter}

theorem finishes_runAll {ss : List Stmt} (h : ∀ s ∈ ss, Finishes (run limits fuel enter s)) :
    Finishes (runAll limits fuel enter ss) := by
  induction ss with
  | nil =>
      rintro m _ q ⟨⟩
      rfl
  | cons s ss ih =>
      obtain ⟨hs, hss⟩ := List.forall_mem_cons.mp h
      intro m flow q hrun
      rw [runAll] at hrun
      obtain ⟨first, r, hfirst, hrest⟩ := bind_eq_ok.mp hrun
      cases hs m first r hfirst
      exact ih hss r flow q hrest

theorem finishes_plain {s : Stmt} (h : s.Plain) : Finishes (run limits fuel enter s) := by
  cases s with
  | declareVar => exact finishes_step _
  | expression => exact finishes_step _
  | _ => cases h

/-- A node hands no jump and no value to anything around it. -/
theorem finishes_node {s : Stmt} (h : s.Node) : Finishes (run limits fuel enter s) := by
  cases h with
  | declarations hss => exact finishes_runAll fun s hs => finishes_plain (hss s hs)
  | signature => exact finishes_step _
  | function =>
      refine finishes_runAll ?_
      simp only [List.forall_mem_cons, List.not_mem_nil]
      exact ⟨finishes_step _, finishes_step _, nofun⟩

end

/-! ## Definitions behind their declarations -/

/-- A symbol that was declared is bound in the current scope. -/
theorem bindsAt_of_declare {y : Symbol} {b : Binding} {m q : Machine} {free : Bool}
    (h : declare y b m = .ok free q) : q.scopes.bindsAt y q.current = true := by
  by_cases hlive : m.current < m.scopes.size
  · rw [declare_eq hlive] at h
    cases hd : m.scopes.declare m.current y b with
    | some scopes =>
        rw [hd] at h
        cases h
        exact ScopeTree.bindsAt_declare hlive hd
    | none =>
        rw [hd] at h
        cases h
        exact ScopeTree.bindsAt_of_declare_none hd
  · have hcurrent : currentScope m = .error (.defect (.deadScope m.current)) m := if_neg hlive
    cases (bind_error hcurrent).symm.trans h

theorem bindsAt_of_runFunDeclaration {name result : String} {ps : List Param} {l : Location}
    {m q : Machine} (h : runFunDeclaration name result ps l m = .ok () q) :
    q.scopes.bindsAt (.fn name ps.length) q.current = true := by
  obtain ⟨free, r, hdeclare, hlog⟩ := bind_eq_ok.mp h
  have hbound := bindsAt_of_declare hdeclare
  -- whether the name was free or not, what is left to do binds nothing
  cases free with
  | true => cases hlog; exact hbound
  | false => cases hlog; exact hbound

/-- Where a symbol is bound in the current scope, it is resolved. -/
theorem resolve_of_bindsAt {y : Symbol} {m : Machine}
    (h : m.scopes.bindsAt y m.current = true) :
    ∃ b, m.scopes.lookup m.current y = some b ∧ resolve y m = .ok (some b) m := by
  obtain ⟨hstranded, b, hb⟩ := ScopeTree.lookup_of_bindsAt h
  obtain ⟨s, _, hs, _⟩ := ScopeTree.bindsAt_iff.mp h
  have hlive : m.current < m.scopes.size := (List.getElem?_eq_some_iff.mp hs).1
  refine ⟨b, hb, ?_⟩
  rw [resolve_of_search (search_of_stranded hlive hstranded), hb]

/-- The definition of a function whose symbol is bound in the current scope finds its
    declaration there. -/
theorem gives_runFunDefinition {c : Callee} (hc : F.Fn c) (l : Location)
    {m : Machine} (hm : m.scopes.Binds F.Bound)
    (hbound : m.scopes.bindsAt (.fn c.name c.params.length) m.current = true) :
    Gives F (fun _ => True) (runFunDefinition c.name c.params c.body l m) := by
  obtain ⟨b, hb, hresolve⟩ := resolve_of_bindsAt hbound
  have hB := hm.lookup hb
  rw [runFunDefinition, bind_ok hresolve]
  cases b with
  | var v => cases hB
  | fn f =>
      dsimp only
      cases hg : f.define c.params c.body with
      | some g => exact Keeps.rebind (Functions.bound_define hc hg) m hm
      | none => exact Keeps.ofStop (.fault _) (by rintro name arity ⟨⟩) (fun _ => rfl) m hm

section
variable {limits : Limits} {fuel : Nat} {enter : Enter}

/-- A declaration with the definition behind it needs no permission to run the definition. -/
theorem keeps_function {c : Callee} (hc : F.Fn c) (result : String) (l : Location) :
    Keeps F (run limits fuel enter (.group [.declareFun c.name result c.params l,
      .defineFun c.name result c.params c.body l])) fun _ => True := by
  have hrun : run limits fuel enter (.group [.declareFun c.name result c.params l,
      .defineFun c.name result c.params c.body l]) = (do
        runFunDeclaration c.name result c.params l
        runFunDefinition c.name c.params c.body l
        return .done) := by
    simp [run, runAll]
  intro m hm
  have hdeclared : Gives F (fun _ => True) (runFunDeclaration c.name result c.params l m) :=
    (keepsLogic limits F).runFunDeclaration c.name result c.params l m hm
  rw [hrun]
  refine hdeclared.bind fun _ q hd hq _ => ?_
  have hdefined := gives_runFunDefinition hc l hq (bindsAt_of_runFunDeclaration hd)
  exact hdefined.bind fun _ r _ hr _ => ⟨hr, trivial⟩

/-- A node that was read binds only functions that no jump leaves. -/
theorem keeps_node (henter : ((keepsLogic limits .closed).toLogic).Enters enter) {s : Stmt}
    (h : s.Node) : Keeps .closed (run limits fuel enter s) fun _ => True := by
  have hrun : s.definitions = [] → Keeps .closed (run limits fuel enter s) fun _ => True := by
    intro hs
    have hdef : ∀ d ∈ s.definitions, Functions.closed.Def d := by
      rw [hs]
      exact nofun
    have hflow := (keepsLogic limits .closed).toLogic.run henter fuel s hdef
    exact (keepsLogic limits .closed).toLogic.mono hflow fun _ _ => trivial
  cases h with
  | declarations hss =>
      have hgroup : (Stmt.group _).Contained 0 :=
        Stmt.contained_group fun s hs => (hss s hs).contained
      exact hrun hgroup.definitions
  | signature => exact hrun rfl
  | @function name result ps body l hbody =>
      have hclosed : Stmt.closed body := Stmt.escapesAny_of_contained hbody rfl
      exact @keeps_function .closed limits fuel enter ⟨name, ps, body⟩
        ⟨hclosed, Stmt.definitionsAll_of_contained hbody⟩ result l

theorem keeps_bindNodes {ss : List Stmt} (h : ∀ s ∈ ss, s.Node) :
    Keeps .closed (bindNodes limits fuel ss) fun _ => True := by
  induction ss with
  | nil => exact fun _ hm => ⟨hm, trivial⟩
  | cons s ss ih =>
      obtain ⟨hs, hss⟩ := List.forall_mem_cons.mp h
      rw [bindNodes]
      exact .bind (keeps_node ((keepsLogic limits .closed).toLogic.enter fuel) hs)
        fun _ _ => ih hss

end

/-! ## Programs -/

/-- A run of a program binds the functions that the program defines. -/
theorem keeps_runProgram (limits : Limits) (fuel : Nat) (p : Program) :
    Keeps (.definedIn p.nodes) (runProgram limits fuel p) fun _ => True := by
  have hbind := (keepsLogic limits (.definedIn p.nodes)).toLogic.bindNodes fuel p.nodes
    fun _ hd => hd
  exact (keepsLogic limits (.definedIn p.nodes)).toLogic.runProgram fuel hbind

theorem keeps_runProgram_of_nodes (limits : Limits) (fuel : Nat) {p : Program}
    (h : ∀ s ∈ p.nodes, s.Node) : Keeps .closed (runProgram limits fuel p) fun _ => True :=
  (keepsLogic limits .closed).toLogic.runProgram fuel (keeps_bindNodes h)

end Exec

/-! ## Sessions -/

namespace Session

/-- The session after as many runs, each with its fuel. -/
def after (s : Session) (fuels : List Nat) : Session := fuels.foldl (fun s fuel => (s.run fuel).2) s

theorem program_run (s : Session) (fuel : Nat) : (s.run fuel).2.program = s.program := by
  rw [run]
  split <;> rfl

theorem program_after (s : Session) (fuels : List Nat) : (s.after fuels).program = s.program := by
  induction fuels generalizing s with
  | nil => rfl
  | cons fuel fuels ih => exact (ih (s.run fuel).2).trans (s.program_run fuel)

/-- If every run of the program keeps the allowed bindings, a run of the session only stops for
    an allowed reason. -/
theorem allows_of_run {F : Functions} {s : Session} {fuel : Nat} {stop : Stop}
    (hkeeps : Exec.Keeps F (Exec.runProgram s.limits fuel s.program) fun _ => True)
    (h : (s.run fuel).1 = .error stop) : F.Allows stop := by
  have hgives := hkeeps s.machine.reset ScopeTree.binds_new
  rw [run] at h
  cases hrun : Exec.runProgram s.limits fuel s.program s.machine.reset with
  | ok v q =>
      rw [hrun] at h
      cases h
  | error stop' q =>
      rw [hrun] at h hgives
      cases h
      exact hgives.2

/-- A run of a program that was read gives a value, or faults, but not for the lack of a
    declaration, or it needs more fuel. -/
theorem run_of_nodes {s : Session} (h : ∀ n ∈ s.program.nodes, n.Node) (fuel : Nat) :
    match (s.run fuel).1 with
    | .ok _ | .error .outOfFuel => True
    | .error (.fault f) => ∀ name arity, f.cause ≠ .missingDeclaration name arity
    | .error (.defect _) => False := by
  have hkeeps := Exec.keeps_runProgram_of_nodes s.limits fuel h
  have hidle := s.run_idle fuel
  cases hrun : (s.run fuel).1 with
  | ok v => trivial
  | error stop =>
      have hallows := allows_of_run hkeeps hrun
      cases stop with
      | outOfFuel => trivial
      | fault f =>
          intro name arity hcause
          obtain ⟨_, hdef, _⟩ := hallows name arity hcause
          exact hdef
      | defect d =>
          rw [hrun] at hidle
          -- the only defect is an escaped jump, and no jump leaves an allowed function
          obtain ⟨j, name, rfl⟩ := hidle
          obtain ⟨c, hc, _, hescapes⟩ := hallows
          rw [hc.1 j] at hescapes
          cases hescapes

end Session

/-- Jumps stay inside of the functions they are written in.  The runs of a program that was read
    from a source text give a value or fault, none of its nodes ends in a jump or a returned
    value, and no definition lacks its declaration.  In the runs of any program a jump only ends
    the body of a function that it leaves. -/
theorem jumps_stay_in_functions :
    (∀ (source : String) (j j' : Journal) (p : Program), readProgram source j = (.ok p, j') →
      (∀ s ∈ p.nodes, ∀ (limits : Limits) (fuel : Nat) (m : Machine) (flow : Flow) (q : Machine),
        Exec.run limits fuel (Exec.enter limits fuel) s m = .ok flow q → flow = .done) ∧
      (∀ (limits : Limits) (k : Journal) (fuels : List Nat) (fuel : Nat),
        match (((Session.new p limits k).after fuels).run fuel).1 with
        | .ok _ | .error .outOfFuel => True
        | .error (.fault f) => ∀ name arity, f.cause ≠ .missingDeclaration name arity
        | .error (.defect _) => False)) ∧
    (∀ (s : Session) (fuel : Nat) (j : Jump) (name : String),
      (s.run fuel).1 = .error (.defect (.jumpEscaped j name)) →
      ∃ c ∈ Stmt.definitionsAll s.program.nodes, c.name = name ∧
        Stmt.escapesAny j c.body = true) := by
  refine ⟨?_, ?_⟩
  · intro source j j' p hread
    have hnodes := nodes_of_readProgram hread
    refine ⟨?_, ?_⟩
    · intro s hs limits fuel m flow q hrun
      exact Exec.finishes_node (hnodes s hs) m flow q hrun
    · intro limits k fuels fuel
      apply Session.run_of_nodes
      rw [Session.program_after]
      exact hnodes
  · intro s fuel j name hrun
    exact Session.allows_of_run (Exec.keeps_runProgram s.limits fuel s.program) hrun

/-- A `break` inside of a loop that was read, and one outside of any loop in a tree that
    nothing was read for. -/
theorem jumps_stay_in_functions_break :
    let source := "int main(){while(1)break;}"
    let body : List Stmt := [.breakLoop .start]
    let tree : Session := .new ⟨[.group [.declareFun "main" "int" [] .start,
      .defineFun "main" "int" [] body .start]]⟩ .standard (.new none)
    (∃ p j, readProgram source (.new none) = (.ok p, j) ∧ ∀ s ∈ p.nodes, ∀ m flow q,
      Exec.run .standard 9 (Exec.enter .standard 9) s m = .ok flow q → flow = .done) ∧
    (tree.run 2).1 = .error (.defect (.jumpEscaped .leave "main")) ∧
    ∃ c ∈ Stmt.definitionsAll tree.program.nodes, c.name = "main" ∧
      Stmt.escapesAny .leave c.body = true := by
  intro source body tree
  have hok : (readProgram source (.new none)).1.isOk = true := by decide +kernel
  have hescaped : (tree.run 2).1 = .error (.defect (.jumpEscaped .leave "main")) := rfl
  refine ⟨?_, hescaped, jumps_stay_in_functions.2 tree 2 .leave "main" hescaped⟩
  cases hread : readProgram source (.new none) with
  | mk r j =>
      cases r with
      | ok p => exact ⟨p, j, rfl, fun s hs => (jumps_stay_in_functions.1 _ _ _ p hread).1 s hs _ _⟩
      | error e =>
          rw [hread] at hok
          cases hok

end PocketC
