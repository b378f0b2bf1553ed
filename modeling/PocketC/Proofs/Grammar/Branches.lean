/-
  PocketC.Proofs.Grammar.Branches

  What the branches of conditionals declare around themselves.  A branch that is a
  declaration gets a block when it is read, and no other statement but a declaration
  declares anything in the scope that it is run in.  So the branches of a program that was
  read declare nothing there, but for what the initializer of a loop declares.
-/

import PocketC.Proofs.Grammar.Nodes
import PocketC.Proofs.Print.RoundTrip
import PocketC.Proofs.Tree.Scopes

namespace PocketC
namespace Stmt

/-- The branches of the statement, if it is a conditional, declare nothing in the scope that they
    are run in, but for what the initializers of loops declare. -/
def BranchesDeclareNothing : Stmt → Prop
  | .ifElse _ yes no _ => yes.declares = [] ∧ no.declares = []
  | _ => True

/-- No branch in the statement declares anything around itself. -/
def Sheltered (s : Stmt) : Prop := ∀ r, s.Has r → r.BranchesDeclareNothing

theorem Sheltered.ofParts {s : Stmt} (hs : s.BranchesDeclareNothing)
    (hparts : ∀ t ∈ s.parts, t.Sheltered) : s.Sheltered := by
  intro r hr
  rcases Relation.ReflTransGen.cases_head hr with rfl | ⟨t, ht, hr⟩
  · exact hs
  · exact hparts t ht r hr

theorem Plain.sheltered {s : Stmt} (h : s.Plain) : s.Sheltered := by
  cases s with
  | declareVar | expression => exact .ofParts trivial nofun
  | _ => cases h

theorem sheltered_group {ss : List Stmt} (h : ∀ s ∈ ss, s.Sheltered) : (group ss).Sheltered :=
  .ofParts trivial h

end Stmt

theorem Declarator.plain {type : String} {ss : List Stmt} {w : List Token}
    (h : Declarator type ss w) : ∀ s ∈ ss, s.Plain := by
  cases h with
  | bare => simp [Stmt.Plain]
  | initialized => simp [Stmt.Plain]

theorem Variables.sheltered {s : Stmt} {w : List Token} (h : Variables s w) : s.Sheltered := by
  cases h with
  | intro _ declarators =>
      refine Stmt.sheltered_group fun s hs => ?_
      obtain ⟨ss, hss, hs⟩ := List.mem_flatten.mp hs
      have hplain := declarators.forall_mem (Q := fun _ => True) (P := fun ss => ∀ s ∈ ss, s.Plain)
        (fun _ _ => trivial) (fun _ _ h _ => h.plain) ss hss
      exact (hplain s hs).sheltered

theorem VariablesOrExpression.sheltered {s : Stmt} {w : List Token}
    (h : VariablesOrExpression s w) : s.Sheltered := by
  cases h with
  | declaration h => exact h.sheltered
  | expression => exact .ofParts trivial nofun

/-- What stands for a declaration is a group, and nothing else declares anything around itself. -/
theorem Simple.declares {loops : Nat} {s : Stmt} {w : List Token} (h : Simple loops s w)
    (hs : s.isGroup = false) : s.declares = [] := by
  cases h with
  | other h =>
      cases h with
      | declaration h => cases h; cases hs
      | expression => rfl
  | _ => rfl

theorem Simple.sheltered {loops : Nat} {s : Stmt} {w : List Token} (h : Simple loops s w) :
    s.Sheltered := by
  cases h with
  | other h => exact h.sheltered
  | _ => exact .ofParts trivial nofun

/-- What is read in the form declares nothing around a branch. -/
def Form.Sheltered : Form → Prop
  | .statement s => (s.isGroup = false → s.declares = []) ∧ s.Sheltered
  | .statements ss => ∀ s ∈ ss, s.Sheltered
  | .branch s => s.declares = [] ∧ s.Sheltered

theorem Forms.sheltered {loops : Nat} {form : Form} {w : List Token} (h : Forms loops form w) :
    form.Sheltered := by
  induction h with
  | block _ _ _ ih => exact ⟨fun _ => rfl, .ofParts trivial ih⟩
  | @ifThen _ _ _ _ _ yes _ _ _ _ _ _ _ ih =>
      have hno : (Stmt.group []).Sheltered := .ofParts trivial nofun
      have hbranches : yes.declares ++ (Stmt.group []).declares = [] := by
        rw [ih.1]
        rfl
      refine ⟨fun _ => hbranches, .ofParts ⟨ih.1, rfl⟩ ?_⟩
      exact List.forall_mem_cons.mpr ⟨ih.2, List.forall_mem_singleton.mpr hno⟩
  | @ifElse _ _ _ _ _ _ yes no _ _ _ _ _ _ _ _ _ _ _ ihyes ihno =>
      have hbranches : yes.declares ++ no.declares = [] := by
        rw [ihyes.1, ihno.1]
        rfl
      refine ⟨fun _ => hbranches, .ofParts ⟨ihyes.1, ihno.1⟩ ?_⟩
      exact List.forall_mem_cons.mpr ⟨ihyes.2, List.forall_mem_singleton.mpr ihno.2⟩
  | whileLoop _ _ _ _ _ ih =>
      exact ⟨fun _ => rfl, .ofParts trivial (List.forall_mem_singleton.mpr ih.2)⟩
  | forLoop _ _ first _ _ _ _ _ _ ih =>
      refine ⟨fun _ => rfl, .ofParts trivial ?_⟩
      exact List.forall_mem_cons.mpr ⟨first.sheltered, List.forall_mem_singleton.mpr ih.2⟩
  | simple h => exact ⟨h.declares, h.sheltered⟩
  | nil => exact nofun
  | cons _ _ ihfirst ihothers => exact List.forall_mem_cons.mpr ⟨ihfirst.2, ihothers⟩
  | @branch _ _ s _ _ ih =>
      -- a declaration is the group of its block, any other statement stays as it is
      cases s with
      | group body => exact ⟨rfl, .ofParts trivial (List.forall_mem_singleton.mpr ih.2)⟩
      | _ => exact ⟨ih.1 rfl, ih.2⟩

theorem TopLevel.sheltered {s : Stmt} {w : List Token} (h : TopLevel s w) : s.Sheltered := by
  cases h with
  | declaration h => exact h.sheltered
  | signature => exact .ofParts trivial nofun
  | function _ _ _ _ _ _ body =>
      refine Stmt.sheltered_group (List.forall_mem_cons.mpr ⟨?_, List.forall_mem_singleton.mpr ?_⟩)
      · exact .ofParts trivial nofun
      · exact .ofParts trivial body.sheltered

theorem sheltered_of_repeated {ss : List Stmt} {w : List Token}
    (h : Rows.Repeated TopLevel ss w) : ∀ s ∈ ss, s.Sheltered := by
  induction h with
  | nil => exact nofun
  | cons first _ ih => exact List.forall_mem_cons.mpr ⟨first.sheltered, ih⟩

/-- No branch in a program that was read declares anything around itself, but for what the
    initializers of loops declare. -/
theorem branches_of_readProgram {source : String} {j j' : Journal} {p : Program}
    (h : readProgram source j = (.ok p, j')) {s : Stmt} (hs : p.HasStmt s) :
    s.BranchesDeclareNothing := by
  obtain ⟨ts, q, hscan, hparse⟩ := readProgram_eq_ok.mp (congrArg Prod.fst h)
  obtain ⟨w, _, hrow⟩ := lexemes_of_scan hscan hparse
  obtain ⟨n, hn, hns⟩ := hs
  exact sheltered_of_repeated hrow n hn s hns

end PocketC
