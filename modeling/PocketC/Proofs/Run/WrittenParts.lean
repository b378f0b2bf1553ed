/-
  PocketC.Proofs.Run.WrittenParts

  Every part of a run of a program does something that is written in the program.  A call
  may run any function that is bound, so the statement needs its counterpart about
  bindings: the functions that are bound are those that the program defines.
-/

import PocketC.Proofs.Run.Effects
import PocketC.Proofs.Tree.Written

namespace PocketC

open Exec

/-- What the part does is written in the program; the call of the entry point alone is not. -/
def Program.Writes (p : Program) : Task → Prop
  | .eval e => p.HasExpr e ∨ e = .call entryPoint [] .start
  | .evalAll es | .evalElements es => ∀ e ∈ es, p.HasExpr e
  | .enter callee _ _ => p.Defines callee
  | .defineFun name ps body _ => p.Defines ⟨name, ps, body⟩
  | .run s => p.HasStmt s
  | .runAll ss | .bindNodes ss => ∀ s ∈ ss, p.HasStmt s
  | .loop e body step _ => p.HasExpr e ∧ p.HasStmt body ∧ ∀ e ∈ step, p.HasExpr e
  | .program q => q = p
  | _ => True

/-- A function is bound to a body that the program gives to the symbol. -/
def Program.Binds (p : Program) : Symbol → Binding → Prop
  | .fn name _, .fn f => ∀ body, f.body = some body → p.Defines ⟨name, f.params, body⟩
  | _, _ => True

namespace Program

variable {limits : Limits} {p : Program}

/-- The call of the entry point has no parts, so those of any expression that a part of the run
    evaluates are written. -/
theorem hasExpr_part {e a : Expr} (h : p.Writes (.eval e)) (ha : a ∈ e.parts) :
    p.HasExpr a := by
  rcases h with h | rfl
  · exact h.part ha
  · cases ha

/-- A part begins only what is written, on a machine that binds only what is written. -/
theorem Writes.begins {q r : Part} (hb : Part.Begins limits q r) (hm : q.start.WellFormed)
    (hbinds : q.start.scopes.Binds p.Binds) (h : p.Writes q.task) : p.Writes r.task := by
  cases hb with
  -- expressions
  | binaryLeft | negated | assigned | elementIndex | readIndex =>
      exact .inl (hasExpr_part h List.mem_cons_self)
  | binaryRight | elementAssigned =>
      exact .inl (hasExpr_part h (List.mem_cons_of_mem _ List.mem_cons_self))
  | arguments | elements => exact fun _ ha => hasExpr_part h ha
  | @call _ name args l _ _ _ _ _ hcallee =>
      obtain ⟨f, body, hf, hbody, hfind⟩ | ⟨_, hfind⟩ := findCallee_cases hm name args.length l
      · rw [hfind] at hcallee
        cases hcallee
        exact hbinds.lookup hf body hbody
      · rw [hfind] at hcallee
        cases hcallee
  | argument | element => exact .inl (h _ List.mem_cons_self)
  | otherArguments | otherElements => exact fun e he => h e (List.mem_cons_of_mem _ he)
  -- calls and declarations
  | callBody => exact fun _ hs => h.body hs
  | arraySize => exact .inl (h.expression List.mem_cons_self)
  | definition => exact ⟨_, _, h⟩
  -- statements
  | block | group => exact fun _ hs => h.part hs
  | condition | returned | expression => exact .inl (h.expression List.mem_cons_self)
  | intrinsicArguments => exact fun _ he => h.expression he
  | yes | initializer => exact h.part List.mem_cons_self
  | no => exact h.part (List.mem_cons_of_mem _ List.mem_cons_self)
  | whileLoop => exact ⟨h.expression List.mem_cons_self, h.part List.mem_cons_self, nofun⟩
  | forLoop =>
      refine ⟨h.expression List.mem_cons_self,
        h.part (List.mem_cons_of_mem _ List.mem_cons_self), ?_⟩
      rintro _ ⟨⟩
      exact h.expression (List.mem_cons_of_mem _ List.mem_cons_self)
  | statement | node => exact h _ List.mem_cons_self
  | otherStatements | otherNodes => exact fun s hs => h s (List.mem_cons_of_mem _ hs)
  -- loops
  | test => exact .inl h.1
  | turn => exact h.2.1
  | step => exact .inl (h.2.2 _ rfl)
  | otherTurns => exact h
  -- programs
  | nodes =>
      obtain rfl := h
      exact fun _ hs => hasStmt_node hs
  | main => exact .inr rfl
  | _ => trivial

end Program

namespace Exec

/-- During a run of a program, functions are bound to what the program gives to them. -/
def writtenInvariant (limits : Limits) (root : Part) (p : Program) : Invariant limits root where
  Holds m := m.scopes.Binds p.Binds
  Does := p.Writes
  begins := Program.Writes.begins
  store _ _ h _ _ _ hu := ⟨hu.binds h fun _ => trivial, trivial⟩
  assignElement _ _ h _ _ _ _ hu := hu.binds h fun _ => trivial
  declareVar _ _ h _ hu := hu.binds h trivial
  declareFun _ _ h hu := hu.binds h nofun
  defineFun _ hdefines _ h hg hu := by
    refine hu.binds h fun _ => ?_
    obtain ⟨_, rfl⟩ := Function.body_of_define hg
    rintro _ ⟨⟩
    exact hdefines
  opens _ _ h _ := h.nest _
  closes _ _ h hclose _ := h.close hclose
  quiet hq h := by
    rw [hq.scopes]
    exact h

end Exec

/-- Every part of a run of a program does something that is written in it. -/
theorem Part.Within.writes {limits : Limits} {fuel : Nat} {p : Program} {m : Machine} {r : Part}
    (h : Part.Within limits (.ofProgram fuel p m) r) : p.Writes r.task := by
  let L := writtenInvariant limits (.ofProgram fuel p m) p
  have hroot : L.At (.ofProgram fuel p m) := L.at_ofProgram ScopeTree.binds_new rfl
  exact (hroot.within_root h).does

end PocketC
