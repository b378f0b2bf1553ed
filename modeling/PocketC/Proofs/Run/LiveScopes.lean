/-
  PocketC.Proofs.Run.LiveScopes

  How many scopes are live during a run.  Inside of a call, and outside of all calls, the
  scopes are opened that blocks and turns of loops are run in, one inside of the other as
  they are written; so each call in progress adds no more of them than its function nests,
  and one more for itself.  Nothing is left open that was run to its end, so that the
  number of turns and calls does not matter.
-/

import PocketC.Proofs.Run.Places
import PocketC.Proofs.Run.WrittenParts

namespace PocketC

open Exec

/-! ## Room for scopes -/

/-- The machine and what is still to be opened on it fit into the scopes of the calls in progress,
    each of which has `n + 1` of them. -/
structure Part.Fits (limits : Limits) (n : Nat) (r : Part) : Prop where
  calls : r.start.activeCalls ≤ limits.calls
  scopes : r.start.scopes.size + r.task.nesting ≤ (r.start.activeCalls + 1) * (n + 1)

namespace Part

variable {limits : Limits} {fuel n : Nat} {p : Program} {m : Machine} {s r : Part}

theorem Fits.next (h : s.Fits limits n) (hplace : Place limits s r)
    (hcallee : ∀ callee args l, s.task = .enter callee args l →
      Stmt.nestingAll callee.body ≤ n) : r.Fits limits n := by
  cases hplace with
  | same hrestored hnesting _ =>
      refine ⟨?_, ?_⟩
      · rw [hrestored.activeCalls]
        exact h.calls
      · rw [hrestored.activeCalls, hrestored.size]
        exact (Nat.add_le_add_left hnesting _).trans h.scopes
  | inner hopens hcalls hnesting =>
      refine ⟨hcalls ▸ h.calls, ?_⟩
      have hroom := h.scopes
      rw [hopens.size, hcalls]
      omega
  | call callee args l htask hdepth hopens hcalls hnesting =>
      refine ⟨hcalls ▸ hdepth, ?_⟩
      -- the scopes of the new call are the one that it opens and those that its body nests
      have hroom := h.scopes
      have hbody := hnesting.trans (hcallee callee args l htask)
      rw [hopens.size, hcalls, Nat.succ_mul]
      omega

/-- Every part of a run of a program begins with room for all that it opens. -/
theorem Within.fits (h : Within limits (.ofProgram fuel p m) r) : r.Fits limits p.nesting := by
  induction h with
  | refl =>
      refine ⟨Nat.zero_le _, ?_⟩
      have hnodes := p.nestingAll_nodes_le
      show 1 + Stmt.nestingAll p.nodes ≤ (0 + 1) * (p.nesting + 1)
      omega
  | @tail s r hs hb ih =>
      refine ih.next (hb.place (Within.wellFormed hs (Machine.wellFormed_reset m))) ?_
      intro callee args l htask
      have hwrites := Within.writes hs
      rw [htask] at hwrites
      exact hwrites.nestingAll_le

end Part

/-! ## The invariant -/

/-- The greatest index that a scope may have in a run of the program. -/
def Program.lastScope (limits : Limits) (p : Program) : Nat :=
  p.nesting + limits.calls * (p.nesting + 1)

theorem Part.Fits.size_le {limits : Limits} {p : Program} {r : Part}
    (h : r.Fits limits p.nesting) : r.start.scopes.size ≤ p.lastScope limits + 1 := by
  calc r.start.scopes.size
      ≤ (r.start.activeCalls + 1) * (p.nesting + 1) := (Nat.le_add_right _ _).trans h.scopes
    _ ≤ (limits.calls + 1) * (p.nesting + 1) :=
        Nat.mul_le_mul_right _ (Nat.succ_le_succ h.calls)
    _ = p.lastScope limits + 1 := by
        rw [Program.lastScope, Nat.succ_mul]
        omega

/-- No more calls are in progress than there may be, and no scope that is live on `q`, or was
    recorded to be opened since `m`, has a greater index than `last`. -/
structure Machine.Bounds (limits : Limits) (last : Nat) (m q : Machine) : Prop where
  calls : q.activeCalls ≤ limits.calls
  live : q.scopes.size ≤ last + 1
  pushed : ∃ es, m.journal.Extends q.journal es ∧
    ∀ scope parent, Event.pushed scope parent ∈ es → scope ≤ last

namespace Machine.Bounds

variable {limits : Limits} {last : Nat} {m q : Machine}

theorem reset (m : Machine) : m.Bounds limits last m.reset :=
  ⟨Nat.zero_le _, Nat.succ_le_succ (Nat.zero_le _), [], .refl m.journal, nofun⟩

theorem setScopes (h : m.Bounds limits last q) {u : ScopeTree}
    (hu : u.parents = q.scopes.parents) : m.Bounds limits last { q with scopes := u } :=
  ⟨h.calls, (ScopeTree.size_congr hu).trans_le h.live, h.pushed⟩

/-- Recording an event keeps the bounds if it opens no scope or one with an index up to `last`. -/
theorem log (h : m.Bounds limits last q) {e : Event}
    (he : ∀ scope parent, e = .pushed scope parent → scope ≤ last) :
    m.Bounds limits last (q.log e) := by
  obtain ⟨es, hes, hpushed⟩ := h.pushed
  refine ⟨h.calls, h.live, _, hes.trans (q.journal.extends_record e), ?_⟩
  intro scope parent hmem
  rcases List.mem_append.mp hmem with hmem | hmem
  · exact hpushed scope parent hmem
  · split at hmem
    · exact he scope parent (List.mem_singleton.mp hmem).symm
    · cases hmem

theorem quiet {r : Machine} (h : m.Bounds limits last q) (hr : q.Quiet limits r) :
    m.Bounds limits last r := by
  have hlog : ∀ {e : Event}, e.aboutScope = false → m.Bounds limits last (q.log e) := by
    intro e he
    refine h.log ?_
    rintro scope parent rfl
    cases he
  cases hr with
  | log he => exact hlog he
  | print text l => exact ⟨h.calls, h.live, (hlog (e := .printed text l) rfl).pushed⟩
  | called callee args l hdepth =>
      exact ⟨hdepth, h.live, (hlog (e := .called callee.name args.length l) rfl).pushed⟩
  | returned => exact ⟨(Nat.sub_le _ _).trans h.calls, h.live, h.pushed⟩

theorem opened (h : m.Bounds limits last q) {parent : Nat}
    (hsize : (q.opened parent).scopes.size ≤ last + 1) :
    m.Bounds limits last (q.opened parent) := by
  have hnest : (q.opened parent).scopes.size = q.scopes.size + 1 :=
    ScopeTree.size_nest q.scopes parent
  have hlog : m.Bounds limits last (q.log (.pushed q.scopes.size parent)) := by
    refine h.log ?_
    rintro _ _ ⟨⟩
    omega
  exact ⟨h.calls, hsize, hlog.pushed⟩

theorem closed (h : m.Bounds limits last q) {rest : ScopeTree} {scope saved : Nat}
    (hrest : rest.size ≤ q.scopes.size) : m.Bounds limits last (q.closed rest scope saved) :=
  ⟨h.calls, hrest.trans h.live, (h.log (e := .popped scope) nofun).pushed⟩

end Machine.Bounds

namespace Exec

/-- A run of a program keeps the bounds. -/
def boundsInvariant (limits : Limits) (fuel : Nat) (p : Program) (m : Machine) :
    Invariant limits (.ofProgram fuel p m) where
  Holds q := m.Bounds limits (p.lastScope limits) q
  store _ _ h _ _ _ hu := ⟨h.setScopes hu.parents, trivial⟩
  assignElement _ _ h _ _ _ _ hu := h.setScopes hu.parents
  declareVar _ _ h _ hu := h.setScopes hu.parents
  declareFun _ _ h hu := h.setScopes hu.parents
  defineFun _ _ _ h _ hu := h.setScopes hu.parents
  opens hp _ h _ := h.opened hp.fits.size_le
  closes _ _ h hclose _ := by
    have hsize := ScopeTree.size_close hclose
    exact h.closed (by omega)
  quiet hq h := h.quiet hq

end Exec

/-- At every moment of every run of a program, no more calls are in progress than the limit allows,
    and neither a live scope nor one that was opened before has a greater index than the program
    allows: outside of all calls as many scopes are open inside of the global one as the program
    nests, and each call opens one more and nests as many in it. -/
theorem live_scopes_bounded (limits : Limits) (fuel : Nat) (p : Program) (m : Machine) :
    ∀ q, (Part.ofProgram fuel p m).Moment limits q →
      q.activeCalls ≤ limits.calls ∧
      q.scopes.size ≤ p.nesting + limits.calls * (p.nesting + 1) + 1 ∧
      ∃ es, m.journal.Extends q.journal es ∧ ∀ scope parent, Event.pushed scope parent ∈ es →
        scope ≤ p.nesting + limits.calls * (p.nesting + 1) := by
  intro q hq
  let L := Exec.boundsInvariant limits fuel p m
  have hroot : L.At (.ofProgram fuel p m) := L.at_ofProgram (.reset m)
  have hbounds : m.Bounds limits (p.lastScope limits) q := hroot.moment hq
  exact ⟨hbounds.calls, hbounds.live, hbounds.pushed⟩

/-- A block at the top calls a function, and in a block of the function as many scopes are live as
    there may be at once. -/
theorem live_scopes_bounded_attained :
    let l := Location.start
    let body : List Stmt := [.block [.expression (.int 0 l)] l]
    let p : Program := ⟨[.declareFun "f" "int" [] l, .defineFun "f" "int" [] body l,
      .block [.expression (.call "f" [] l)] l]⟩
    let limits : Limits := ⟨1, 0⟩
    let m := Machine.new (.new (some .trace))
    ∃ q, (Part.ofProgram 1 p m).Moment limits q ∧ q.scopes.size = 4 ∧
      p.nesting + limits.calls * (p.nesting + 1) = 3 ∧ q.activeCalls ≤ limits.calls ∧
      ∃ es, m.journal.Extends q.journal es ∧ .pushed 3 2 ∈ es ∧
        ∀ scope parent, Event.pushed scope parent ∈ es → scope ≤ 3 := by
  intro l body p limits m
  have hnodes : Part.Within limits (.ofProgram 1 p m) ⟨1, .bindNodes p.nodes, _⟩ :=
    (Part.Within.refl _).begins .nodes
  have hblock := ((hnodes.begins (.otherNodes rfl)).begins (.otherNodes rfl)).begins .node
  have hcall := ((hblock.begins .block).begins .statement).begins .expression
  have hbody := (hcall.begins (.call rfl rfl)).begins (.callBody (by decide) rfl)
  have hinner := (hbody.begins .statement).begins .block
  have hmoment : (Part.ofProgram 1 p m).Moment limits _ := ⟨_, hinner, .inl rfl⟩
  obtain ⟨hcalls, _, es, hes, hpushed⟩ := live_scopes_bounded limits 1 p m _ hmoment
  refine ⟨_, hmoment, rfl, by decide, hcalls, es, hes, ?_, hpushed⟩
  have hevents : _ = [] ++ es := hes.events
  rw [List.nil_append] at hevents
  rw [← hevents]
  decide

end PocketC
