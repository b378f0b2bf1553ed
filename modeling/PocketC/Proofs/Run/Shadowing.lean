/-
  PocketC.Proofs.Run.Shadowing

  What becomes of a variable while a block has one of the same name.  The scope of the block
  is newer than the one of the outer variable, and outward the scopes become older.  So a
  search that would end at the outer variable meets the variable of the block before.

  Every part of the run of the block searches outward through the scope of the block, up to
  the calls that are run in it: a call searches through its own scope and the global one.
  Hence only a global variable can be reached past the block, and only by a call.
-/

import PocketC.Proofs.Run.Places

namespace PocketC

open Exec

/-! ## Where parts search -/

namespace Machine

variable {m q : Machine}

theorem Restored.outward (h : m.Restored q) :
    q.scopes.outward q.current = m.scopes.outward m.current := by
  rw [h.current, ScopeTree.outward_congr h.parents]

/-- From a scope that was opened a search goes on from the one around it. -/
theorem WellFormed.outward_opened (hm : m.WellFormed) {parent : Nat}
    (hp : parent < m.scopes.size) :
    (m.opened parent).scopes.outward (m.opened parent).current =
      m.scopes.size :: m.scopes.outward parent :=
  ScopeTree.outward_nest hm.nested hp

end Machine

namespace Part

variable {limits : Limits} {root p r : Part}

/-- A function is entered within the part. -/
def Calls (limits : Limits) (p : Part) : Prop :=
  ∃ fuel callee args l m, Within limits p ⟨fuel, .enter callee args l, m⟩ ∧
    m.activeCalls < limits.calls

/-- Where a part within `root` may meet an old scope, it meets every scope that `root` searches
    first, unless the old scope is the global one and a function was called. -/
theorem Within.passes (h : Within limits root r) (hm : root.start.WellFormed) {i s : Nat}
    (hi : i < root.start.scopes.size) (hs : s ∈ root.start.scopes.outward root.start.current) :
    i < r.start.scopes.size ∧ (i ∈ r.start.scopes.outward r.start.current →
      s ∈ r.start.scopes.outward r.start.current ∨ i = ScopeTree.global ∧ root.Calls limits) := by
  induction h with
  | refl => exact ⟨hi, fun _ => .inl hs⟩
  | @tail p r hp hb ih =>
      have hwf := Within.wellFormed hp hm
      cases hb.origin hwf with
      | same hrestored _ _ =>
          rw [hrestored.size, hrestored.outward]
          exact ih
      | @inner q hrestored hopened _ =>
          have hq := hrestored.wellFormed hwf
          rw [← hrestored.size, ← hrestored.outward] at ih
          rw [hopened, hq.outward_opened hq.current_live]
          refine ⟨?_, fun hmem => ?_⟩
          · show i < (q.scopes.nest q.current).2.size
            rw [ScopeTree.size_nest]
            exact Nat.lt_succ_of_lt ih.1
          · -- the scope that was opened is not an old one
            rcases List.mem_cons.mp hmem with rfl | hmem
            · exact absurd ih.1 (Nat.lt_irrefl _)
            · exact (ih.2 hmem).imp_left (List.mem_cons_of_mem _)
      | @call callee args l htask hdepth hrestored _ =>
          obtain ⟨fuel, task, m⟩ := p
          cases htask
          have hcalled := hwf.called callee args l
          have houtward : (m.entered callee args l).scopes.outward
              (m.entered callee args l).current = [m.scopes.size, ScopeTree.global] := by
            rw [Machine.entered, hcalled.outward_opened hcalled.global_live,
              ScopeTree.outward_global hcalled.nested hcalled.global_live]
            rfl
          rw [hrestored.size, hrestored.outward, houtward]
          refine ⟨?_, fun hmem => ?_⟩
          · show i < (m.scopes.nest ScopeTree.global).2.size
            rw [ScopeTree.size_nest]
            exact Nat.lt_succ_of_lt ih.1
          · rcases List.mem_cons.mp hmem with rfl | hmem
            · exact absurd ih.1 (Nat.lt_irrefl _)
            · exact .inr ⟨List.mem_singleton.mp hmem, fuel, callee, args, l, m, hp, hdepth⟩

end Part

/-! ## The outer variable -/

namespace ScopeTree

variable {t u : ScopeTree} {i k s : Nat} {x : String} {y : Symbol} {b : Option Binding}
  {c : Binding}

/-- The scope `s` has a variable of the name, and the scope `i` binds the name to `b`. -/
def Shadows (t : ScopeTree) (x : String) (s i : Nat) (b : Option Binding) : Prop :=
  t.boundAt i (.var x) = b ∧ (t.boundAt s (.var x)).isSome = true

theorem Shadows.lt_size (h : t.Shadows x s i b) : s < t.size := by
  obtain ⟨c, hc⟩ := Option.isSome_iff_exists.mp h.2
  exact lt_size_of_boundAt hc

theorem Shadows.congr (h : t.Shadows x s i b) (hi : u.live[i]? = t.live[i]?)
    (hs : u.live[s]? = t.live[s]?) : u.Shadows x s i b := by
  unfold Shadows
  rw [boundAt_congr hi, boundAt_congr hs]
  exact h

theorem Shadows.sets (h : t.Shadows x s i b) (hu : t.Sets u k y c) (hne : y = .var x → k ≠ i) :
    u.Shadows x s i b := by
  unfold Shadows
  rw [hu.boundAt, hu.boundAt]
  refine ⟨?_, ?_⟩
  · rw [if_neg fun hik => hne hik.2.symm hik.1.symm]
    exact h.1
  · split
    · rfl
    · exact h.2

end ScopeTree

namespace Exec

section
variable {limits : Limits} {root : Part} {i s : Nat}

/-- No part within `root` is run in the older scope `i`, or finds there a name that the scope `s`
    has a variable of. -/
theorem stays_off (hm : root.start.WellFormed) (hi : i < s)
    (hs : s ∈ root.start.scopes.outward root.start.current)
    (hcalls : i = ScopeTree.global → ¬root.Calls limits) {r : Part}
    (hr : Part.Within limits root r) : r.start.current ≠ i ∧
      ∀ y, (r.start.scopes.boundAt s y).isSome = true →
        r.start.scopes.holder r.start.current y ≠ some i := by
  have hle := ScopeTree.outward_le hm.nested s hs
  have hlive := hm.current_live
  have hwf := hr.wellFormed hm
  have hpasses : i ∈ r.start.scopes.outward r.start.current →
      s ∈ r.start.scopes.outward r.start.current := fun hmem =>
    ((hr.passes hm (by omega) hs).2 hmem).resolve_right fun h => hcalls h.1 h.2
  refine ⟨?_, fun y hy hholder => ?_⟩
  · rintro rfl
    have hself := ScopeTree.self_mem_outward hwf.nested hwf.current_live
    have hnewer := ScopeTree.outward_le hwf.nested s (hpasses hself)
    omega
  · have hmet := hpasses (ScopeTree.mem_outward_of_holder hholder)
    exact ScopeTree.holder_ne hwf.nested hmet hi hy hholder

/-- The variable in the scope `i` stays as it is during a run that searches through the newer scope
    `s` with a variable of the same name. -/
def shadowInvariant (limits : Limits) (root : Part) (hm : root.start.WellFormed) (x : String)
    (b : Option Binding) (hi : i < s) (hs : s ∈ root.start.scopes.outward root.start.current)
    (hcalls : i = ScopeTree.global → ¬root.Calls limits) : Invariant limits root where
  Holds q := q.scopes.Shadows x s i b
  store hp _ h _ _ _ hu := by
    obtain ⟨k, hk, _, hsets⟩ := hu
    refine ⟨h.sets hsets ?_, trivial⟩
    rintro ⟨⟩ rfl
    exact (stays_off hm hi hs hcalls hp).2 _ h.2 hk
  assignElement hp _ h _ _ _ _ hu := by
    obtain ⟨k, hk, _, hsets⟩ := hu
    refine h.sets hsets ?_
    rintro ⟨⟩ rfl
    exact (stays_off hm hi hs hcalls hp).2 _ h.2 hk
  declareVar hp _ h _ hu := h.sets hu.2 fun _ => (stays_off hm hi hs hcalls hp).1
  declareFun _ _ h hu := h.sets hu.2 nofun
  defineFun _ _ _ h _ hu := by
    obtain ⟨k, _, _, hsets⟩ := hu
    exact h.sets hsets nofun
  opens _ _ h _ := h.congr (ScopeTree.live_nest _ _ (hi.trans h.lt_size))
    (ScopeTree.live_nest _ _ h.lt_size)
  closes _ h hq hclose hparents := by
    have hlt := h.lt_size
    rw [← ScopeTree.size_congr hparents] at hlt
    exact hq.congr (ScopeTree.live_close hclose (hi.trans hlt))
      (ScopeTree.live_close hclose hlt)
  quiet hq h := by
    rw [hq.scopes]
    exact h

end

/-! ## Blocks -/

section
variable {α : Type} {body : Exec α} {Q : α → Prop} {m : Machine}

/-- A run in a scope of its own leaves in the old scopes what its body leaves there. -/
theorem live_inInnerScope (hbody : TidyRun body Q) (hm : m.WellFormed) {i : Nat}
    (hi : i < m.scopes.size) :
    (final (inInnerScope body m)).scopes.live[i]? =
      (final (body (m.opened m.current))).scopes.live[i]? := by
  have htidy := (hbody _ (hm.opened hm.current_live)).1
  -- what the body restored closes the scope that was opened for it
  have hclosed : ∀ q, (m.opened m.current).Restored q → ∃ rest,
      q.scopes.close m.scopes.size = some rest ∧ rest.live[i]? = q.scopes.live[i]? := by
    intro q hq
    obtain ⟨rest, hclose, hrest⟩ := hq.ofOpened hm
    refine ⟨rest, hclose, ScopeTree.live_close hclose ?_⟩
    have hsize : rest.size = m.scopes.size := hrest.size
    rw [hsize]
    exact hi
  rw [inInnerScope_eq hm, inNewScope_eq hm hm.current_live]
  cases hx : body (m.opened m.current) with
  | ok a q =>
      rw [hx] at htidy
      obtain ⟨rest, hclose, hrest⟩ := hclosed q htidy
      rw [afterwards_ok hx (closeScope_eq hclose)]
      exact hrest
  | error stop q =>
      rw [hx] at htidy
      match stop with
      | .fault f =>
          obtain ⟨rest, hclose, hrest⟩ := hclosed q htidy
          rw [afterwards_fault hx (closeScope_eq hclose)]
          exact hrest
      | .defect d => rw [afterwards_defect hx]
      | .outOfFuel => rw [afterwards_outOfFuel hx]

/-- A block that begins with a declaration declares the variable in its scope, and then the other
    statements of the block are run. -/
theorem run_declareVar_opened (limits : Limits) (fuel : Nat) (hm : m.WellFormed) (x type : String)
    (l : Location) :
    ∃ u, (m.opened m.current).scopes.Declares m.scopes.size (.var x) (.var (.new type)) u ∧
      run limits fuel (enter limits fuel) (.declareVar x type none l) (m.opened m.current) =
        .ok .done { m.opened m.current with scopes := u } := by
  have hopened := hm.opened hm.current_live
  obtain ⟨u, hu, hdeclare⟩ | ⟨hbound, _⟩ := declareVariable_cases hopened x (.new type) l
  · refine ⟨u, hu, ?_⟩
    rw [run]
    exact bind_ok hdeclare
  · -- a scope that was just opened binds nothing
    have hfree : (m.opened m.current).scopes.boundAt (m.opened m.current).current (.var x) = none :=
      ScopeTree.boundAt_nest_size m.scopes m.current (.var x)
    rw [hfree] at hbound
    cases hbound

end
end Exec

/-- A block that begins with the declaration of a variable leaves every variable of the same name
    in an older scope as it was, whatever follows and however the block ends; but for a global
    variable, which a function may have changed that was called in the block. -/
theorem Exec.outer_of_block (limits : Limits) (fuel : Nat) {m : Machine} (hm : m.WellFormed)
    (x type : String) (l l' : Location) (ss : List Stmt) {i : Nat} (hi : i < m.scopes.size)
    (hcalls : i = ScopeTree.global →
      ¬Part.Calls limits ⟨fuel, .run (.block (.declareVar x type none l :: ss) l'), m⟩) :
    (final (run limits fuel (enter limits fuel)
      (.block (.declareVar x type none l :: ss) l') m)).scopes.boundAt i (.var x) =
        m.scopes.boundAt i (.var x) := by
  obtain ⟨u, hu, hdeclare⟩ := run_declareVar_opened limits fuel hm x type l
  -- the rest of the block is a part of its own, run in the scope with the variable
  let root : Part := ⟨fuel, .runAll ss, { m.opened m.current with scopes := u }⟩
  have hroot : Part.Within limits ⟨fuel, .run (.block (.declareVar x type none l :: ss) l'), m⟩
      root := ((Part.Within.refl _).begins .block).begins (.otherStatements hdeclare)
  have hwf : root.start.WellFormed := hroot.wellFormed hm
  have hs : m.scopes.size ∈ root.start.scopes.outward root.start.current :=
    ScopeTree.self_mem_outward hwf.nested hwf.current_live
  have hshadows : root.start.scopes.Shadows x m.scopes.size i (m.scopes.boundAt i (.var x)) := by
    refine ⟨?_, ?_⟩
    · refine Eq.trans (hu.2.boundAt i (.var x)) ?_
      rw [if_neg fun h => Nat.ne_of_lt hi h.1]
      exact ScopeTree.boundAt_congr (ScopeTree.live_nest _ _ hi) _
    · refine Eq.trans (congrArg Option.isSome (hu.2.boundAt m.scopes.size (.var x))) ?_
      rw [if_pos ⟨rfl, rfl⟩]
      rfl
  let L := shadowInvariant limits root hwf x (m.scopes.boundAt i (.var x)) hi hs fun hglobal =>
    fun ⟨n, callee, args, l, q, hq, hdepth⟩ =>
      hcalls hglobal ⟨n, callee, args, l, q, hroot.trans hq, hdepth⟩
  have hat : L.At root := L.at_root (fun _ => trivial) hwf hshadows
  have hfinish : (final (runAll limits fuel (enter limits fuel) ss root.start)).scopes.boundAt i
      (.var x) = m.scopes.boundAt i (.var x) := hat.finish.1
  have htidy := (tidyLogic limits).toLogic.runAll ((tidyLogic limits).toLogic.enter fuel) fuel
    (.declareVar x type none l :: ss) fun _ _ => trivial
  rw [run, ScopeTree.boundAt_congr (live_inInnerScope htidy hm hi), runAll, bind_ok hdeclare]
  exact hfinish

/-- Shadowing protects the outer variable.  Where `x` is resolved to a variable in another scope
    than the global one, a block that declares an `x` first leaves that variable as it was,
    whatever else is in the block, and whether it gives a result or stops.  Where the variable is
    global, it can only have changed if a function was called in the block. -/
theorem shadowing_protects (limits : Limits) (fuel : Nat) {m : Machine} (hm : m.WellFormed)
    {x : String} {i : Nat} (hx : m.scopes.holder m.current (.var x) = some i) (type : String)
    (l l' : Location) (ss : List Stmt) :
    let p : Part := ⟨fuel, .run (.block (.declareVar x type none l :: ss) l'), m⟩
    (i ≠ ScopeTree.global →
      (p.finish limits).scopes.boundAt i (.var x) = m.scopes.boundAt i (.var x)) ∧
    (i = ScopeTree.global →
      (p.finish limits).scopes.boundAt i (.var x) ≠ m.scopes.boundAt i (.var x) →
      p.Calls limits) := by
  intro p
  have hi : i < m.scopes.size := by
    have hle := ScopeTree.outward_le hm.nested i (ScopeTree.mem_outward_of_holder hx)
    exact Nat.lt_of_le_of_lt hle hm.current_live
  refine ⟨fun hlocal => ?_, fun _ hchanged => ?_⟩
  · exact Exec.outer_of_block limits fuel hm x type l l' ss hi fun hglobal => absurd hglobal hlocal
  · by_contra hcalls
    exact hchanged (Exec.outer_of_block limits fuel hm x type l l' ss hi fun _ => hcalls)

/-- A block declares an `n`, assigns to it and calls a function that assigns to the global `n`.  Run
    where `n` is local, it changes the global `n` but not the local one; run in the global scope,
    it changes the `n` that it shadows by its call. -/
theorem shadowing_protects_local :
    let l := Location.start
    let bound (n : Int) : Symbol × Binding := (.var "n", .var ⟨"int", .int n⟩)
    let set : List Stmt := [.expression (.assign "n" (.int 9 l) l)]
    let m (current : Nat) : Machine := { Machine.new (.new none) with
      scopes := ⟨[⟨[bound 1, (.fn "set" 0, .fn ⟨"void", [], some set⟩)], none⟩,
        ⟨[bound 7], some 0⟩]⟩
      current := current }
    let others : List Stmt := [.expression (.assign "n" (.int 5 l) l),
      .expression (.call "set" [] l)]
    let p (current : Nat) : Part :=
      ⟨1, .run (.block (.declareVar "n" "int" none l :: others) l), m current⟩
    let after (current i : Nat) := ((p current).finish .standard).scopes.boundAt i (.var "n")
    (m 1).WellFormed ∧ (m 0).WellFormed ∧
      after 1 0 = some (.var ⟨"int", .int 9⟩) ∧ after 1 1 = some (.var ⟨"int", .int 7⟩) ∧
      after 0 0 = some (.var ⟨"int", .int 9⟩) ∧ (p 0).Calls .standard := by
  intro l bound set m others p after
  have hnested : (m 0).scopes.Nested := by
    intro i q h
    match i with
    | 0 => cases h
    | 1 => cases h; exact Nat.zero_lt_one
    | i + 2 => cases h
  have hlocal : (m 1).WellFormed := ⟨by decide, hnested⟩
  have hglobal : (m 0).WellFormed := ⟨by decide, hnested⟩
  have hinner : (m 1).scopes.holder (m 1).current (.var "n") = some 1 := rfl
  have houter : (m 0).scopes.holder (m 0).current (.var "n") = some 0 := rfl
  have hkept := (shadowing_protects .standard 1 hlocal hinner "int" l l others).1 Nat.one_ne_zero
  have hafter : after 0 0 = some (.var ⟨"int", .int 9⟩) := rfl
  have hchanged : after 0 0 ≠ (m 0).scopes.boundAt 0 (.var "n") := by
    rw [hafter]
    rintro ⟨⟩
  have hcalls := (shadowing_protects .standard 1 hglobal houter "int" l l others).2 rfl hchanged
  exact ⟨hlocal, hglobal, rfl, hkept, hafter, hcalls⟩

end PocketC
