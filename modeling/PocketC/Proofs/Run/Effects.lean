/-
  PocketC.Proofs.Run.Effects

  What a run may change in the scopes that were live before it.  Names are declared in the
  current scope alone.  Elsewhere a run only changes what the variables hold that a search
  from the current scope meets, and gives bodies to functions there that have none.

  A callee works inside the global scope, and a body inside a scope of its own.  So the
  invariant says where the current scope of each moment stands: it is the one that the run
  began in or was opened later, and no other old scope is around it than there was around
  that one.
-/

import PocketC.Proofs.Run.Moments

namespace PocketC

open Exec

/-! ## Bindings -/

/-- What a binding may become: a variable keeps its type, and a function is as it was or had no
    body and was given one. -/
inductive Binding.Becomes : Symbol → Binding → Binding → Prop where
  | var {y : Symbol} {type : String} (v w : Value) : Becomes y (.var ⟨type, v⟩) (.var ⟨type, w⟩)
  | fn {y : Symbol} (f : Function) : Becomes y (.fn f) (.fn f)
  | defined {name : String} {arity : Nat} {ps : List Param} {body : List Stmt} {f g : Function} :
      ps.length = arity → f.define ps body = some g → Becomes (.fn name arity) (.fn f) (.fn g)

theorem Function.body_of_define {f g : Function} {ps : List Param} {body : List Stmt}
    (h : f.define ps body = some g) : f.body = none ∧ g = ⟨f.result, ps, some body⟩ := by
  unfold define at h
  split at h
  · cases h
  · rename_i hbody
    cases h
    exact ⟨hbody, rfl⟩

namespace Binding

variable {y : Symbol} {b c d : Binding}

theorem Becomes.refl (y : Symbol) (b : Binding) : b.Becomes y b := by
  cases b with
  | var v => exact .var v.value v.value
  | fn f => exact .fn f

theorem Becomes.trans (h : b.Becomes y c) (h' : c.Becomes y d) : b.Becomes y d := by
  cases h with
  | var v w =>
      cases h' with
      | var _ x => exact .var v x
  | fn f => exact h'
  | defined hps hg =>
      cases h' with
      | fn _ => exact .defined hps hg
      -- a function with a body takes no second one
      | defined _ hg' =>
          have hbody := (Function.body_of_define hg').1
          rw [(Function.body_of_define hg).2] at hbody
          cases hbody

end Binding

/-! ## Machines -/

namespace Machine

/-- All that the run from `m` to `q` changed in the scopes that are live in `m`. -/
structure Affects (m q : Machine) : Prop where
  /-- scopes that no search from the current one meets are as they were -/
  apart (i : Nat) : i < m.scopes.size → i ∉ m.scopes.outward m.current →
    q.scopes.live[i]? = m.scopes.live[i]?
  /-- only the current scope binds more symbols than before -/
  outer (i : Nat) (y : Symbol) : i < m.scopes.size → i ≠ m.current →
    m.scopes.boundAt i y = none → q.scopes.boundAt i y = none
  /-- every symbol is still bound where it was bound -/
  kept (i : Nat) (y : Symbol) (b : Binding) : m.scopes.boundAt i y = some b →
    ∃ c, q.scopes.boundAt i y = some c ∧ b.Becomes y c

/-- The machine `q` is one of a run that began on `m`. -/
structure Inside (m q : Machine) : Prop extends m.Affects q where
  size : m.scopes.size ≤ q.scopes.size
  /-- the current scope is the one of `m` or was opened since -/
  current : q.current = m.current ∨ m.scopes.size ≤ q.current
  /-- a search meets no old scope that it would not meet in `m` -/
  outward (i : Nat) : i ∈ q.scopes.outward q.current → i < m.scopes.size →
    i ∈ m.scopes.outward m.current

variable {m q : Machine} {y : Symbol} {b c : Binding} {u : ScopeTree}

theorem Affects.congr {r : Machine} (h : m.Affects q)
    (hr : ∀ i < m.scopes.size, r.scopes.live[i]? = q.scopes.live[i]?) : m.Affects r where
  apart i hi hapart := (hr i hi).trans (h.apart i hi hapart)
  outer i y hi hne hnone := by
    rw [ScopeTree.boundAt_congr (hr i hi)]
    exact h.outer i y hi hne hnone
  kept i y b hb := by
    rw [ScopeTree.boundAt_congr (hr i (ScopeTree.lt_size_of_boundAt hb))]
    exact h.kept i y b hb

theorem Affects.isSome (h : m.Affects q) {i : Nat} (hb : (m.scopes.boundAt i y).isSome = true) :
    (q.scopes.boundAt i y).isSome = true := by
  obtain ⟨b, hb⟩ := Option.isSome_iff_exists.mp hb
  obtain ⟨c, hc, _⟩ := h.kept i y b hb
  exact Option.isSome_of_eq_some hc

theorem Affects.isSome_outer (h : m.Affects q) {i : Nat} (hi : i < m.scopes.size)
    (hne : i ≠ m.current) (hb : (q.scopes.boundAt i y).isSome = true) :
    (m.scopes.boundAt i y).isSome = true := by
  cases hm : m.scopes.boundAt i y with
  | some b => rfl
  | none =>
      rw [h.outer i y hi hne hm] at hb
      cases hb

theorem Inside.refl (m : Machine) : m.Inside m where
  apart _ _ _ := rfl
  outer _ _ _ _ h := h
  kept _ y b h := ⟨b, h, .refl y b⟩
  size := Nat.le_refl _
  current := .inl rfl
  outward _ h _ := h

/-- Only the scopes matter, and which of them is the current one. -/
theorem Inside.congr {r : Machine} (h : m.Inside q) (hscopes : r.scopes = q.scopes)
    (hcurrent : r.current = q.current) : m.Inside r where
  toAffects := h.toAffects.congr fun i _ => by rw [hscopes]
  size := by
    rw [hscopes]
    exact h.size
  current := by
    rw [hcurrent]
    exact h.current
  outward := by
    rw [hscopes, hcurrent]
    exact h.outward

/-- Where symbols are bound anew but no scope is opened or closed, only the effect on the
    bindings matters. -/
theorem Inside.setScopes (h : m.Inside q) (hu : u.parents = q.scopes.parents)
    (heffect : m.Affects { q with scopes := u }) : m.Inside { q with scopes := u } where
  toAffects := heffect
  size := by
    rw [ScopeTree.size_congr hu]
    exact h.size
  current := h.current
  outward i hi := by
    rw [ScopeTree.outward_congr hu] at hi
    exact h.outward i hi

theorem Inside.rebinds (h : m.Inside q) (hu : q.scopes.Rebinds q.current y b c u)
    (hbc : b.Becomes y c) : m.Inside { q with scopes := u } := by
  obtain ⟨k, hk, hb, hsets⟩ := hu
  refine h.setScopes hsets.parents ⟨?_, ?_, ?_⟩
  · intro i hi hapart
    have hne : i ≠ k := by
      rintro rfl
      exact hapart (h.outward i (ScopeTree.mem_outward_of_holder hk) hi)
    exact (hsets.live i hne).trans (h.apart i hi hapart)
  · intro i z hi hne hnone
    have hq := h.outer i z hi hne hnone
    rw [hsets.boundAt, if_neg, hq]
    -- the symbol was bound where it is bound anew
    rintro ⟨rfl, rfl⟩
    rw [hb] at hq
    cases hq
  · intro i z d hd
    obtain ⟨e, he, hde⟩ := h.kept i z d hd
    rw [hsets.boundAt]
    split
    · rename_i hiz
      obtain ⟨rfl, rfl⟩ := hiz
      rw [hb] at he
      cases he
      exact ⟨c, rfl, hde.trans hbc⟩
    · exact ⟨e, he, hde⟩

theorem Inside.declares (hm : m.WellFormed) (h : m.Inside q)
    (hu : q.scopes.Declares q.current y b u) : m.Inside { q with scopes := u } := by
  obtain ⟨hfree, hsets⟩ := hu
  -- an old scope in which a name is declared is the one that the run began in
  have hcurrent : ∀ i < m.scopes.size, i ≠ m.current → i ≠ q.current := by
    intro i hi hne
    rcases h.current with hq | hq
    · rw [hq]
      exact hne
    · omega
  refine h.setScopes hsets.parents ⟨?_, ?_, ?_⟩
  · intro i hi hapart
    have hne : i ≠ m.current := by
      rintro rfl
      exact hapart (ScopeTree.self_mem_outward hm.nested hi)
    exact (hsets.live i (hcurrent i hi hne)).trans (h.apart i hi hapart)
  · intro i z hi hne hnone
    rw [hsets.boundAt, if_neg fun hiz => hcurrent i hi hne hiz.1]
    exact h.outer i z hi hne hnone
  · intro i z d hd
    obtain ⟨e, he, hde⟩ := h.kept i z d hd
    rw [hsets.boundAt, if_neg]
    · exact ⟨e, he, hde⟩
    · rintro ⟨rfl, rfl⟩
      rw [hfree] at he
      cases he

theorem Inside.opened (hm : m.WellFormed) (hr : m.scopes.Rooted) (hq : q.WellFormed)
    (h : m.Inside q) {parent : Nat} (hp : parent = q.current ∨ parent = ScopeTree.global) :
    m.Inside (q.opened parent) where
  toAffects := h.toAffects.congr fun i hi =>
    ScopeTree.live_nest q.scopes parent (Nat.lt_of_lt_of_le hi h.size)
  size := by
    show m.scopes.size ≤ (q.scopes.nest parent).2.size
    rw [ScopeTree.size_nest]
    exact Nat.le_succ_of_le h.size
  current := .inr h.size
  outward i hi hlt := by
    have hparent : parent < q.scopes.size := by
      obtain rfl | rfl := hp
      · exact hq.current_live
      · exact hq.global_live
    have houtward : i ∈ q.scopes.size :: q.scopes.outward parent := by
      rw [← ScopeTree.outward_nest hq.nested hparent]
      exact hi
    rcases List.mem_cons.mp houtward with rfl | hi
    · exact absurd hlt (Nat.not_lt_of_le h.size)
    · obtain rfl | rfl := hp
      · exact h.outward i hi hlt
      · rw [ScopeTree.outward_global hq.nested hparent, List.mem_singleton] at hi
        rw [hi]
        exact ScopeTree.global_mem_outward hm.nested hr hm.current_live

theorem Inside.closed {r : Machine} {rest : ScopeTree} (h : m.Inside q) (hr : m.Inside r)
    (hclose : r.scopes.close q.scopes.size = some rest)
    (hparents : rest.parents = q.scopes.parents) :
    m.Inside (r.closed rest q.scopes.size q.current) where
  toAffects := hr.toAffects.congr fun i hi => by
    have hlt : i < rest.size := by
      rw [ScopeTree.size_congr hparents]
      exact Nat.lt_of_lt_of_le hi h.size
    exact ScopeTree.live_close hclose hlt
  size := by
    show m.scopes.size ≤ rest.size
    rw [ScopeTree.size_congr hparents]
    exact h.size
  current := h.current
  outward i hi := by
    have houtward : i ∈ q.scopes.outward q.current := by
      rw [← ScopeTree.outward_congr hparents]
      exact hi
    exact h.outward i houtward

end Machine

/-! ## Runs -/

namespace Exec

/-- The machines of a run are those of a run that began where it began. -/
def insideInvariant (limits : Limits) (root : Part) (hm : root.start.WellFormed)
    (hr : root.start.scopes.Rooted) : Invariant limits root where
  Holds q := root.start.Inside q
  store _ _ h _ _ _ hu := ⟨h.rebinds hu (.var _ _), trivial⟩
  assignElement _ _ h _ _ _ _ hu := h.rebinds hu (.var _ _)
  declareVar _ _ h _ hu := h.declares hm hu
  declareFun _ _ h hu := h.declares hm hu
  defineFun _ _ _ h hg hu := h.rebinds hu (.defined rfl hg)
  opens _ hq h hp := h.opened hm hr hq hp
  closes _ h hq hclose hparents := h.closed hq hclose hparents
  quiet hq h := h.congr hq.scopes hq.current

/-- Whatever a part does and however it ends, it only has these effects. -/
theorem affects_finish (limits : Limits) {p : Part} (hm : p.start.WellFormed)
    (hr : p.start.scopes.Rooted) : p.start.Affects (p.finish limits) := by
  let L := insideInvariant limits p hm hr
  have hp : L.At p := L.at_root (fun _ => trivial) hm (.refl p.start)
  exact hp.finish.toAffects

end Exec

/-- Running a statement and evaluating an expression change nothing in the scopes that were live
    before but the bindings that a search from the current scope meets; they bind new symbols in
    the current scope alone, keep every symbol bound, keep the types of variables, and change
    functions only by giving a body to one that has none.  This holds whether they give a result
    or stop, on every machine whose scopes, but for the global one, all stand inside older ones. -/
theorem effects_confined (limits : Limits) (fuel : Nat) (m : Machine) (hm : m.WellFormed)
    (hr : m.scopes.Rooted) :
    (∀ s, m.Affects (final (Exec.run limits fuel (Exec.enter limits fuel) s m))) ∧
    (∀ e, m.Affects (final (Exec.eval (Exec.enter limits fuel) e m))) := by
  constructor
  · intro s
    exact Exec.affects_finish (p := ⟨fuel, .run s, m⟩) limits hm hr
  · intro e
    exact Exec.affects_finish (p := ⟨fuel, .eval e, m⟩) limits hm hr

/-- A statement that assigns to the global `n`, binds a variable of its own and then faults, in one
    of two scopes inside of the global one, of which the other has an `n`, too. -/
theorem effects_confined_fault :
    let bound (n : Int) : Symbol × Binding := (.var "n", .var ⟨"int", .int n⟩)
    let m : Machine := { Machine.new (.new none) with
      scopes := ⟨[⟨[bound 1], none⟩, ⟨[bound 7], some 0⟩, ⟨[], some 0⟩]⟩
      current := 2 }
    let s : Stmt := .group [.expression (.assign "n" (.int 2 .start) .start),
      .declareVar "k" "int" none .start,
      .expression (.binary .div (.int 1 .start) (.int 0 .start) .start)]
    let r := Exec.run .standard 1 (Exec.enter .standard 1) s m
    m.WellFormed ∧ m.scopes.Rooted ∧ (∃ f q, r = .error (.fault f) q) ∧ m.Affects (final r) := by
  intro bound m s r
  have hm : m.WellFormed := by
    refine ⟨by decide, ?_⟩
    intro i p h
    match i with
    | 0 => cases h
    | 1 | 2 => cases h; decide
    | i + 3 => cases h
  have hr : m.scopes.Rooted := by
    intro i h
    match i with
    | 0 => rfl
    | 1 | 2 => cases h
    | i + 3 => cases h
  exact ⟨hm, hr, ⟨_, _, rfl⟩, (effects_confined .standard 1 m hm hr).1 s⟩

end PocketC
