/-
  PocketC.Proofs.Names.BoundAt

  What each scope binds, scope by scope.  A run changes a tree of scopes in three ways:
  it opens a scope that binds nothing, it closes the newest one, and it sets what one
  symbol is bound to in one scope, which is either the scope that it declares in or one
  that the search for the symbol from there meets.
-/

import Mathlib.Data.List.Find
import PocketC.Proofs.Names.Binds
import PocketC.Proofs.Names.Outward

namespace PocketC
namespace ScopeTree

/-- What the scope of an index binds a symbol to, whatever the scopes around it bind. -/
def boundAt (t : ScopeTree) (i : Nat) (y : Symbol) : Option Binding :=
  t.live[i]?.bind (·.lookup y)

variable {t u : ScopeTree} {i : Nat} {y : Symbol} {b c : Binding}

theorem boundAt_eq_some_iff :
    t.boundAt i y = some b ↔ ∃ s, t.live[i]? = some s ∧ s.lookup y = some b :=
  Option.bind_eq_some_iff

theorem lt_size_of_boundAt (h : t.boundAt i y = some b) : i < t.size := by
  obtain ⟨s, hs, _⟩ := boundAt_eq_some_iff.mp h
  exact (List.getElem?_eq_some_iff.mp hs).1

theorem boundAt_congr (h : u.live[i]? = t.live[i]?) (y : Symbol) :
    u.boundAt i y = t.boundAt i y := by
  rw [boundAt, h, boundAt]

theorem bindsAt_eq_isSome (t : ScopeTree) (i : Nat) (y : Symbol) :
    t.bindsAt y i = (t.boundAt i y).isSome := by
  rw [bindsAt, boundAt]
  cases t.live[i]? <;> rfl

theorem binds_iff {B : Symbol → Binding → Prop} :
    t.Binds B ↔ ∀ i y b, t.boundAt i y = some b → B y b := by
  constructor
  · intro ht i y b h
    obtain ⟨s, hs, hb⟩ := boundAt_eq_some_iff.mp h
    exact ht s (List.mem_of_getElem? hs) y b hb
  · intro h s hs y b hb
    obtain ⟨i, hi⟩ := List.mem_iff_getElem?.mp hs
    exact h i y b (boundAt_eq_some_iff.mpr ⟨s, hi, hb⟩)

/-! ## The scopes that a search meets -/

/-- Every scope but the global one stands inside another. -/
def Rooted (t : ScopeTree) : Prop := ∀ i, t.parents[i]? = some none → i = global

theorem rooted_new : new.Rooted := by
  intro i h
  exact Nat.lt_one_iff.mp (List.getElem?_eq_some_iff.mp h).1

theorem Rooted.congr (ht : t.Rooted) (h : u.parents = t.parents) : u.Rooted := by
  intro i hi
  rw [h] at hi
  exact ht i hi

theorem Rooted.nest (ht : t.Rooted) (parent : Nat) : (t.nest parent).2.Rooted := by
  intro i h
  rw [parents_nest, List.getElem?_append] at h
  split at h
  · exact ht i h
  · rw [List.getElem?_singleton] at h
    split at h <;> cases h

theorem Rooted.close (ht : t.Rooted) {scope : Nat} (h : t.close scope = some u) : u.Rooted := by
  intro i hi
  rw [parents_close h, List.getElem?_dropLast] at hi
  split at hi
  · exact ht i hi
  · cases hi

theorem outward_of_parent (ht : t.Nested) {scope : Nat} {s : Scope}
    (hs : t.live[scope]? = some s) :
    t.outward scope = scope :: match s.parent with
      | none => []
      | some parent => t.outward parent := by
  rw [outward, outwardWithin, hs]
  dsimp only
  cases hp : s.parent with
  | none => rfl
  | some parent =>
      have hlt := ht.parent_lt hs hp
      dsimp only
      rw [outward, outwardWithin_congr ht scope (parent + 1) parent hlt (Nat.lt_succ_self parent)]

theorem self_mem_outward (ht : t.Nested) {scope : Nat} (hlive : scope < t.size) :
    scope ∈ t.outward scope := by
  rw [outward_of_parent ht (List.getElem?_eq_getElem hlive)]
  exact List.mem_cons_self

/-- Outward the indices become smaller. -/
theorem outward_le (ht : t.Nested) {scope : Nat} : ∀ j ∈ t.outward scope, j ≤ scope := by
  induction scope using Nat.strongRecOn with
  | _ scope ih =>
      intro j hj
      cases hs : t.live[scope]? with
      | none =>
          rw [outward, outwardWithin, hs] at hj
          cases hj
      | some s =>
          rw [outward_of_parent ht hs] at hj
          cases hp : s.parent with
          | none =>
              rw [hp, List.mem_singleton] at hj
              exact Nat.le_of_eq hj
          | some parent =>
              rw [hp] at hj
              have hlt := ht.parent_lt hs hp
              rcases List.mem_cons.mp hj with rfl | hj
              · exact Nat.le_refl j
              · exact Nat.le_trans (ih parent hlt j hj) (Nat.le_of_lt hlt)

/-- Of two scopes that a search meets, it meets the one with the greater index first. -/
theorem outward_pairwise (ht : t.Nested) (scope : Nat) :
    (t.outward scope).Pairwise (· > ·) := by
  induction scope using Nat.strongRecOn with
  | _ scope ih =>
      cases hs : t.live[scope]? with
      | none =>
          rw [outward, outwardWithin, hs]
          exact .nil
      | some s =>
          rw [outward_of_parent ht hs]
          cases hp : s.parent with
          | none => exact List.pairwise_singleton _ _
          | some parent =>
              have hlt := ht.parent_lt hs hp
              refine List.pairwise_cons.mpr ⟨fun j hj => ?_, ih parent hlt⟩
              exact Nat.lt_of_le_of_lt (outward_le ht j hj) hlt

/-- A search does not end in a scope if it also meets a newer one that binds the symbol. -/
theorem holder_ne (ht : t.Nested) {scope s : Nat} (hs : s ∈ t.outward scope) (hi : i < s)
    (hb : (t.boundAt s y).isSome = true) : t.holder scope y ≠ some i := by
  intro h
  obtain ⟨_, before, after, hsplit, hbefore⟩ := List.find?_eq_some_iff_append.mp h
  have hpairs := outward_pairwise ht scope
  rw [hsplit] at hs hpairs
  -- the newer scope would stand in front, but nothing in front binds the symbol
  rcases List.mem_append.mp hs with hs | hs
  · have hfree := hbefore s hs
    rw [bindsAt_eq_isSome, hb] at hfree
    cases hfree
  · obtain ⟨_, hafter, _⟩ := List.pairwise_append.mp hpairs
    rcases List.mem_cons.mp hs with rfl | hs
    · exact Nat.lt_irrefl s hi
    · have hlt := (List.pairwise_cons.mp hafter).1 s hs
      omega

/-- A search passes the same scopes in trees with the same parents. -/
theorem outward_congr (h : u.parents = t.parents) (scope : Nat) :
    u.outward scope = t.outward scope := by
  have hlive : ∀ i : Nat, u.live[i]?.map Scope.parent = t.live[i]?.map Scope.parent := by
    intro i
    rw [← List.getElem?_map, ← List.getElem?_map]
    exact congrArg (·[i]?) h
  have hwithin : ∀ bound scope, u.outwardWithin bound scope = t.outwardWithin bound scope := by
    intro bound
    induction bound with
    | zero => exact fun _ => rfl
    | succ bound ih =>
        intro scope
        have hscope := hlive scope
        rw [outwardWithin, outwardWithin]
        cases hu : u.live[scope]? with
        | none =>
            cases ht : t.live[scope]? with
            | none => rfl
            | some s => rw [hu, ht] at hscope; cases hscope
        | some r =>
            cases ht : t.live[scope]? with
            | none => rw [hu, ht] at hscope; cases hscope
            | some s =>
                rw [hu, ht] at hscope
                have hparent : r.parent = s.parent := Option.some.inj hscope
                dsimp only
                rw [hparent]
                cases s.parent with
                | none => rfl
                | some parent => dsimp only; rw [ih parent]
  exact hwithin (scope + 1) scope

/-- The global scope stands inside no other one. -/
theorem outward_global (ht : t.Nested) (hlive : global < t.size) :
    t.outward global = [global] := by
  have hs : t.live[global]? = some t.live[global] := List.getElem?_eq_getElem hlive
  rw [outward_of_parent ht hs]
  cases hp : t.live[global].parent with
  | none => rfl
  | some p => exact absurd (ht.parent_lt hs hp) (Nat.not_lt_zero p)

/-- Every search from a live scope ends at the global one. -/
theorem global_mem_outward (ht : t.Nested) (hr : t.Rooted) {scope : Nat} (hlive : scope < t.size) :
    global ∈ t.outward scope := by
  -- outward the indices become smaller
  induction scope using Nat.strongRecOn with
  | _ scope ih =>
      have hs : t.live[scope]? = some t.live[scope] := List.getElem?_eq_getElem hlive
      rw [outward_of_parent ht hs]
      cases hp : t.live[scope].parent with
      | none =>
          have hroot : t.parents[scope]? = some none := by
            rw [parents, List.getElem?_map, hs, Option.map_some, hp]
          rw [hr scope hroot]
          exact List.mem_cons_self
      | some parent =>
          have hlt := ht.parent_lt hs hp
          exact List.mem_cons_of_mem _ (ih parent hlt (Nat.lt_trans hlt hlive))

/-! ## Opening and closing -/

theorem live_nest (t : ScopeTree) (parent : Nat) (h : i < t.size) :
    (t.nest parent).2.live[i]? = t.live[i]? :=
  List.getElem?_append_left h

theorem outward_nest (ht : t.Nested) {parent : Nat} (hp : parent < t.size) :
    (t.nest parent).2.outward t.size = t.size :: t.outward parent := by
  have hs : (t.nest parent).2.live[t.size]? = some (.empty (some parent)) :=
    List.getElem?_concat_length
  -- the scopes outward from an old one are old
  have hold : ∀ bound scope, scope < t.size →
      (t.nest parent).2.outwardWithin bound scope = t.outwardWithin bound scope := by
    intro bound
    induction bound with
    | zero => exact fun _ _ => rfl
    | succ bound ih =>
        intro scope hscope
        rw [outwardWithin, outwardWithin, live_nest t parent hscope]
        cases hr : t.live[scope]? with
        | none => rfl
        | some r =>
            dsimp only
            cases hq : r.parent with
            | none => rfl
            | some q => dsimp only; rw [ih q (Nat.lt_trans (ht.parent_lt hr hq) hscope)]
  rw [outward_of_parent (nested_nest ht hp) hs]
  exact congrArg (t.size :: ·) (hold (parent + 1) parent hp)

theorem boundAt_nest_size (t : ScopeTree) (parent : Nat) (y : Symbol) :
    (t.nest parent).2.boundAt t.size y = none := by
  have hs : (t.nest parent).2.live[t.size]? = some (.empty (some parent)) :=
    List.getElem?_concat_length
  rw [boundAt, hs]
  rfl

theorem live_close {scope : Nat} (h : t.close scope = some u) (hi : i < u.size) :
    u.live[i]? = t.live[i]? := by
  have hsize := size_close h
  rw [close] at h
  split at h
  · cases h
    rw [List.getElem?_dropLast, if_pos (Nat.lt_sub_of_add_lt (by
      show i + 1 < t.size
      omega))]
  · cases h

/-- A scope that was opened binds nothing, so what is bound was bound before. -/
theorem boundAt_of_nest {parent : Nat} (h : (t.nest parent).2.boundAt i y = some b) :
    t.boundAt i y = some b := by
  have hlt := lt_size_of_boundAt h
  rw [size_nest] at hlt
  rcases Nat.lt_succ_iff_lt_or_eq.mp hlt with hi | rfl
  · rw [← boundAt_congr (live_nest t parent hi)]
    exact h
  · rw [boundAt_nest_size] at h
    cases h

theorem boundAt_of_close {scope : Nat} (hu : t.close scope = some u)
    (h : u.boundAt i y = some b) : t.boundAt i y = some b := by
  rw [← boundAt_congr (live_close hu (lt_size_of_boundAt h))]
  exact h

/-! ## Setting what a symbol is bound to -/

/-- The tree `u` is `t` with `c` bound to `y` in the scope `i`. -/
structure Sets (t u : ScopeTree) (i : Nat) (y : Symbol) (c : Binding) : Prop where
  boundAt : ∀ j z, u.boundAt j z = if j = i ∧ z = y then some c else t.boundAt j z
  live : ∀ j, j ≠ i → u.live[j]? = t.live[j]?
  parents : u.parents = t.parents

theorem sets_modify {f : Scope → Scope} {s : Scope} (hs : t.live[i]? = some s)
    (hparent : ∀ s, (f s).parent = s.parent)
    (hlookup : ∀ z, (f s).lookup z = if z = y then some c else s.lookup z) :
    t.Sets ⟨t.live.modify i f⟩ i y c where
  boundAt := by
    intro j z
    rw [boundAt, List.getElem?_modify]
    by_cases hj : j = i
    · subst hj
      rw [hs]
      simp only [true_and]
      show (f s).lookup z = _
      rw [hlookup, ScopeTree.boundAt, hs]
      rfl
    · simp only [if_neg (Ne.symm hj), if_neg fun h : j = i ∧ z = y => hj h.1]
      cases hr : t.live[j]? with
      | none => rw [ScopeTree.boundAt, hr]; rfl
      | some r => rw [ScopeTree.boundAt, hr]; rfl
  live := by
    intro j hj
    simp only [List.getElem?_modify, if_neg (Ne.symm hj)]
    cases t.live[j]? <;> rfl
  parents := parents_modify t.live i hparent

theorem Sets.binds {B : Symbol → Binding → Prop} (h : t.Sets u i y c) (ht : t.Binds B)
    (hc : B y c) : u.Binds B := by
  rw [binds_iff] at ht ⊢
  intro j z d hd
  rw [h.boundAt] at hd
  split at hd
  · rename_i hz
    rw [hz.2]
    cases hd
    exact hc
  · exact ht j z d hd

/-- A declaration binds a symbol that its scope does not bind. -/
theorem declare_eq_some {scope : Nat} (hlive : scope < t.size) (h : t.boundAt scope y = none)
    (b : Binding) : ∃ u, t.declare scope y b = some u ∧ t.Sets u scope y b := by
  have hs : t.live[scope]? = some t.live[scope] := List.getElem?_eq_getElem hlive
  have hfree : ¬ t.bindsAt y scope = true := by
    rw [bindsAt_eq_isSome, h]
    exact Bool.false_ne_true
  refine ⟨_, if_neg hfree, sets_modify hs (fun _ => rfl) fun z => ?_⟩
  exact Scope.lookup_insert _ y z b

theorem declare_eq_none {scope : Nat} (h : t.boundAt scope y = some c) (b : Binding) :
    t.declare scope y b = none := by
  have hbound : t.bindsAt y scope = true := by
    rw [bindsAt_eq_isSome, h]
    rfl
  exact if_pos hbound

/-- What a symbol is bound to stands in the scope that the search ends in. -/
theorem exists_of_lookup {scope : Nat} (h : t.lookup scope y = some b) :
    ∃ i, t.holder scope y = some i ∧ t.boundAt i y = some b :=
  Option.bind_eq_some_iff.mp h

theorem lookup_of_holder {scope : Nat} (hi : t.holder scope y = some i)
    (hb : t.boundAt i y = some b) : t.lookup scope y = some b :=
  Option.bind_eq_some_iff.mpr ⟨i, hi, hb⟩

/-- The scope that a search ends in binds the symbol. -/
theorem exists_of_holder {scope : Nat} (h : t.holder scope y = some i) :
    ∃ b, t.boundAt i y = some b := by
  have hbinds : t.bindsAt y i = true := List.find?_some h
  rwa [bindsAt_eq_isSome, Option.isSome_iff_exists] at hbinds

/-- The scope that a search ends in is one that it meets. -/
theorem mem_outward_of_holder {scope : Nat} (h : t.holder scope y = some i) :
    i ∈ t.outward scope :=
  List.mem_of_find?_eq_some h

/-- Binding a symbol anew changes the binding that the search finds. -/
theorem rebind_of_lookup {scope : Nat} (h : t.lookup scope y = some b) (c : Binding) :
    ∃ i, t.holder scope y = some i ∧ t.boundAt i y = some b ∧
      ∃ u, t.rebind scope y c = some u ∧ t.Sets u i y c := by
  obtain ⟨i, hholder, hb⟩ := exists_of_lookup h
  obtain ⟨s, hs, hsb⟩ := boundAt_eq_some_iff.mp hb
  refine ⟨i, hholder, hb, ⟨t.live.modify i (·.replace y c)⟩, ?_, sets_modify hs (fun _ => rfl) ?_⟩
  · rw [rebind, hholder]
    rfl
  · intro z
    rw [Scope.lookup_replace]
    by_cases hz : z = y
    · rw [if_pos hz, if_pos hz, hz, hsb]
      rfl
    · rw [if_neg hz, if_neg hz]

/-! ## From a scope that binds nothing -/

/-- A search from a scope that was just opened ends where one from the scope around it ends. -/
theorem holder_nest (ht : t.Nested) {parent : Nat} (hp : parent < t.size) (y : Symbol) :
    (t.nest parent).2.holder t.size y = t.holder parent y := by
  have hself : ¬(t.nest parent).2.bindsAt y t.size = true := by
    rw [bindsAt_eq_isSome, boundAt_nest_size]
    exact Bool.false_ne_true
  rw [holder, outward_nest ht hp, List.find?_cons_of_neg hself, holder]
  refine List.find?_congr fun i hi => ?_
  have hlt : i < t.size := Nat.lt_of_le_of_lt (outward_le ht i hi) hp
  rw [bindsAt, live_nest t parent hlt, bindsAt]

theorem lookup_nest (ht : t.Nested) {parent : Nat} (hp : parent < t.size) (y : Symbol) :
    (t.nest parent).2.lookup t.size y = t.lookup parent y := by
  rw [lookup, holder_nest ht hp, lookup]
  cases hi : t.holder parent y with
  | none => rfl
  | some i =>
      have hlt : i < t.size :=
        Nat.lt_of_le_of_lt (outward_le ht i (mem_outward_of_holder hi)) hp
      show ((t.nest parent).2.live[i]?).bind (·.lookup y) = t.live[i]?.bind (·.lookup y)
      rw [live_nest t parent hlt]

theorem modify_append_left (own A : List Scope) (f : Scope → Scope) {i : Nat}
    (hi : i < own.length) : (own ++ A).modify i f = own.modify i f ++ A := by
  induction own generalizing i with
  | nil => cases hi
  | cons s own ih =>
      cases i with
      | zero => rfl
      | succ i =>
          rw [List.cons_append, List.modify_succ_cons, ih (Nat.lt_of_succ_lt_succ hi),
            List.modify_succ_cons, List.cons_append]

theorem rebind_nest (ht : t.Nested) {parent : Nat} (hp : parent < t.size) (y : Symbol)
    (b : Binding) : (t.nest parent).2.rebind t.size y b =
      (t.rebind parent y b).map fun u => (u.nest parent).2 := by
  rw [rebind, holder_nest ht hp, rebind]
  cases hi : t.holder parent y with
  | none => rfl
  | some i =>
      have hlt : i < t.size :=
        Nat.lt_of_le_of_lt (outward_le ht i (mem_outward_of_holder hi)) hp
      show some (⟨(t.live ++ [Scope.empty (some parent)]).modify i (·.replace y b)⟩ : ScopeTree) = _
      rw [modify_append_left _ _ _ hlt]
      rfl

end ScopeTree
end PocketC
