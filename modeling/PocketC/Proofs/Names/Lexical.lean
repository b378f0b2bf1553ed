/-
  PocketC.Proofs.Names.Lexical

  Scoping is lexical, whatever was done with a tree of scopes before.  The scopes from a
  live one outward form a chain, which ends at the global scope, and a symbol means what
  the first scope on the chain binds it to.  A scope may stand inside any live one, but
  only the newest is closed, so that opening a scope is undone by closing it again.

  One use of a tree does one of five things (`Becomes`).  Each of them keeps the shape of
  the tree (`Formed`), and every statement about chains follows from the shape alone.
-/

import Mathlib.Data.List.Basic
import PocketC.Proofs.Names.BoundAt

namespace PocketC
namespace ScopeTree

/-! ## Uses -/

/-- What is done with a tree of scopes. -/
inductive Use where
  | nest (parent : Nat)
  | close (scope : Nat)
  | declare (scope : Nat) (y : Symbol) (b : Binding)
  | rebind (scope : Nat) (y : Symbol) (b : Binding)

variable {t u : ScopeTree} {use : Use} {scope i : Nat} {y z : Symbol} {b : Binding}

/-- The scope in which something is done is live; a scope that is to be closed need not be. -/
def Use.Live (t : ScopeTree) : Use → Prop
  | .nest parent => parent < t.size
  | .close _ => True
  | .declare scope _ _ => scope < t.size
  | .rebind scope _ _ => scope < t.size

instance (t : ScopeTree) : (use : Use) → Decidable (use.Live t)
  | .nest _ => inferInstanceAs (Decidable (_ < _))
  | .close _ => inferInstanceAs (Decidable True)
  | .declare _ _ _ => inferInstanceAs (Decidable (_ < _))
  | .rebind _ _ _ => inferInstanceAs (Decidable (_ < _))

/-- The tree after a use; `none` if the use is refused. -/
def attempt (t : ScopeTree) : Use → Option ScopeTree
  | .nest parent => some (t.nest parent).2
  | .close scope => t.close scope
  | .declare scope y b => t.declare scope y b
  | .rebind scope y b => t.rebind scope y b

/-- The tree after a use, refused or not. -/
def after (t : ScopeTree) (use : Use) : ScopeTree := (t.attempt use).getD t

/-- The tree after some uses. -/
def afterAll (t : ScopeTree) (uses : List Use) : ScopeTree := uses.foldl after t

/-- The statement `P` holds of each use and the tree that it finds. -/
def EachUse (P : ScopeTree → Use → Prop) : ScopeTree → List Use → Prop
  | _, [] => True
  | t, use :: uses => P t use ∧ EachUse P (t.after use) uses

instance EachUse.decidable (P : ScopeTree → Use → Prop) [∀ t use, Decidable (P t use)] :
    (t : ScopeTree) → (uses : List Use) → Decidable (t.EachUse P uses)
  | _, [] => inferInstanceAs (Decidable True)
  | t, use :: uses =>
    have := decidable P (t.after use) uses
    inferInstanceAs (Decidable (P t use ∧ EachUse P (t.after use) uses))

/-- What every use keeps, any number of them keeps. -/
theorem EachUse.keeps {P : ScopeTree → Use → Prop} {I : ScopeTree → Prop}
    (hstep : ∀ t use, I t → P t use → I (t.after use)) {uses : List Use} :
    ∀ {t : ScopeTree}, I t → EachUse P t uses → I (t.afterAll uses) := by
  induction uses with
  | nil => exact fun ht _ => ht
  | cons use uses ih => exact fun ht h => ih (hstep _ use ht h.1) h.2

theorem EachUse.imp {P Q : ScopeTree → Use → Prop} {uses : List Use}
    (hPQ : ∀ t, ∀ use ∈ uses, P t use → Q t use) :
    ∀ {t : ScopeTree}, EachUse P t uses → EachUse Q t uses := by
  induction uses with
  | nil => exact id
  | cons use uses ih =>
      intro t h
      refine ⟨hPQ t use List.mem_cons_self h.1, ih (fun t v hv => ?_) h.2⟩
      exact hPQ t v (List.mem_cons_of_mem _ hv)

/-- What a use makes of a tree. -/
inductive Becomes (t : ScopeTree) : Use → ScopeTree → Prop where
  | refused {use : Use} : t.attempt use = none → Becomes t use t
  | nested {parent : Nat} : parent < t.size → Becomes t (.nest parent) (t.nest parent).2
  | closed {scope : Nat} {u : ScopeTree} : t.close scope = some u → Becomes t (.close scope) u
  | declared {scope : Nat} {y : Symbol} {b : Binding} {u : ScopeTree} :
      t.boundAt scope y = none → t.Sets u scope y b → Becomes t (.declare scope y b) u
  | rebound {scope i : Nat} {y : Symbol} {b old : Binding} {u : ScopeTree} :
      t.holder scope y = some i → t.boundAt i y = some old → t.Sets u i y b →
      Becomes t (.rebind scope y b) u

/-- The newest scope is closed, unless it is the global one, and no other. -/
theorem close_eq_some_iff : t.close scope = some u ↔
    (scope ≠ global ∧ scope + 1 = t.size) ∧ u = ⟨t.live.dropLast⟩ := by
  by_cases h : scope ≠ global ∧ scope + 1 = t.size
  · rw [close, if_pos h, and_iff_right h, Option.some.injEq, eq_comm]
  · rw [close, if_neg h, iff_false_right (mt And.left h)]
    exact (Option.some_ne_none u).symm

theorem sets_of_declare (hlive : scope < t.size) (h : t.declare scope y b = some u) :
    t.boundAt scope y = none ∧ t.Sets u scope y b := by
  cases hb : t.boundAt scope y with
  | some old =>
      rw [declare_eq_none hb] at h
      cases h
  | none =>
      obtain ⟨v, hv, hsets⟩ := declare_eq_some hlive hb b
      rw [hv] at h
      cases h
      exact ⟨rfl, hsets⟩

theorem rebind_eq_none (h : t.lookup scope y = none) (b : Binding) :
    t.rebind scope y b = none := by
  cases hi : t.holder scope y with
  | none =>
      rw [rebind, hi]
      rfl
  | some i =>
      obtain ⟨c, hc⟩ := exists_of_holder hi
      rw [lookup_of_holder hi hc] at h
      cases h

theorem sets_of_rebind (h : t.rebind scope y b = some u) :
    ∃ i old, t.holder scope y = some i ∧ t.boundAt i y = some old ∧
      t.lookup scope y = some old ∧ t.Sets u i y b := by
  cases hold : t.lookup scope y with
  | none =>
      rw [rebind_eq_none hold] at h
      cases h
  | some old =>
      obtain ⟨i, hi, hb, v, hv, hsets⟩ := rebind_of_lookup hold b
      rw [hv] at h
      cases h
      exact ⟨i, old, hi, hb, rfl, hsets⟩

theorem becomes_after (hlive : use.Live t) : t.Becomes use (t.after use) := by
  cases h : t.attempt use with
  | none =>
      rw [after, h]
      exact .refused h
  | some u =>
      rw [after, h]
      show t.Becomes use u
      cases use with
      | nest parent =>
          cases h
          exact .nested hlive
      | close scope => exact .closed h
      | declare scope y b =>
          obtain ⟨hfree, hsets⟩ := sets_of_declare hlive h
          exact .declared hfree hsets
      | rebind scope y b =>
          obtain ⟨i, old, hi, hb, _, hsets⟩ := sets_of_rebind h
          exact .rebound hi hb hsets

/-! ## The shape of a tree -/

/-- The global scope is live, and every other scope stands inside an older one. -/
structure Formed (t : ScopeTree) : Prop where
  global_live : global < t.size
  nested : t.Nested
  rooted : t.Rooted

theorem formed_new : new.Formed := ⟨Nat.zero_lt_one, nested_new, rooted_new⟩

theorem Formed.congr (ht : t.Formed) (h : u.parents = t.parents) : u.Formed where
  global_live := (size_congr h).symm ▸ ht.global_live
  nested := ht.nested.congr h
  rooted := ht.rooted.congr h

theorem Formed.becomes (ht : t.Formed) (h : t.Becomes use u) : u.Formed := by
  cases h with
  | refused => exact ht
  | nested hparent =>
      refine ⟨?_, nested_nest ht.nested hparent, ht.rooted.nest _⟩
      rw [size_nest]
      exact Nat.succ_pos _
  | @closed scope _ h =>
      refine ⟨?_, nested_close ht.nested h, ht.rooted.close h⟩
      -- the scope that was closed is not the global one
      obtain ⟨⟨hne, hlast⟩, _⟩ := close_eq_some_iff.mp h
      have hsize := size_close h
      have hpos : 0 < scope := Nat.pos_of_ne_zero hne
      show 0 < u.size
      omega
  | declared _ hsets => exact ht.congr hsets.parents
  | rebound _ _ hsets => exact ht.congr hsets.parents

theorem Formed.parent (ht : t.Formed) {s : Scope} (hs : t.live[i]? = some s) (hi : i ≠ global) :
    ∃ p, s.parent = some p ∧ p < i ∧ p < t.size := by
  cases hp : s.parent with
  | none =>
      have hroot : t.parents[i]? = some none := by
        rw [parents, List.getElem?_map, hs, Option.map_some, hp]
      exact absurd (ht.rooted i hroot) hi
  | some p =>
      have hlt := ht.nested.parent_lt hs hp
      have hlive : i < t.size := (List.getElem?_eq_some_iff.mp hs).1
      exact ⟨p, rfl, hlt, Nat.lt_trans hlt hlive⟩

/-! ## Chains -/

/-- The scopes from a live scope outward, up to one that stands inside no other. -/
inductive Chain (t : ScopeTree) : Nat → List Nat → Prop where
  | outermost {scope : Nat} {s : Scope} : t.live[scope]? = some s → s.parent = none →
      Chain t scope [scope]
  | inside {scope parent : Nat} {s : Scope} {c : List Nat} : t.live[scope]? = some s →
      s.parent = some parent → Chain t parent c → Chain t scope (scope :: c)

theorem Chain.eq_outward (ht : t.Nested) {c : List Nat} (h : t.Chain scope c) :
    c = t.outward scope := by
  induction h with
  | outermost hs hp => rw [outward_of_parent ht hs, hp]
  | inside hs hp _ ih => rw [outward_of_parent ht hs, hp, ih]

/-- The chain of a scope ends at the global scope. -/
theorem Formed.chain (ht : t.Formed) (hlive : scope < t.size) :
    t.Chain scope (t.outward scope) ∧ (t.outward scope).getLast? = some global := by
  induction scope using Nat.strongRecOn with
  | _ scope ih =>
      have hs : t.live[scope]? = some t.live[scope] := List.getElem?_eq_getElem hlive
      rw [outward_of_parent ht.nested hs]
      by_cases hglobal : scope = global
      · subst hglobal
        cases hp : t.live[global].parent with
        | none => exact ⟨.outermost hs hp, rfl⟩
        | some p => exact absurd (ht.nested.parent_lt hs hp) (Nat.not_lt_zero p)
      · obtain ⟨p, hp, hlt, hplive⟩ := ht.parent hs hglobal
        obtain ⟨hchain, hlast⟩ := ih p hlt hplive
        rw [hp]
        refine ⟨.inside hs hp hchain, ?_⟩
        show (scope :: t.outward p).getLast? = _
        rw [List.getLast?_cons, hlast]
        rfl

/-- From `scope` outward the scope `i` comes before any other that binds the symbol. -/
def Meets (t : ScopeTree) (y : Symbol) (scope i : Nat) : Prop :=
  ∃ front back, t.Chain scope (front ++ i :: back) ∧ ∀ j ∈ front, t.boundAt j y = none

theorem Formed.meets_iff (ht : t.Formed) (hlive : scope < t.size) :
    t.Meets y scope i ↔ ∃ front back, t.outward scope = front ++ i :: back ∧
      ∀ j ∈ front, t.boundAt j y = none := by
  constructor
  · rintro ⟨front, back, hchain, hfront⟩
    exact ⟨front, back, (hchain.eq_outward ht.nested).symm, hfront⟩
  · rintro ⟨front, back, hsplit, hfront⟩
    exact ⟨front, back, hsplit ▸ (ht.chain hlive).1, hfront⟩

/-- A scope stands once on a chain. -/
theorem not_mem_front (ht : t.Nested) {front back : List Nat}
    (h : t.outward scope = front ++ i :: back) : i ∉ front := by
  intro hi
  have hpairs := outward_pairwise ht scope
  rw [h] at hpairs
  obtain ⟨_, _, hacross⟩ := List.pairwise_append.mp hpairs
  exact Nat.lt_irrefl i (hacross i hi i List.mem_cons_self)

/-! ## Searching -/

theorem findSome?_congr {f g : Nat → Option Binding} {c : List Nat} (h : ∀ j ∈ c, f j = g j) :
    c.findSome? f = c.findSome? g := by
  rw [← List.head?_filterMap, List.filterMap_congr h, List.head?_filterMap]

/-- A symbol means what the first scope that binds it from `scope` outward binds it to. -/
theorem lookup_eq_findSome? (t : ScopeTree) (scope : Nat) (y : Symbol) :
    t.lookup scope y = (t.outward scope).findSome? (t.boundAt · y) := by
  show ((t.outward scope).find? (t.bindsAt y)).bind (t.boundAt · y) = _
  induction t.outward scope with
  | nil => rfl
  | cons i c ih =>
      rw [List.findSome?_cons]
      cases hi : t.boundAt i y with
      | none =>
          have hfree : ¬t.bindsAt y i = true := by
            rw [bindsAt_eq_isSome, hi]
            exact Bool.false_ne_true
          rw [List.find?_cons_of_neg hfree]
          exact ih
      | some b =>
          have hbinds : t.bindsAt y i = true := by
            rw [bindsAt_eq_isSome, hi]
            rfl
          rw [List.find?_cons_of_pos hbinds]
          exact hi

theorem Formed.meets_of_holder (ht : t.Formed) (hlive : scope < t.size)
    (h : t.holder scope y = some i) : t.Meets y scope i := by
  obtain ⟨_, front, back, hsplit, hfront⟩ := List.find?_eq_some_iff_append.mp h
  refine (ht.meets_iff hlive).mpr ⟨front, back, hsplit, fun j hj => ?_⟩
  have hfree := hfront j hj
  rw [bindsAt_eq_isSome] at hfree
  simpa using hfree

/-- A new binding is found from where its scope is met first. -/
theorem Formed.lookup_of_meets (ht : t.Formed) (hsets : t.Sets u scope y b) {other : Nat}
    (hother : other < t.size) (h : t.Meets y other scope) : u.lookup other y = some b := by
  obtain ⟨front, back, hsplit, hfront⟩ := (ht.meets_iff hother).mp h
  have hskip : front.findSome? (u.boundAt · y) = none := by
    refine List.findSome?_eq_none_iff.mpr fun j hj => ?_
    have hne : j ≠ scope := fun he => not_mem_front ht.nested hsplit (he ▸ hj)
    rw [hsets.boundAt, if_neg fun h => hne h.1]
    exact hfront j hj
  have hself : u.boundAt scope y = some b := by
    rw [hsets.boundAt, if_pos ⟨rfl, rfl⟩]
  rw [lookup_eq_findSome?, outward_congr hsets.parents, hsplit, List.findSome?_append, hskip,
    List.findSome?_cons, hself]
  rfl

/-- Nothing else changes its meaning. -/
theorem Formed.lookup_of_not_meets (ht : t.Formed) (hsets : t.Sets u scope y b) {other : Nat}
    (hother : other < t.size) (h : ¬(z = y ∧ t.Meets y other scope)) :
    u.lookup other z = t.lookup other z := by
  rw [lookup_eq_findSome?, lookup_eq_findSome?, outward_congr hsets.parents]
  have hsame : ∀ j, ¬(j = scope ∧ z = y) → u.boundAt j z = t.boundAt j z := by
    intro j hj
    rw [hsets.boundAt, if_neg hj]
  by_cases hmem : scope ∈ t.outward other
  · by_cases hz : z = y
    · -- a scope in front of the changed one binds the symbol, and the search ends there
      subst hz
      obtain ⟨front, back, hsplit, hfront⟩ := List.eq_append_cons_of_mem hmem
      have hfound : front.findSome? (t.boundAt · z) ≠ none := by
        intro hnone
        refine h ⟨rfl, (ht.meets_iff hother).mpr ⟨front, back, hsplit, ?_⟩⟩
        exact List.findSome?_eq_none_iff.mp hnone
      have hprefix : front.findSome? (u.boundAt · z) = front.findSome? (t.boundAt · z) :=
        findSome?_congr fun j hj => hsame j fun hj' => hfront (hj'.1 ▸ hj)
      obtain ⟨c, hc⟩ := Option.ne_none_iff_exists'.mp hfound
      rw [hsplit, List.findSome?_append, List.findSome?_append, hprefix, hc]
      rfl
    · exact findSome?_congr fun j _ => hsame j fun hj => hz hj.2
  · refine findSome?_congr fun j hj => hsame j fun hj' => hmem (hj'.1 ▸ hj)

/-! ## Undoing -/

/-- The use leaves the scope `i` open, and the scopes that are older as they are. -/
def Use.Inside (t : ScopeTree) (i : Nat) : Use → Prop
  | .nest _ => True
  | .close scope => scope ≠ i
  | .declare scope _ _ => i ≤ scope
  | .rebind scope y _ => ∀ j, t.holder scope y = some j → i ≤ j

/-- The tree `u` is `t` with newer scopes. -/
structure Extends (t u : ScopeTree) : Prop where
  size : t.size < u.size
  live : ∀ j < t.size, u.live[j]? = t.live[j]?

theorem extends_nest (t : ScopeTree) (parent : Nat) : t.Extends (t.nest parent).2 where
  size := by
    rw [size_nest]
    exact Nat.lt_succ_self _
  live _ hj := live_nest t parent hj

theorem Extends.becomes {v : ScopeTree} (hu : t.Extends u) (h : u.Becomes use v)
    (hinside : use.Inside u t.size) : t.Extends v := by
  cases h with
  | refused => exact hu
  | @nested parent _ =>
      refine ⟨?_, fun j hj => ?_⟩
      · rw [size_nest]
        exact Nat.lt_succ_of_lt hu.size
      · rw [live_nest u parent (Nat.lt_trans hj hu.size)]
        exact hu.live j hj
  | @closed scope _ h =>
      -- the newest scope is closed, and it is not the oldest of the newer ones
      have hne : scope ≠ t.size := hinside
      obtain ⟨⟨_, hlast⟩, _⟩ := close_eq_some_iff.mp h
      have hsize := size_close h
      have hold := hu.size
      refine ⟨by omega, fun j hj => ?_⟩
      rw [live_close h (by omega)]
      exact hu.live j hj
  | declared _ hsets =>
      refine ⟨size_congr hsets.parents ▸ hu.size, fun j hj => ?_⟩
      rw [hsets.live j (Nat.ne_of_lt (Nat.lt_of_lt_of_le hj hinside))]
      exact hu.live j hj
  | @rebound _ i _ _ _ _ hi _ hsets =>
      refine ⟨size_congr hsets.parents ▸ hu.size, fun j hj => ?_⟩
      rw [hsets.live j (Nat.ne_of_lt (Nat.lt_of_lt_of_le hj (hinside i hi)))]
      exact hu.live j hj

/-- Closing the only newer scope gives the tree back. -/
theorem Extends.close (hu : t.Extends u) (ht : t.Formed) (hsize : u.size = t.size + 1) :
    u.close t.size = some t := by
  have hlive : u.live.dropLast = t.live := by
    apply List.ext_getElem?
    intro j
    have hlength : u.live.length - 1 = t.size := by
      show u.size - 1 = t.size
      omega
    rw [List.getElem?_dropLast, hlength]
    split
    · rename_i hj
      exact hu.live j hj
    · rename_i hj
      exact (List.getElem?_eq_none (Nat.not_lt.mp hj)).symm
  refine close_eq_some_iff.mpr ⟨⟨Nat.ne_of_gt ht.global_live, hsize.symm⟩, ?_⟩
  rw [hlive]

/-! ## Lexical scoping -/

/-- The rules of lexical scoping, for a tree and what may be done with it next. -/
structure Lexical (t : ScopeTree) : Prop where
  /-- every scope but the global one stands inside a live one, which is older -/
  parent : ∀ i s, t.live[i]? = some s → i ≠ global → ∃ p, s.parent = some p ∧ p < i ∧ p < t.size
  /-- every chain ends, at the global scope -/
  chain : ∀ scope < t.size, ∃ c, t.Chain scope c ∧ c.getLast? = some global
  /-- a search meets live scopes only, and finds the binding of the first scope on the chain that
      has one -/
  lookup : ∀ scope c, t.Chain scope c → ∀ y, t.stranded scope y = none ∧
    t.lookup scope y = c.findSome? (t.boundAt · y)
  /-- the binding that a search finds is the one that is changed, and no other is -/
  rebind : ∀ scope < t.size, ∀ y b, match t.rebind scope y b with
    | none => t.lookup scope y = none
    | some u => ∃ i old, t.Meets y scope i ∧ t.boundAt i y = some old ∧
      t.lookup scope y = some old ∧ t.Sets u i y b
  /-- a symbol is bound in a scope unless that scope binds it already, and then this symbol alone
      means something else, from where no other scope that binds it is met before -/
  declare : ∀ scope < t.size, ∀ y b, match t.declare scope y b with
    | none => ∃ old, t.boundAt scope y = some old
    | some u => t.boundAt scope y = none ∧ t.Sets u scope y b ∧ ∀ other < t.size, ∀ z,
      (z = y ∧ t.Meets y other scope → u.lookup other z = some b) ∧
      (¬(z = y ∧ t.Meets y other scope) → u.lookup other z = t.lookup other z)
  /-- the newest scope is closed, unless it is the global one, and no other -/
  close : ∀ scope, (t.close scope).isSome = true ↔ scope ≠ global ∧ scope + 1 = t.size
  /-- what is refused changes nothing -/
  refused : ∀ use, t.attempt use = none → t.after use = t
  /-- closing a scope undoes everything since it was opened, if nothing older was changed and no
      newer scope is left open, as none is where none was opened -/
  undo : ∀ parent < t.size, ∀ uses,
    (t.nest parent).2.EachUse (fun u use => use.Live u ∧ use.Inside u t.size) uses →
      (((t.nest parent).2.afterAll uses).close t.size = some t ↔
        ((t.nest parent).2.afterAll uses).size = t.size + 1) ∧
      ((∀ use ∈ uses, ∀ inner, use ≠ .nest inner) →
        ((t.nest parent).2.afterAll uses).close t.size = some t)

theorem Formed.rebind_cases (ht : t.Formed) (hlive : scope < t.size) (y : Symbol) (b : Binding) :
    match t.rebind scope y b with
    | none => t.lookup scope y = none
    | some u => ∃ i old, t.Meets y scope i ∧ t.boundAt i y = some old ∧
      t.lookup scope y = some old ∧ t.Sets u i y b := by
  cases h : t.rebind scope y b with
  | none =>
      cases hold : t.lookup scope y with
      | none => rfl
      | some old =>
          obtain ⟨_, _, _, _, hu, _⟩ := rebind_of_lookup hold b
          rw [h] at hu
          cases hu
  | some u =>
      obtain ⟨i, old, hi, hb, hold, hsets⟩ := sets_of_rebind h
      exact ⟨i, old, ht.meets_of_holder hlive hi, hb, hold, hsets⟩

theorem Formed.declare_cases (ht : t.Formed) (hlive : scope < t.size) (y : Symbol) (b : Binding) :
    match t.declare scope y b with
    | none => ∃ old, t.boundAt scope y = some old
    | some u => t.boundAt scope y = none ∧ t.Sets u scope y b ∧ ∀ other < t.size, ∀ z,
      (z = y ∧ t.Meets y other scope → u.lookup other z = some b) ∧
      (¬(z = y ∧ t.Meets y other scope) → u.lookup other z = t.lookup other z) := by
  cases h : t.declare scope y b with
  | none =>
      have hbound := bindsAt_of_declare_none h
      rwa [bindsAt_eq_isSome, Option.isSome_iff_exists] at hbound
  | some u =>
      obtain ⟨hfree, hsets⟩ := sets_of_declare hlive h
      refine ⟨hfree, hsets, fun other hother z => ⟨?_, ht.lookup_of_not_meets hsets hother⟩⟩
      rintro ⟨rfl, hmeets⟩
      exact ht.lookup_of_meets hsets hother hmeets

/-- Without opening a scope, the newest one stays the newest one. -/
theorem size_of_no_nest {uses : List Use} (hnest : ∀ use ∈ uses, ∀ inner, use ≠ .nest inner)
    (hsize : u.size = t.size + 1)
    (h : u.EachUse (fun v use => use.Live v ∧ use.Inside v t.size) uses) :
    (u.afterAll uses).size = t.size + 1 := by
  have hsteps := EachUse.imp (Q := fun v use => (use.Live v ∧ use.Inside v t.size) ∧
    ∀ inner, use ≠ .nest inner) (fun _ use huse h => ⟨h, hnest use huse⟩) h
  refine EachUse.keeps (I := fun v => v.size = t.size + 1) ?_ hsize hsteps
  rintro v use hv ⟨⟨hlive, hinside⟩, hopens⟩
  have hstep := becomes_after hlive
  generalize v.after use = w at hstep ⊢
  cases hstep with
  | refused => exact hv
  | nested => exact absurd rfl (hopens _)
  | closed h =>
      -- the newest scope is the one that stays open
      obtain ⟨⟨_, hlast⟩, _⟩ := close_eq_some_iff.mp h
      exact absurd (Nat.succ_injective (hlast.trans hv)) hinside
  | declared _ hsets => exact (size_congr hsets.parents).trans hv
  | rebound _ _ hsets => exact (size_congr hsets.parents).trans hv

theorem Formed.undo (ht : t.Formed) (parent : Nat) {uses : List Use}
    (h : (t.nest parent).2.EachUse (fun u use => use.Live u ∧ use.Inside u t.size) uses) :
    ((t.nest parent).2.afterAll uses).close t.size = some t ↔
      ((t.nest parent).2.afterAll uses).size = t.size + 1 := by
  have hextends : t.Extends ((t.nest parent).2.afterAll uses) :=
    h.keeps (fun _ _ hu huse => hu.becomes (becomes_after huse.1) huse.2) (extends_nest t parent)
  exact ⟨fun hclose => (size_close hclose).symm, hextends.close ht⟩

theorem Formed.lexical (ht : t.Formed) : t.Lexical where
  parent _ _ := ht.parent
  chain scope hlive := ⟨t.outward scope, ht.chain hlive⟩
  lookup scope c hc y := by
    have hlive : scope < t.size := by
      cases hc with
      | outermost hs => exact (List.getElem?_eq_some_iff.mp hs).1
      | inside hs => exact (List.getElem?_eq_some_iff.mp hs).1
    rw [hc.eq_outward ht.nested]
    exact ⟨stranded_eq_none ht.nested hlive y, lookup_eq_findSome? t scope y⟩
  rebind _ hlive := ht.rebind_cases hlive
  declare _ hlive := ht.declare_cases hlive
  close scope := by
    rw [Option.isSome_iff_exists]
    simp only [close_eq_some_iff, and_true, exists_and_left, exists_eq]
  refused use h := by
    rw [after, h]
    rfl
  undo parent _ uses h := by
    refine ⟨ht.undo parent h, fun hnest => (ht.undo parent h).mpr ?_⟩
    exact size_of_no_nest hnest (size_nest t parent) h

/-- Whatever is done with a new tree of scopes, scopes opened inside live ones and symbols bound and
    bound anew in live ones, its scoping is lexical. -/
theorem uses_stay_lexical (uses : List Use) (h : new.EachUse Use.Live uses) :
    (new.afterAll uses).Lexical := by
  have hformed : (new.afterAll uses).Formed :=
    h.keeps (fun _ _ ht hlive => ht.becomes (becomes_after hlive)) formed_new
  exact hformed.lexical

/-- Two scopes stand side by side inside the global one: the older one shadows a variable of it, and
    from the newer one that variable is changed.  The older one cannot be closed first. -/
def siblings : List Use :=
  [.declare 0 (.var "x") (.var ⟨"int", .int 1⟩), .nest 0,
    .declare 1 (.var "x") (.var ⟨"int", .int 2⟩), .nest 0,
    .declare 1 (.var "x") (.var ⟨"int", .int 3⟩),
    .rebind 2 (.var "x") (.var ⟨"int", .int 4⟩), .nest 2, .close 1, .close 3]

theorem uses_stay_lexical_siblings :
    new.EachUse Use.Live siblings ∧ (new.afterAll siblings).Lexical ∧
      (new.afterAll siblings).size = 3 ∧
      (new.afterAll siblings).lookup 1 (.var "x") = some (.var ⟨"int", .int 2⟩) ∧
      (new.afterAll siblings).lookup 2 (.var "x") = some (.var ⟨"int", .int 4⟩) := by
  have hlive : new.EachUse Use.Live siblings := by decide
  exact ⟨hlive, uses_stay_lexical siblings hlive, rfl, rfl, rfl⟩

end ScopeTree
end PocketC
