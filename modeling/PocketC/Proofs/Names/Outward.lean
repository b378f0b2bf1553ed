/-
  PocketC.Proofs.Names.Outward

  Trees of scopes in which every scope stands inside an older one.  The search for a
  symbol then only meets live scopes.  That a tree is of this kind depends on its
  parents alone, which only opening and closing change.
-/

import PocketC.Names.ScopeTree

namespace PocketC
namespace ScopeTree

/-! ## Parents -/

/-- The scopes around the live scopes, in the order of their indices. -/
def parents (t : ScopeTree) : List (Option Nat) := t.live.map (·.parent)

/-- Every scope stands inside an older one. -/
def Nested (t : ScopeTree) : Prop := ∀ i p : Nat, t.parents[i]? = some (some p) → p < i

theorem size_eq_length_parents (t : ScopeTree) : t.size = t.parents.length := by
  rw [parents, List.length_map, size]

theorem size_congr {t u : ScopeTree} (h : u.parents = t.parents) : u.size = t.size := by
  rw [size_eq_length_parents, size_eq_length_parents, h]

theorem Nested.congr {t u : ScopeTree} (ht : t.Nested) (h : u.parents = t.parents) :
    u.Nested := by
  intro i p hi
  rw [h] at hi
  exact ht i p hi

theorem Nested.parent_lt {t : ScopeTree} (ht : t.Nested) {i p : Nat} {s : Scope}
    (hs : t.live[i]? = some s) (hp : s.parent = some p) : p < i := by
  apply ht
  rw [parents, List.getElem?_map, hs, Option.map_some, hp]

theorem nested_new : new.Nested := by
  intro i p h
  cases i with
  | zero => cases h
  | succ i => simp [parents, new] at h

/-! ## Parents after a change -/

theorem parents_nest (t : ScopeTree) (parent : Nat) :
    (t.nest parent).2.parents = t.parents ++ [some parent] := by
  simp [nest, parents, Scope.empty]

theorem nested_nest {t : ScopeTree} {parent : Nat} (ht : t.Nested) (hp : parent < t.size) :
    (t.nest parent).2.Nested := by
  intro i p h
  rw [parents_nest] at h
  -- `i` is a scope from before, or the one that was opened
  rcases Nat.lt_or_ge i t.parents.length with hi | hi
  · rw [List.getElem?_append_left hi] at h
    exact ht i p h
  · rw [List.getElem?_append_right hi, List.getElem?_singleton] at h
    split at h
    · cases h
      rw [size_eq_length_parents] at hp
      omega
    · cases h

theorem parents_close {t u : ScopeTree} {scope : Nat} (h : t.close scope = some u) :
    u.parents = t.parents.dropLast := by
  rw [close] at h
  split at h
  · cases h
    simp [parents]
  · cases h

theorem nested_close {t u : ScopeTree} {scope : Nat} (ht : t.Nested)
    (h : t.close scope = some u) : u.Nested := by
  intro i p hi
  rw [parents_close h] at hi
  have hlt := (List.getElem?_eq_some_iff.mp hi).1
  rw [List.length_dropLast] at hlt
  rw [List.getElem?_dropLast, if_pos hlt] at hi
  exact ht i p hi

theorem parents_modify (live : List Scope) (i : Nat) {f : Scope → Scope}
    (hf : ∀ s, (f s).parent = s.parent) :
    parents ⟨live.modify i f⟩ = parents ⟨live⟩ := by
  apply List.ext_getElem?
  intro j
  simp only [parents, List.getElem?_map, List.getElem?_modify]
  cases live[j]? with
  | none => rfl
  | some s =>
      simp only [Option.map_eq_map, Option.map_some, Option.some.injEq]
      split
      · exact hf s
      · rfl

theorem parents_declare {t u : ScopeTree} {scope : Nat} {y : Symbol} {b : Binding}
    (h : t.declare scope y b = some u) : u.parents = t.parents := by
  rw [declare] at h
  split at h
  · cases h
  · cases h
    exact parents_modify t.live scope fun _ => rfl

theorem parents_rebind {t u : ScopeTree} {scope : Nat} {y : Symbol} {b : Binding}
    (h : t.rebind scope y b = some u) : u.parents = t.parents := by
  obtain ⟨i, _, hu⟩ := Option.bind_eq_some_iff.mp h
  cases hu
  exact parents_modify t.live i fun _ => rfl

/-! ## Searching -/

/-- A search that starts in a live scope meets live scopes only. -/
theorem strandedWithin_eq_none {t : ScopeTree} (ht : t.Nested) (y : Symbol) (bound : Nat) :
    ∀ scope, scope < t.size → t.strandedWithin y bound scope = none := by
  -- the scope around a live one has a smaller index, so it is live too
  induction bound with
  | zero => exact fun _ _ => rfl
  | succ bound ih =>
      intro scope hlive
      have hs : t.live[scope]? = some t.live[scope] := List.getElem?_eq_getElem hlive
      rw [strandedWithin, hs]
      dsimp only
      split
      · rfl
      · split
        · rfl
        · rename_i parent hp
          exact ih parent (Nat.lt_trans (ht.parent_lt hs hp) hlive)

theorem stranded_eq_none {t : ScopeTree} (ht : t.Nested) {scope : Nat} (hlive : scope < t.size)
    (y : Symbol) : t.stranded scope y = none :=
  strandedWithin_eq_none ht y (scope + 1) scope hlive

/-- In a tree whose scopes stand inside older ones, a search passes at most as many scopes as
    the index that it begins at tells. -/
theorem outwardWithin_congr {t : ScopeTree} (ht : t.Nested) (bound : Nat) : ∀ other scope,
    scope < bound → scope < other → t.outwardWithin bound scope = t.outwardWithin other scope := by
  induction bound with
  | zero => exact fun _ _ h _ => absurd h (Nat.not_lt_zero _)
  | succ bound ih =>
      intro other scope hbound hother
      obtain ⟨other, rfl⟩ := Nat.exists_eq_succ_of_ne_zero (Nat.ne_of_gt (Nat.zero_lt_of_lt hother))
      rw [outwardWithin, outwardWithin]
      cases hs : t.live[scope]? with
      | none => rfl
      | some s =>
          dsimp only
          cases hp : s.parent with
          | none => rfl
          | some parent =>
              -- both bounds are spent by one, the index by at least one
              have hlt := ht.parent_lt hs hp
              dsimp only
              rw [ih other parent (by omega) (by omega)]

/-! ## Symbols bound in the scope itself -/

theorem bindsAt_iff {t : ScopeTree} {y : Symbol} {scope : Nat} :
    t.bindsAt y scope = true ↔ ∃ s b, t.live[scope]? = some s ∧ s.lookup y = some b := by
  rw [bindsAt, Option.any_eq_true]
  constructor
  · rintro ⟨s, hs, hb⟩
    obtain ⟨b, hb⟩ := Option.isSome_iff_exists.mp hb
    exact ⟨s, b, hs, hb⟩
  · rintro ⟨s, b, hs, hb⟩
    exact ⟨s, hs, Option.isSome_iff_exists.mpr ⟨b, hb⟩⟩

/-- A search from a scope that binds the symbol ends in that scope. -/
theorem lookup_of_bindsAt {t : ScopeTree} {y : Symbol} {scope : Nat}
    (h : t.bindsAt y scope = true) :
    t.stranded scope y = none ∧ ∃ b, t.lookup scope y = some b := by
  obtain ⟨s, b, hs, hb⟩ := bindsAt_iff.mp h
  have hbinds : s.binds y = true := Option.isSome_iff_exists.mpr ⟨b, hb⟩
  refine ⟨?_, b, ?_⟩
  · rw [stranded, strandedWithin, hs]
    dsimp only
    rw [if_pos hbinds]
  · have hholder : t.holder scope y = some scope := by
      rw [holder, outward, outwardWithin, hs]
      exact List.find?_cons_of_pos h
    rw [lookup, hholder]
    show t.live[scope]?.bind (·.lookup y) = some b
    rw [hs]
    exact hb

theorem bindsAt_declare {t u : ScopeTree} {y : Symbol} {b : Binding} {scope : Nat}
    (hlive : scope < t.size) (h : t.declare scope y b = some u) : u.bindsAt y scope = true := by
  rw [declare] at h
  split at h
  · cases h
  · cases h
    apply bindsAt_iff.mpr
    refine ⟨t.live[scope].insert y b, b, ?_, ?_⟩
    · rw [List.getElem?_modify_eq, List.getElem?_eq_getElem hlive]
      rfl
    · rw [Scope.lookup_insert, if_pos rfl]

theorem bindsAt_of_declare_none {t : ScopeTree} {y : Symbol} {b : Binding} {scope : Nat}
    (h : t.declare scope y b = none) : t.bindsAt y scope = true := by
  rw [declare] at h
  split at h
  · assumption
  · cases h

end ScopeTree
end PocketC
