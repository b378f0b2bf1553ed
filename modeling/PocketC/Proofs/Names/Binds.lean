/-
  PocketC.Proofs.Names.Binds

  What every binding of a tree of scopes satisfies.  A statement about a symbol and what
  it is bound to is kept by opening and closing scopes, and by binding a symbol to
  something that satisfies it.
-/

import PocketC.Names.ScopeTree

namespace PocketC

/-- The statement `B` holds of every symbol that the scope binds. -/
def Scope.Binds (B : Symbol → Binding → Prop) (s : Scope) : Prop :=
  ∀ y b, s.lookup y = some b → B y b

/-- The statement `B` holds of every symbol that a live scope binds. -/
def ScopeTree.Binds (B : Symbol → Binding → Prop) (t : ScopeTree) : Prop :=
  ∀ s ∈ t.live, s.Binds B

namespace Scope

variable {B : Symbol → Binding → Prop} {s : Scope} {y : Symbol} {b : Binding}

theorem binds_empty (parent : Option Nat) : (empty parent).Binds B := by
  intro y b h
  cases h

theorem Binds.insert (hs : s.Binds B) (hb : B y b) : (s.insert y b).Binds B := by
  intro z c h
  rw [lookup_insert] at h
  split at h
  · rename_i hz
    subst hz
    cases h
    exact hb
  · exact hs z c h

theorem Binds.replace (hs : s.Binds B) (hb : B y b) : (s.replace y b).Binds B := by
  intro z c h
  rw [lookup_replace] at h
  split at h
  · rename_i hz
    subst hz
    obtain ⟨_, _, rfl⟩ := Option.map_eq_some_iff.mp h
    exact hb
  · exact hs z c h

end Scope

namespace ScopeTree

variable {B : Symbol → Binding → Prop} {t u : ScopeTree} {y : Symbol} {b : Binding}

theorem binds_new : new.Binds B := by
  intro s hs
  cases List.mem_singleton.mp hs
  exact Scope.binds_empty none

theorem Binds.nest (ht : t.Binds B) (parent : Nat) : (t.nest parent).2.Binds B := by
  intro s hs
  rcases List.mem_append.mp hs with hs | hs
  · exact ht s hs
  · cases List.mem_singleton.mp hs
    exact Scope.binds_empty (some parent)

theorem Binds.close (ht : t.Binds B) {scope : Nat} (h : t.close scope = some u) : u.Binds B := by
  rw [ScopeTree.close] at h
  split at h
  · cases h
    exact fun s hs => ht s ((List.dropLast_sublist _).mem hs)
  · cases h

theorem Binds.modify (ht : t.Binds B) (i : Nat) {f : Scope → Scope}
    (hf : ∀ s : Scope, s.Binds B → (f s).Binds B) : Binds B ⟨t.live.modify i f⟩ := by
  intro s hs
  obtain ⟨k, hk⟩ := List.mem_iff_getElem?.mp hs
  -- `s` is the changed scope or one that stayed as it was
  rw [List.getElem?_modify] at hk
  obtain ⟨r, hr, hrs⟩ := Option.map_eq_some_iff.mp hk
  have hB : r.Binds B := ht r (List.mem_of_getElem? hr)
  rw [← hrs]
  split
  · exact hf r hB
  · exact hB

theorem Binds.declare (ht : t.Binds B) (hb : B y b) {scope : Nat}
    (h : t.declare scope y b = some u) : u.Binds B := by
  rw [ScopeTree.declare] at h
  split at h
  · cases h
  · cases h
    exact ht.modify scope fun s hs => hs.insert hb

theorem Binds.rebind (ht : t.Binds B) (hb : B y b) {scope : Nat}
    (h : t.rebind scope y b = some u) : u.Binds B := by
  obtain ⟨i, _, hu⟩ := Option.bind_eq_some_iff.mp h
  cases hu
  exact ht.modify i fun s hs => hs.replace hb

theorem Binds.lookup (ht : t.Binds B) {scope : Nat} (h : t.lookup scope y = some b) : B y b := by
  obtain ⟨i, _, h⟩ := Option.bind_eq_some_iff.mp h
  obtain ⟨s, hs, h⟩ := Option.bind_eq_some_iff.mp h
  exact ht s (List.mem_of_getElem? hs) y b h

end ScopeTree
end PocketC
