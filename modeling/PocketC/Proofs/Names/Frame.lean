/-
  PocketC.Proofs.Names.Frame

  Scopes that a call does not reach.  A call works on the global scope and on scopes of
  its own; the scopes of its caller stand between them, and every scope of the call has
  a higher index by their number.  Nothing that a call does with its scopes tells
  whether they are there: opening, closing, looking up and binding commute with putting
  them in.
-/

import PocketC.Proofs.Names.Outward

namespace PocketC

/-! ## Moving indices -/

/-- An index after `n` scopes are put in behind the global one. -/
def ScopeTree.shift (n : Nat) : Nat → Nat
  | 0 => 0
  | i + 1 => i + 1 + n

theorem ScopeTree.lt_shift_succ (n i : Nat) : i < ScopeTree.shift n i + 1 := by
  cases i with
  | zero => exact Nat.zero_lt_one
  | succ i =>
      show i + 1 < i + 1 + n + 1
      omega

theorem ScopeTree.shift_lt_shift (n : Nat) {i j : Nat} (h : i < j) :
    ScopeTree.shift n i < ScopeTree.shift n j := by
  cases i with
  | zero =>
      cases j with
      | zero => exact h
      | succ j => exact Nat.lt_of_lt_of_le (Nat.succ_pos j) (Nat.le_add_right _ n)
  | succ i =>
      cases j with
      | zero => exact absurd h (Nat.not_lt_zero _)
      | succ j => exact Nat.add_lt_add_right h n

/-- The scope with the index of the scope around it moved. -/
def Scope.relocate (n : Nat) (s : Scope) : Scope :=
  { s with parent := s.parent.map (ScopeTree.shift n) }

theorem Scope.relocate_of_root {s : Scope} (n : Nat) (h : s.parent = none) : s.relocate n = s := by
  obtain ⟨bindings, parent⟩ := s
  cases h
  rfl

theorem Scope.relocate_zero (s : Scope) : s.relocate 0 = s := by
  have hshift : ScopeTree.shift 0 = id := by
    funext i
    cases i <;> rfl
  rw [relocate, hshift, Option.map_id]
  rfl

namespace ScopeTree

/-- The tree with the scopes `A` put in behind the global one. -/
def framed (A : List Scope) (t : ScopeTree) : ScopeTree :=
  match t.live.map (·.relocate A.length) with
  | [] => ⟨A⟩
  | g :: own => ⟨g :: (A ++ own)⟩

variable {A : List Scope} {t u : ScopeTree} {y : Symbol} {b : Binding}

theorem framed_cons (A : List Scope) (g : Scope) (own : List Scope) :
    framed A ⟨g :: own⟩ =
      ⟨g.relocate A.length :: (A ++ own.map (·.relocate A.length))⟩ := rfl

/-- A tree with a live scope has a global one. -/
theorem exists_cons (h : 0 < t.size) : ∃ g own, t = ⟨g :: own⟩ := by
  obtain ⟨live⟩ := t
  cases live with
  | nil => exact absurd h (Nat.lt_irrefl 0)
  | cons g own => exact ⟨g, own, rfl⟩

/-- A tree in which no scopes are put in stays as it is. -/
theorem framed_nil (h : 0 < t.size) : t.framed [] = t := by
  obtain ⟨g, own, rfl⟩ := exists_cons h
  have hrelocate : (·.relocate 0) = (id : Scope → Scope) := funext Scope.relocate_zero
  rw [framed_cons, List.length_nil, hrelocate, List.map_id, g.relocate_zero]
  rfl

theorem size_framed (A : List Scope) (t : ScopeTree) : (t.framed A).size = t.size + A.length := by
  obtain ⟨live⟩ := t
  cases live with
  | nil => exact (Nat.zero_add _).symm
  | cons g own =>
      rw [framed_cons]
      simp only [size, List.length_cons, List.length_append, List.length_map]
      omega

theorem shift_size (n : Nat) (h : 0 < t.size) : shift n t.size = t.size + n := by
  obtain ⟨k, hk⟩ := Nat.exists_eq_succ_of_ne_zero (Nat.ne_of_gt h)
  rw [hk]
  rfl

/-- A scope of the tree has its moved index afterwards. -/
theorem live_framed (h : 0 < t.size) (i : Nat) :
    (t.framed A).live[shift A.length i]? = t.live[i]?.map (·.relocate A.length) := by
  obtain ⟨g, own, rfl⟩ := exists_cons h
  cases i with
  | zero => rfl
  | succ i =>
      show (g.relocate A.length :: (A ++ own.map (·.relocate A.length)))[i + 1 + A.length]? = _
      rw [Nat.add_right_comm, List.getElem?_cons_succ, List.getElem?_append_right (by omega),
        Nat.add_sub_cancel, List.getElem?_map]
      rfl

/-- The scopes put in are those behind the global one. -/
theorem live_framed_of_lt {i : Nat} (h : 0 < t.size) (hi : i < A.length) :
    (t.framed A).live[i + 1]? = A[i]? := by
  obtain ⟨g, own, rfl⟩ := exists_cons h
  show (g.relocate A.length :: (A ++ own.map (·.relocate A.length)))[i + 1]? = _
  rw [List.getElem?_cons_succ, List.getElem?_append_left hi]

/-- The global scope stands inside no other one and stays as it is. -/
theorem global_framed (ht : t.Nested) (h : 0 < t.size) : (t.framed A).live[0]? = t.live[0]? := by
  have hglobal : (t.framed A).live[0]? = t.live[0]?.map (·.relocate A.length) := live_framed h 0
  obtain ⟨g, own, rfl⟩ := exists_cons h
  cases hp : g.parent with
  | none =>
      rw [hglobal]
      show some (g.relocate A.length) = some g
      rw [g.relocate_of_root A.length hp]
  | some p => exact absurd (ht.parent_lt rfl hp) (Nat.not_lt_zero p)

/-! ## Opening and closing -/

theorem framed_nest (h : 0 < t.size) (parent : Nat) :
    ((t.framed A).nest (shift A.length parent)).2 = ((t.nest parent).2).framed A := by
  obtain ⟨g, own, rfl⟩ := exists_cons h
  have hnew : ((nest ⟨g :: own⟩ parent).2) = ⟨g :: (own ++ [.empty (some parent)])⟩ := rfl
  rw [hnew, framed_cons, framed_cons, List.map_append, ← List.append_assoc]
  rfl

theorem framed_close {scope : Nat} (h : t.close scope = some u) :
    (t.framed A).close (shift A.length scope) = some (u.framed A) := by
  rw [close] at h
  split at h
  · rename_i hscope
    cases h
    obtain ⟨hne, hsize⟩ := hscope
    -- the scope is not the global one, so it stands behind the scopes put in
    obtain ⟨k, rfl⟩ := Nat.exists_eq_succ_of_ne_zero hne
    have hpos : 0 < t.size := by
      rw [← hsize]
      exact Nat.succ_pos _
    have hlast : shift A.length (k + 1) + 1 = (t.framed A).size := by
      rw [size_framed, ← hsize]
      show k + 1 + A.length + 1 = k + 1 + 1 + A.length
      omega
    obtain ⟨g, own, rfl⟩ := exists_cons hpos
    have hown : own ≠ [] := by
      rintro rfl
      cases hsize
    have hmap : own.map (·.relocate A.length) ≠ [] := by
      rw [Ne, List.map_eq_nil_iff]
      exact hown
    have hne' : shift A.length (k + 1) ≠ global := by
      show k + 1 + A.length ≠ 0
      omega
    rw [close, if_pos ⟨hne', hlast⟩, List.dropLast_cons_of_ne_nil hown, framed_cons, framed_cons,
      List.dropLast_cons_of_ne_nil (List.append_ne_nil_of_right_ne_nil A hmap),
      List.dropLast_append_of_ne_nil hmap, List.map_dropLast]
  · cases h

/-! ## Searching -/

theorem outwardWithin_framed (h : 0 < t.size) (bound : Nat) : ∀ scope,
    (t.framed A).outwardWithin bound (shift A.length scope) =
      (t.outwardWithin bound scope).map (shift A.length) := by
  induction bound with
  | zero => exact fun _ => rfl
  | succ bound ih =>
      intro scope
      rw [outwardWithin, outwardWithin, live_framed h]
      cases t.live[scope]? with
      | none => rfl
      | some s =>
          cases hp : s.parent with
          | none => simp [Scope.relocate, hp]
          | some parent => simp [Scope.relocate, hp, ih parent]

theorem outward_framed (ht : t.Nested) (h : 0 < t.size) (scope : Nat) :
    (t.framed A).outward (shift A.length scope) = (t.outward scope).map (shift A.length) := by
  -- the moved index allows for more scopes than there are to pass
  rw [outward, outwardWithin_framed h, outward,
    outwardWithin_congr ht _ (scope + 1) scope (lt_shift_succ A.length scope)
      (Nat.lt_succ_self scope)]

theorem bindsAt_framed (h : 0 < t.size) (y : Symbol) (scope : Nat) :
    (t.framed A).bindsAt y (shift A.length scope) = t.bindsAt y scope := by
  rw [bindsAt, bindsAt, live_framed h]
  cases t.live[scope]? <;> rfl

theorem holder_framed (ht : t.Nested) (h : 0 < t.size) (scope : Nat) (y : Symbol) :
    (t.framed A).holder (shift A.length scope) y = (t.holder scope y).map (shift A.length) := by
  have hbinds : (t.framed A).bindsAt y ∘ shift A.length = t.bindsAt y :=
    funext fun i => bindsAt_framed h y i
  rw [holder, outward_framed ht h, List.find?_map, hbinds, holder]

/-- A name means the same with the scopes put in as without them. -/
theorem lookup_framed (ht : t.Nested) (h : 0 < t.size) (scope : Nat) (y : Symbol) :
    (t.framed A).lookup (shift A.length scope) y = t.lookup scope y := by
  rw [lookup, lookup, holder_framed ht h]
  cases t.holder scope y with
  | none => rfl
  | some i =>
      show ((t.framed A).live[shift A.length i]?).bind (·.lookup y) = t.live[i]?.bind (·.lookup y)
      rw [live_framed h]
      cases t.live[i]? <;> rfl

/-! ## Binding -/

theorem modify_append_right (A own : List Scope) (i : Nat) (f : Scope → Scope) :
    (A ++ own).modify (i + A.length) f = A ++ own.modify i f := by
  induction A with
  | nil => rfl
  | cons a A ih =>
      rw [List.cons_append, List.length_cons, ← Nat.add_assoc, List.modify_succ_cons, ih]
      rfl

theorem modify_map {f r : Scope → Scope} (hf : ∀ s, f (r s) = r (f s)) (own : List Scope) :
    ∀ i, (own.map r).modify i f = (own.modify i f).map r := by
  induction own with
  | nil => exact fun i => by cases i <;> rfl
  | cons s own ih =>
      intro i
      cases i with
      | zero =>
          show f (r s) :: own.map r = r (f s) :: own.map r
          rw [hf]
      | succ i =>
          rw [List.map_cons, List.modify_succ_cons, List.modify_succ_cons, List.map_cons, ih]

/-- Changing a scope without its place changes that scope with the others put in. -/
theorem framed_modify (h : 0 < t.size) (i : Nat) {f : Scope → Scope}
    (hf : ∀ s n, f (Scope.relocate n s) = (f s).relocate n) :
    (⟨(t.framed A).live.modify (shift A.length i) f⟩ : ScopeTree) =
      framed A ⟨t.live.modify i f⟩ := by
  obtain ⟨g, own, rfl⟩ := exists_cons h
  rw [framed_cons]
  cases i with
  | zero =>
      show (⟨f (g.relocate A.length) :: _⟩ : ScopeTree) = _
      rw [hf]
      rfl
  | succ i =>
      show (⟨(g.relocate A.length :: (A ++ _)).modify (i + 1 + A.length) f⟩ : ScopeTree) = _
      rw [Nat.add_right_comm, List.modify_succ_cons, modify_append_right,
        modify_map fun s => hf s A.length]
      rfl

theorem framed_declare (h : 0 < t.size) (scope : Nat) (y : Symbol) (b : Binding) :
    (t.framed A).declare (shift A.length scope) y b = (t.declare scope y b).map (framed A) := by
  rw [declare, declare, bindsAt_framed h]
  split
  · rfl
  · rw [framed_modify h scope fun _ _ => rfl]
    rfl

theorem framed_rebind (ht : t.Nested) (h : 0 < t.size) (scope : Nat) (y : Symbol) (b : Binding) :
    (t.framed A).rebind (shift A.length scope) y b = (t.rebind scope y b).map (framed A) := by
  rw [rebind, rebind, holder_framed ht h]
  cases t.holder scope y with
  | none => rfl
  | some i =>
      show some (⟨(t.framed A).live.modify (shift A.length i) (·.replace y b)⟩ : ScopeTree) = _
      rw [framed_modify h i fun _ _ => rfl]
      rfl

end ScopeTree
end PocketC
