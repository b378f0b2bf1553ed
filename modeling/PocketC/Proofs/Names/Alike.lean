/-
  PocketC.Proofs.Names.Alike

  Trees of scopes that bind the same symbols to the same variables, and to functions that
  stand for each other.  Every operation on scopes is the same on both: it succeeds for
  both or for neither, finds the same, and leaves trees that are alike again.

  Which functions stand for each other is a parameter.  The closest relation allows them to
  differ in the places of their bodies alone (`Function.Alike`), the widest one in
  everything that no call of them can tell (`Function.Serves`).
-/

import PocketC.Names.ScopeTree
import PocketC.Proofs.Tree.Alike

namespace PocketC

variable {At : Location → Location → Prop}

/-! ## Functions -/

/-- The same function, with a body that is alike if it has one. -/
structure Function.Alike (At : Location → Location → Prop) (f f' : Function) : Prop where
  result : f.result = f'.result
  params : f.params = f'.params
  body : Option.Rel (Stmt.AlikeAll At) f.body f'.body

/-- What a call enters is the same: a body that is alike, with the same parameters. -/
def Function.Serves (At : Location → Location → Prop) (f f' : Function) : Prop :=
  Option.Rel (fun body body' => f.params = f'.params ∧ Stmt.AlikeAll At body body') f.body f'.body

namespace Function

theorem Alike.refl (hAt : ∀ l, At l l) (f : Function) : f.Alike At f where
  result := rfl
  params := rfl
  body := by
    cases f.body with
    | none => exact .none
    | some body => exact .some (Stmt.AlikeAll.refl hAt body)

theorem Alike.eq {f f' : Function} (h : f.Alike Eq f') : f = f' := by
  obtain ⟨result, params, body⟩ := f
  obtain ⟨result', params', body'⟩ := f'
  obtain ⟨hresult, hparams, hbody⟩ := h
  cases hresult
  cases hparams
  cases hbody with
  | none => rfl
  | some hbody => rw [hbody.eq]

theorem alike_declared (result : String) (params : List Param) :
    (declared result params).Alike At (declared result params) :=
  ⟨rfl, rfl, .none⟩

/-- Either both functions take a body or neither does. -/
theorem Alike.define {f f' : Function} (h : f.Alike At f') (params : List Param)
    {body body' : List Stmt} (hbody : Stmt.AlikeAll At body body') :
    Option.Rel (Function.Alike At) (f.define params body) (f'.define params body') := by
  obtain ⟨result, ps, old⟩ := f
  obtain ⟨result', ps', old'⟩ := f'
  obtain ⟨hresult, _, hold⟩ := h
  cases hold with
  | none => exact .some ⟨hresult, rfl, .some hbody⟩
  | some => exact .none

theorem Alike.serves {f f' : Function} (h : f.Alike At f') : f.Serves At f' := by
  obtain ⟨_, hparams, hbody⟩ := h
  unfold Serves
  match f.body, f'.body, hbody with
  | _, _, .none => exact .none
  | _, _, .some hbody => exact .some ⟨hparams, hbody⟩

theorem Serves.define {f f' : Function} (h : f.Serves At f') (params : List Param)
    {body body' : List Stmt} (hbody : Stmt.AlikeAll At body body') :
    Option.Rel (Function.Serves At) (f.define params body) (f'.define params body') := by
  unfold Function.define
  unfold Serves at h
  match f.body, f'.body, h with
  | _, _, .none => exact .some (.some ⟨rfl, hbody⟩)
  | _, _, .some _ => exact .none

/-- A relation between functions that declaring and defining them keeps, and that no call can
    tell apart. -/
structure Correspondence (At : Location → Location → Prop) where
  Fn : Function → Function → Prop
  declared (result : String) (params : List Param) :
    Fn (.declared result params) (.declared result params)
  define {f f' : Function} {body body' : List Stmt} (params : List Param) : Fn f f' →
    Stmt.AlikeAll At body body' → Option.Rel Fn (f.define params body) (f'.define params body')
  serves {f f' : Function} : Fn f f' → f.Serves At f'

/-- Functions that differ in the places of their bodies alone. -/
def alike (At : Location → Location → Prop) : Correspondence At where
  Fn := Function.Alike At
  declared := alike_declared
  define params h hbody := h.define params hbody
  serves h := h.serves

/-- Functions that no call can tell apart. -/
def serving (At : Location → Location → Prop) : Correspondence At where
  Fn := Function.Serves At
  declared _ _ := .none
  define params h hbody := h.define params hbody
  serves h := h

end Function

/-! ## Bindings -/

variable {Fn : Function → Function → Prop}

/-- The same variable, or functions that stand for each other. -/
inductive Binding.Alike (Fn : Function → Function → Prop) : Binding → Binding → Prop where
  | var (v : Variable) : Binding.Alike Fn (.var v) (.var v)
  | fn {f f' : Function} : Fn f f' → Binding.Alike Fn (.fn f) (.fn f')

theorem Binding.Alike.refl (hFn : ∀ f, Fn f f) (b : Binding) : b.Alike Fn b := by
  cases b with
  | var v => exact .var v
  | fn f => exact .fn (hFn f)

theorem Binding.Alike.eq {b b' : Binding} (h : b.Alike (Function.Alike Eq) b') : b = b' := by
  cases h with
  | var => rfl
  | fn h => rw [h.eq]

/-! ## Scopes -/

namespace Scope

/-- Scopes in the same one that bind the same symbols to what is alike. -/
structure Alike (Fn : Function → Function → Prop) (s s' : Scope) : Prop where
  parent : s.parent = s'.parent
  lookup : ∀ y, Option.Rel (Binding.Alike Fn) (s.lookup y) (s'.lookup y)

variable {s s' : Scope} {y : Symbol} {b b' : Binding}

theorem alike_empty (parent : Option Nat) : (empty parent).Alike Fn (empty parent) :=
  ⟨rfl, fun _ => .none⟩

theorem Alike.binds (h : s.Alike Fn s') (y : Symbol) : s.binds y = s'.binds y := by
  unfold Scope.binds
  match s.lookup y, s'.lookup y, h.lookup y with
  | _, _, .none => rfl
  | _, _, .some _ => rfl

theorem Alike.insert (h : s.Alike Fn s') (hb : b.Alike Fn b') :
    (s.insert y b).Alike Fn (s'.insert y b') where
  parent := h.parent
  lookup z := by
    rw [lookup_insert, lookup_insert]
    split
    · exact .some hb
    · exact h.lookup z

theorem Alike.replace (h : s.Alike Fn s') (hb : b.Alike Fn b') :
    (s.replace y b).Alike Fn (s'.replace y b') where
  parent := h.parent
  lookup z := by
    rw [lookup_replace, lookup_replace]
    split
    · match s.lookup z, s'.lookup z, h.lookup z with
      | _, _, .none => exact .none
      | _, _, .some _ => exact .some hb
    · exact h.lookup z

end Scope

/-! ## Trees of scopes -/

namespace ScopeTree

/-- Trees with the same live scopes, each alike the one of the same index. -/
def Alike (Fn : Function → Function → Prop) (t t' : ScopeTree) : Prop :=
  ∀ i : Nat, Option.Rel (Scope.Alike Fn) t.live[i]? t'.live[i]?

variable {t t' : ScopeTree} {y : Symbol} {b b' : Binding}

theorem alike_new : new.Alike Fn new := by
  intro i
  cases i with
  | zero => exact .some (Scope.alike_empty none)
  | succ i => exact .none

theorem Alike.size (h : t.Alike Fn t') : t.size = t'.size := by
  -- both trees have no scope at the same indices
  have hnone : ∀ i, t.live.length ≤ i ↔ t'.live.length ≤ i := by
    intro i
    rw [← List.getElem?_eq_none_iff, ← List.getElem?_eq_none_iff]
    match t.live[i]?, t'.live[i]?, h i with
    | _, _, .none => exact ⟨fun _ => rfl, fun _ => rfl⟩
    | _, _, .some _ =>
        constructor
        · exact fun h => absurd h (Option.some_ne_none _)
        · exact fun h => absurd h (Option.some_ne_none _)
  exact Nat.le_antisymm ((hnone _).mpr (Nat.le_refl _)) ((hnone _).mp (Nat.le_refl _))

/-! ### Opening and closing -/

theorem Alike.nest (h : t.Alike Fn t') (parent : Nat) :
    (t.nest parent).2.Alike Fn (t'.nest parent).2 := by
  intro i
  have hsize : t.live.length = t'.live.length := h.size
  show Option.Rel _ (t.live ++ [Scope.empty (some parent)])[i]?
    (t'.live ++ [Scope.empty (some parent)])[i]?
  rw [List.getElem?_append, List.getElem?_append, hsize]
  split
  · exact h i
  · cases i - t'.live.length with
    | zero => exact .some (Scope.alike_empty (some parent))
    | succ k => exact .none

theorem Alike.close (h : t.Alike Fn t') (scope : Nat) :
    Option.Rel (Alike Fn) (t.close scope) (t'.close scope) := by
  have hsize : t.live.length = t'.live.length := h.size
  rw [ScopeTree.close, ScopeTree.close, h.size]
  split
  · refine .some fun i => ?_
    show Option.Rel _ t.live.dropLast[i]? t'.live.dropLast[i]?
    rw [List.getElem?_dropLast, List.getElem?_dropLast, hsize]
    split
    · exact h i
    · exact .none
  · exact .none

/-! ### Searching -/

theorem Alike.bindsAt (h : t.Alike Fn t') (y : Symbol) (scope : Nat) :
    t.bindsAt y scope = t'.bindsAt y scope := by
  unfold ScopeTree.bindsAt
  match t.live[scope]?, t'.live[scope]?, h scope with
  | _, _, .none => rfl
  | _, _, .some hs => exact hs.binds y

theorem Alike.outwardWithin (h : t.Alike Fn t') (bound : Nat) : ∀ scope,
    t.outwardWithin bound scope = t'.outwardWithin bound scope := by
  induction bound with
  | zero => exact fun _ => rfl
  | succ bound ih =>
      intro scope
      rw [ScopeTree.outwardWithin, ScopeTree.outwardWithin]
      match t.live[scope]?, t'.live[scope]?, h scope with
      | _, _, .none => rfl
      | _, _, .some hs =>
          dsimp only
          rw [hs.parent]
          split
          · rfl
          · rw [ih]

theorem Alike.holder (h : t.Alike Fn t') (scope : Nat) (y : Symbol) :
    t.holder scope y = t'.holder scope y := by
  have hbinds : t.bindsAt y = t'.bindsAt y := funext (h.bindsAt y)
  rw [ScopeTree.holder, ScopeTree.holder, outward, outward, h.outwardWithin, hbinds]

theorem Alike.strandedWithin (h : t.Alike Fn t') (y : Symbol) (bound : Nat) : ∀ scope,
    t.strandedWithin y bound scope = t'.strandedWithin y bound scope := by
  induction bound with
  | zero => exact fun _ => rfl
  | succ bound ih =>
      intro scope
      rw [ScopeTree.strandedWithin, ScopeTree.strandedWithin]
      match t.live[scope]?, t'.live[scope]?, h scope with
      | _, _, .none => rfl
      | _, _, .some hs =>
          dsimp only
          rw [hs.binds y, hs.parent]
          split
          · rfl
          · split
            · rfl
            · exact ih _

theorem Alike.stranded (h : t.Alike Fn t') (scope : Nat) (y : Symbol) :
    t.stranded scope y = t'.stranded scope y :=
  h.strandedWithin y (scope + 1) scope

/-- A symbol means the same from the same scope. -/
theorem Alike.lookup (h : t.Alike Fn t') (scope : Nat) (y : Symbol) :
    Option.Rel (Binding.Alike Fn) (t.lookup scope y) (t'.lookup scope y) := by
  rw [ScopeTree.lookup, ScopeTree.lookup, h.holder scope y]
  cases t'.holder scope y with
  | none => exact .none
  | some i =>
      show Option.Rel _ (t.live[i]?.bind (·.lookup y)) (t'.live[i]?.bind (·.lookup y))
      match t.live[i]?, t'.live[i]?, h i with
      | _, _, .none => exact .none
      | _, _, .some hs => exact hs.lookup y

/-! ### Binding -/

theorem Alike.modify (h : t.Alike Fn t') (i : Nat) {f f' : Scope → Scope}
    (hf : ∀ s s' : Scope, s.Alike Fn s' → (f s).Alike Fn (f' s')) :
    Alike Fn ⟨t.live.modify i f⟩ ⟨t'.live.modify i f'⟩ := by
  intro j
  rw [List.getElem?_modify, List.getElem?_modify]
  match t.live[j]?, t'.live[j]?, h j with
  | _, _, .none => exact .none
  | _, _, .some hs =>
      by_cases hij : i = j
      · simp only [hij, if_true]
        exact .some (hf _ _ hs)
      · simp only [hij, if_false]
        exact .some hs

theorem Alike.declare (h : t.Alike Fn t') (scope : Nat) (y : Symbol) (hb : b.Alike Fn b') :
    Option.Rel (Alike Fn) (t.declare scope y b) (t'.declare scope y b') := by
  rw [ScopeTree.declare, ScopeTree.declare, h.bindsAt]
  split
  · exact .none
  · exact .some (h.modify scope fun _ _ hs => hs.insert hb)

theorem Alike.rebind (h : t.Alike Fn t') (scope : Nat) (y : Symbol) (hb : b.Alike Fn b') :
    Option.Rel (Alike Fn) (t.rebind scope y b) (t'.rebind scope y b') := by
  rw [ScopeTree.rebind, ScopeTree.rebind, h.holder]
  cases t'.holder scope y with
  | none => exact .none
  | some i => exact .some (h.modify i fun _ _ hs => hs.replace hb)

end ScopeTree
end PocketC
