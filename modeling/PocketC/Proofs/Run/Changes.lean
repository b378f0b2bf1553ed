/-
  PocketC.Proofs.Run.Changes

  What reading, changing and declaring names does on a well-formed machine.  Each of
  these steps stops with a fault and changes nothing, or it gives a result and sets what
  one symbol is bound to in one scope at most.  Proofs about runs take from here what a
  step can do.
-/

import PocketC.Proofs.Names.BoundAt
import PocketC.Proofs.Run.Steps

namespace PocketC

/-- The tree `u` is `t` with `c` in place of the binding `b` that `y` has as seen from
    `scope`. -/
def ScopeTree.Rebinds (t : ScopeTree) (scope : Nat) (y : Symbol) (b c : Binding)
    (u : ScopeTree) : Prop :=
  ∃ i, t.holder scope y = some i ∧ t.boundAt i y = some b ∧ t.Sets u i y c

/-- The tree `u` is `t` with `b` bound to `y`, which is free in `scope`. -/
def ScopeTree.Declares (t : ScopeTree) (scope : Nat) (y : Symbol) (b : Binding)
    (u : ScopeTree) : Prop :=
  t.boundAt scope y = none ∧ t.Sets u scope y b

namespace ScopeTree

variable {t u : ScopeTree} {scope : Nat} {y : Symbol} {b c : Binding} {B : Symbol → Binding → Prop}

theorem Rebinds.parents (h : t.Rebinds scope y b c u) : u.parents = t.parents := by
  obtain ⟨_, _, _, hsets⟩ := h
  exact hsets.parents

theorem Rebinds.bound (h : t.Rebinds scope y b c u) (ht : t.Binds B) : B y b := by
  obtain ⟨i, _, hb, _⟩ := h
  exact binds_iff.mp ht i y b hb

theorem Rebinds.binds (h : t.Rebinds scope y b c u) (ht : t.Binds B) (hc : B y b → B y c) :
    u.Binds B := by
  have hbound := h.bound ht
  obtain ⟨i, _, _, hsets⟩ := h
  exact hsets.binds ht (hc hbound)

/-- Nothing is bound that was not bound before. -/
theorem Rebinds.isSome (h : t.Rebinds scope y b c u) {i : Nat} {z : Symbol}
    (hz : (u.boundAt i z).isSome = true) : (t.boundAt i z).isSome = true := by
  obtain ⟨k, _, hb, hsets⟩ := h
  rw [hsets.boundAt] at hz
  split at hz
  · rename_i hiz
    rw [hiz.1, hiz.2, hb]
    rfl
  · exact hz

/-- Only the symbol that is declared may be bound and not have been bound before. -/
theorem Declares.isSome (h : t.Declares scope y b u) {i : Nat} {z : Symbol}
    (hz : (u.boundAt i z).isSome = true) :
    (t.boundAt i z).isSome = true ∨ i = scope ∧ z = y := by
  rw [h.2.boundAt] at hz
  split at hz
  · rename_i hiz
    exact .inr hiz
  · exact .inl hz

theorem Declares.parents (h : t.Declares scope y b u) : u.parents = t.parents :=
  h.2.parents

theorem Declares.binds (h : t.Declares scope y b u) (ht : t.Binds B) (hb : B y b) : u.Binds B :=
  h.2.binds ht hb

/-! ## What stays bound -/

/-- The scope `i` binds the symbol to `f a` for an `a` of which `Q` holds. -/
def BindsAs {α : Type} (t : ScopeTree) (i : Nat) (y : Symbol) (f : α → Binding)
    (Q : α → Prop) : Prop :=
  ∃ a, t.boundAt i y = some (f a) ∧ Q a

section
variable {α : Type} {i j : Nat} {z : Symbol} {f : α → Binding} {Q : α → Prop}

theorem BindsAs.lt_size (h : t.BindsAs i y f Q) : i < t.size := by
  obtain ⟨a, ha, _⟩ := h
  exact lt_size_of_boundAt ha

theorem BindsAs.congr (h : t.BindsAs i y f Q) (hu : u.live[i]? = t.live[i]?) :
    u.BindsAs i y f Q := by
  obtain ⟨a, ha, hQ⟩ := h
  exact ⟨a, (boundAt_congr hu y).trans ha, hQ⟩

/-- Setting what a symbol is bound to only matters to the symbol itself in its own scope. -/
theorem BindsAs.sets (h : t.BindsAs i y f Q) (hu : t.Sets u j z c)
    (hc : i = j → y = z → ∃ a, c = f a ∧ Q a) : u.BindsAs i y f Q := by
  unfold BindsAs
  rw [hu.boundAt]
  split
  · rename_i hij
    obtain ⟨a, rfl, hQ⟩ := hc hij.1 hij.2
    exact ⟨a, rfl, hQ⟩
  · exact h

/-- A symbol that is declared was free, so it is not one that was bound. -/
theorem BindsAs.declares (h : t.BindsAs i y f Q) (hu : t.Declares scope z c u) :
    u.BindsAs i y f Q := by
  refine h.sets hu.2 ?_
  rintro rfl rfl
  obtain ⟨a, ha, _⟩ := h
  rw [hu.1] at ha
  cases ha

theorem BindsAs.nest (h : t.BindsAs i y f Q) (parent : Nat) :
    (t.nest parent).2.BindsAs i y f Q :=
  h.congr (live_nest t parent h.lt_size)

/-- What is bound before a scope is opened, and also before that scope is closed, is bound when it
    has been closed. -/
theorem BindsAs.close {r : ScopeTree} (h : t.BindsAs i y f Q) (hr : r.BindsAs i y f Q)
    (hclose : r.close scope = some u) (hparents : u.parents = t.parents) :
    u.BindsAs i y f Q := by
  have hlt := h.lt_size
  rw [← size_congr hparents] at hlt
  exact hr.congr (live_close hclose hlt)

end

end ScopeTree

namespace Exec

variable {m : Machine}

/-! ## The two changes -/

theorem declare_cases (hm : m.WellFormed) (y : Symbol) (b : Binding) :
    (∃ u, m.scopes.Declares m.current y b u ∧ declare y b m = .ok true { m with scopes := u }) ∨
      ((m.scopes.boundAt m.current y).isSome = true ∧ declare y b m = .ok false m) := by
  rw [declare_eq hm.current_live]
  cases hfree : m.scopes.boundAt m.current y with
  | none =>
      obtain ⟨u, hu, hsets⟩ := ScopeTree.declare_eq_some hm.current_live hfree b
      rw [hu]
      exact .inl ⟨u, ⟨hfree, hsets⟩, rfl⟩
  | some c =>
      rw [ScopeTree.declare_eq_none hfree]
      exact .inr ⟨rfl, rfl⟩

theorem rebind_of_lookup (hm : m.WellFormed) {y : Symbol} {b : Binding}
    (h : m.scopes.lookup m.current y = some b) (c : Binding) :
    ∃ u, m.scopes.Rebinds m.current y b c u ∧ rebind y c m = .ok () { m with scopes := u } := by
  obtain ⟨i, hi, hb, u, hu, hsets⟩ := ScopeTree.rebind_of_lookup h c
  rw [rebind_eq hm, hu]
  exact ⟨u, ⟨i, hi, hb, hsets⟩, rfl⟩

/-! ## Variables -/

theorem variableNamed_cases (hm : m.WellFormed) (name : String) (l : Location) :
    (∃ v, m.scopes.lookup m.current (.var name) = some (.var v) ∧
        variableNamed name l m = .ok v m) ∨
      ∃ f, variableNamed name l m = .error (.fault f) m := by
  rw [variableNamed, bind_ok (resolve_eq hm (.var name))]
  match m.scopes.lookup m.current (.var name) with
  | some (.var v) => exact .inl ⟨v, rfl, rfl⟩
  | some (.fn _) => exact .inr ⟨_, rfl⟩
  | none => exact .inr ⟨_, rfl⟩

theorem declareVariable_cases (hm : m.WellFormed) (name : String) (v : Variable) (l : Location) :
    (∃ u, m.scopes.Declares m.current (.var name) (.var v) u ∧
        declareVariable name v l m = .ok () { m with scopes := u }) ∨
      ((m.scopes.boundAt m.current (.var name)).isSome = true ∧
        declareVariable name v l m = .error (.fault ⟨.nameTaken name, l⟩) m) := by
  rw [declareVariable]
  obtain ⟨u, hu, hdeclare⟩ | ⟨hbound, hdeclare⟩ := declare_cases hm (.var name) (.var v)
  · rw [bind_ok hdeclare]
    exact .inl ⟨u, hu, rfl⟩
  · rw [bind_ok hdeclare]
    exact .inr ⟨hbound, rfl⟩

theorem checkStorable_cases (v : Value) (l : Location) (m : Machine) :
    v ≠ .void ∧ checkStorable v l m = .ok () m ∨
      ∃ f, checkStorable v l m = .error (.fault f) m := by
  cases v with
  | void => exact .inr ⟨_, rfl⟩
  | _ => exact .inl ⟨nofun, rfl⟩

theorem ofExcept_cases {α : Type} (r : Except FaultCause α) (l : Location) (m : Machine) :
    (∃ a, r = .ok a ∧ ofExcept r l m = .ok a m) ∨ ∃ f, ofExcept r l m = .error (.fault f) m := by
  cases r with
  | ok a => exact .inl ⟨a, rfl, rfl⟩
  | error cause => exact .inr ⟨_, rfl⟩

theorem checkStorable_eq_ok {v : Value} {l : Location} {q : Machine}
    (h : checkStorable v l m = .ok () q) : q = m := by
  obtain ⟨_, hok⟩ | ⟨f, hfault⟩ := checkStorable_cases v l m
  · rw [hok] at h
    cases h
    rfl
  · rw [hfault] at h
    cases h

theorem ofExcept_eq_ok {α : Type} {r : Except FaultCause α} {l : Location} {a : α} {q : Machine}
    (h : ofExcept r l m = .ok a q) : r = .ok a ∧ q = m := by
  cases r with
  | ok b =>
      cases h
      exact ⟨rfl, rfl⟩
  | error cause => cases h

theorem load_cases (hm : m.WellFormed) (name : String) (l : Location) :
    (∃ v, m.scopes.lookup m.current (.var name) = some (.var v) ∧ v.value.isAssigned = true ∧
        load name l m = .ok v.value m) ∨
      ∃ f, load name l m = .error (.fault f) m := by
  rw [load]
  obtain ⟨v, hv, hnamed⟩ | ⟨f, hnamed⟩ := variableNamed_cases hm name l
  · rw [bind_ok hnamed]
    split
    · rename_i hassigned
      exact .inl ⟨v, hv, hassigned, rfl⟩
    · exact .inr ⟨_, rfl⟩
  · rw [bind_error hnamed]
    exact .inr ⟨f, rfl⟩

/-- The position of an element is inside of its array. -/
theorem positionIn_lt {name : String} {length i : Nat} {index : Int}
    (h : positionIn name length index = .ok i) : i < length := by
  unfold positionIn at h
  split at h
  · cases h
    omega
  · cases h

theorem elementsOf_eq_ok {name : String} {v : Value} {es : List Value}
    (h : v.elementsOf name = .ok es) : v = .array es := by
  cases v with
  | array elements => cases h; rfl
  | _ => cases h

theorem loadElement_cases (hm : m.WellFormed) (name : String) (index : Int) (l : Location) :
    (∃ v es e, m.scopes.lookup m.current (.var name) = some (.var v) ∧ v.value = .array es ∧
        e ∈ es ∧ e.isAssigned = true ∧ loadElement name index l m = .ok e m) ∨
      ∃ f, loadElement name index l m = .error (.fault f) m := by
  rw [loadElement]
  obtain ⟨v, hv, hnamed⟩ | ⟨f, hnamed⟩ := variableNamed_cases hm name l
  · rw [bind_ok hnamed]
    obtain ⟨es, hes, helements⟩ | ⟨f, helements⟩ := ofExcept_cases (v.value.elementsOf name) l m
    · rw [bind_ok helements]
      obtain ⟨i, hi, hposition⟩ | ⟨f, hposition⟩ :=
        ofExcept_cases (positionIn name es.length index) l m
      · rw [bind_ok hposition]
        by_cases hassigned : (es.getD i .uninitialized).isAssigned = true
        · have hlt := positionIn_lt hi
          rw [if_pos hassigned]
          refine
            .inl ⟨v, es, es.getD i .uninitialized, hv, elementsOf_eq_ok hes, ?_, hassigned, rfl⟩
          rw [List.getD_eq_getElem?_getD, List.getElem?_eq_getElem hlt]
          exact List.getElem_mem hlt
        · rw [if_neg hassigned]
          exact .inr ⟨_, rfl⟩
      · rw [bind_error hposition]
        exact .inr ⟨f, rfl⟩
    · rw [bind_error helements]
      exact .inr ⟨f, rfl⟩
  · rw [bind_error hnamed]
    exact .inr ⟨f, rfl⟩

/-- A store sets the variable that the search finds to what fits it, or changes nothing. -/
theorem store_cases (hm : m.WellFormed) (name : String) (new : Value) (l : Location) :
    (∃ v w u, new ≠ .void ∧ v.value.fitting name new = .ok w ∧
        m.scopes.Rebinds m.current (.var name) (.var v) (.var { v with value := w }) u ∧
        store name new l m = .ok w { m with scopes := u }) ∨
      ∃ f, store name new l m = .error (.fault f) m := by
  rw [store]
  obtain ⟨hnew, hstorable⟩ | ⟨f, hstorable⟩ := checkStorable_cases new l m
  · rw [bind_ok hstorable]
    obtain ⟨v, hv, hnamed⟩ | ⟨f, hnamed⟩ := variableNamed_cases hm name l
    · rw [bind_ok hnamed]
      obtain ⟨w, hw, hfits⟩ | ⟨f, hfits⟩ := ofExcept_cases (v.value.fitting name new) l m
      · obtain ⟨u, hu, hrebind⟩ := rebind_of_lookup hm hv (.var { v with value := w })
        rw [bind_ok hfits, bind_ok hrebind]
        exact .inl ⟨v, w, u, hnew, hw, hu, rfl⟩
      · rw [bind_error hfits]
        exact .inr ⟨f, rfl⟩
    · rw [bind_error hnamed]
      exact .inr ⟨f, rfl⟩
  · rw [bind_error hstorable]
    exact .inr ⟨f, rfl⟩

/-- Storing an element replaces one element of the array that the search finds, or changes
    nothing. -/
theorem assignElement_cases (hm : m.WellFormed) (name : String) (index : Int) (new : Value)
    (l : Location) :
    (∃ v es i u, new ≠ .void ∧ v.value = .array es ∧ positionIn name es.length index = .ok i ∧
        m.scopes.Rebinds m.current (.var name) (.var v)
          (.var { v with value := .array (es.set i new) }) u ∧
        assignElement name index new l m = .ok new { m with scopes := u }) ∨
      ∃ f, assignElement name index new l m = .error (.fault f) m := by
  rw [assignElement]
  obtain ⟨hnew, hstorable⟩ | ⟨f, hstorable⟩ := checkStorable_cases new l m
  · rw [bind_ok hstorable]
    obtain ⟨v, hv, hnamed⟩ | ⟨f, hnamed⟩ := variableNamed_cases hm name l
    · rw [bind_ok hnamed]
      obtain ⟨es, hes, helements⟩ | ⟨f, helements⟩ := ofExcept_cases (v.value.elementsOf name) l m
      · rw [bind_ok helements]
        obtain ⟨i, hi, hposition⟩ | ⟨f, hposition⟩ :=
          ofExcept_cases (positionIn name es.length index) l m
        · obtain ⟨u, hu, hrebind⟩ :=
            rebind_of_lookup hm hv (.var { v with value := .array (es.set i new) })
          rw [bind_ok hposition, bind_ok hrebind]
          exact .inl ⟨v, es, i, u, hnew, elementsOf_eq_ok hes, hi, hu, rfl⟩
        · rw [bind_error hposition]
          exact .inr ⟨f, rfl⟩
      · rw [bind_error helements]
        exact .inr ⟨f, rfl⟩
    · rw [bind_error hnamed]
      exact .inr ⟨f, rfl⟩
  · rw [bind_error hstorable]
    exact .inr ⟨f, rfl⟩

/-! ## Functions -/

theorem findCallee_cases (hm : m.WellFormed) (name : String) (arity : Nat) (l : Location) :
    (∃ f body, m.scopes.lookup m.current (.fn name arity) = some (.fn f) ∧ f.body = some body ∧
        findCallee name arity l m = .ok ⟨name, f.params, body⟩ m) ∨
      ∃ f, findCallee name arity l m = .error (.fault f) m := by
  rw [findCallee, bind_ok (resolve_eq hm (.fn name arity))]
  match m.scopes.lookup m.current (.fn name arity) with
  | some (.fn ⟨_, _, some body⟩) => exact .inl ⟨_, body, rfl, rfl, rfl⟩
  | some (.fn ⟨_, _, none⟩) => exact .inr ⟨_, rfl⟩
  | some (.var _) => exact .inr ⟨_, rfl⟩
  | none => exact .inr ⟨_, rfl⟩

/-- A declaration binds a function whose symbol is free, and changes no scope where it is not. -/
theorem runFunDeclaration_cases (hm : m.WellFormed) (name result : String) (ps : List Param)
    (l : Location) :
    (∃ u, m.scopes.Declares m.current (.fn name ps.length) (.fn (.declared result ps)) u ∧
        runFunDeclaration name result ps l m = .ok () { m with scopes := u }) ∨
      ((m.scopes.boundAt m.current (.fn name ps.length)).isSome = true ∧
        runFunDeclaration name result ps l m = .ok () (m.log (.redeclared name ps.length l))) := by
  rw [runFunDeclaration]
  obtain ⟨u, hu, hdeclare⟩ | ⟨hbound, hdeclare⟩ :=
    declare_cases hm (.fn name ps.length) (.fn (.declared result ps))
  · rw [bind_ok hdeclare]
    exact .inl ⟨u, hu, rfl⟩
  · rw [bind_ok hdeclare]
    exact .inr ⟨hbound, rfl⟩

/-- A definition gives a body to the function that the search finds, or changes nothing. -/
theorem runFunDefinition_cases (hm : m.WellFormed) (name : String) (ps : List Param)
    (body : List Stmt) (l : Location) :
    (∃ f g u, f.define ps body = some g ∧
        m.scopes.Rebinds m.current (.fn name ps.length) (.fn f) (.fn g) u ∧
        runFunDefinition name ps body l m = .ok () { m with scopes := u }) ∨
      ∃ f, runFunDefinition name ps body l m = .error (.fault f) m := by
  rw [runFunDefinition, bind_ok (resolve_eq hm (.fn name ps.length))]
  match hf : m.scopes.lookup m.current (.fn name ps.length) with
  | some (.fn f) =>
      dsimp only
      match hg : f.define ps body with
      | some g =>
          obtain ⟨u, hu, hrebind⟩ := rebind_of_lookup hm hf (.fn g)
          exact .inl ⟨f, g, u, hg, hu, hrebind⟩
      | none => exact .inr ⟨_, rfl⟩
  | some (.var _) => exact .inr ⟨_, rfl⟩
  | none => exact .inr ⟨_, rfl⟩

end Exec
end PocketC
