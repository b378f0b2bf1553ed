/-
  PocketC.Proofs.Run.Stores

  What a store does, and what is read after it.  A store finds the variable that its name stands
  for, and either puts something in its place or stops with a fault and changes nothing.  The
  conditions under which it stops are those of its checks, all of which come before the change.
  The search of a read behind it takes the same way, as no scope binds other symbols than before.
-/

import PocketC.Proofs.Run.Changes
import PocketC.Proofs.Run.Restoration

namespace PocketC

open Exec

/-! ## Variables -/

namespace ScopeTree

variable {t u : ScopeTree} {scope i : Nat} {y : Symbol} {b c : Binding}

/-- A search takes the same way after a symbol that was bound was bound anew. -/
theorem Sets.holder (h : t.Sets u i y c) (hb : t.boundAt i y = some b) (scope : Nat) (z : Symbol) :
    u.holder scope z = t.holder scope z := by
  have hbinds : u.bindsAt z = t.bindsAt z := by
    funext j
    rw [bindsAt_eq_isSome, bindsAt_eq_isSome, h.boundAt]
    split
    · rename_i hj
      rw [hj.1, hj.2, hb]
      rfl
    · rfl
  unfold ScopeTree.holder
  rw [hbinds, outward_congr h.parents]

end ScopeTree

namespace Machine

/-- In the scope `i` the search for the name ends, and there it stands for the variable `v`. -/
def Finds (m : Machine) (name : String) (i : Nat) (v : Variable) : Prop :=
  m.scopes.holder m.current (.var name) = some i ∧ m.scopes.boundAt i (.var name) = some (.var v)

/-- The machine `q` is `m` with the variable `v` for the name in the scope `i`, and with every
    other binding as it was. -/
def Puts (m : Machine) (name : String) (i : Nat) (v : Variable) (q : Machine) : Prop :=
  ∃ u, q = { m with scopes := u } ∧ m.scopes.Sets u i (.var name) (.var v)

variable {m q : Machine} {name : String} {i j : Nat} {v w : Variable}

theorem Finds.lookup (h : m.Finds name i v) :
    m.scopes.lookup m.current (.var name) = some (.var v) :=
  ScopeTree.lookup_of_holder h.1 h.2

/-- A search ends in one scope at most. -/
theorem Finds.unique (h : m.Finds name i v) (h' : m.Finds name j w) : v = w := by
  have hlookup := h.lookup.symm.trans h'.lookup
  cases hlookup
  rfl

/-- What was put in place of the variable is found there. -/
theorem Puts.finds (h : m.Puts name i w q) (hv : m.Finds name i v) : q.Finds name i w := by
  obtain ⟨u, rfl, hu⟩ := h
  refine ⟨(hu.holder hv.2 _ _).trans hv.1, ?_⟩
  rw [hu.boundAt, if_pos ⟨rfl, rfl⟩]

theorem Puts.wellFormed (h : m.Puts name i w q) (hm : m.WellFormed) : q.WellFormed := by
  obtain ⟨u, rfl, hu⟩ := h
  exact (Restored.ofScopes m hu.parents).wellFormed hm

end Machine

/-! ## Values -/

namespace Value

/-- The values are arrays, and the new one has no room in the old one. -/
def Overfills (old new : Value) : Prop :=
  ∃ es fs, old = .array es ∧ new = .array fs ∧ es.length < fs.length

/-- The new value, filled up to the length of the old one where both are arrays. -/
def padded : (old new : Value) → Value
  | .array es, .array fs => .array (fs ++ List.replicate (es.length - fs.length) .uninitialized)
  | _, new => new

theorem overfills_array {es fs : List Value} :
    (array es).Overfills (array fs) ↔ es.length < fs.length := by
  refine ⟨?_, fun h => ⟨es, fs, rfl, rfl, h⟩⟩
  rintro ⟨_, _, ⟨⟩, ⟨⟩, h⟩
  exact h

theorem padded_of_other {old new : Value}
    (h : ∀ es fs, old = array es → new = array fs → False) : old.padded new = new := by
  unfold padded
  split
  · exact absurd rfl fun hnew => h _ _ rfl hnew
  · rfl

/-- A value fits a variable where it has room there. -/
theorem fitting_eq_ok_iff {name : String} {old new w : Value} :
    old.fitting name new = .ok w ↔ ¬old.Overfills new ∧ w = old.padded new := by
  unfold fitting
  split
  · rename_i es fs
    rw [overfills_array, Nat.not_lt]
    split
    · rename_i hle
      rw [Except.ok.injEq, eq_comm, and_iff_right hle]
      rfl
    · rename_i hlt
      exact ⟨nofun, fun h => absurd h.1 hlt⟩
  · rename_i hother
    have hroom : ¬old.Overfills new := fun ⟨es, fs, hold, hnew, _⟩ => hother es fs hold hnew
    rw [padded_of_other hother, Except.ok.injEq, eq_comm, and_iff_right hroom]

theorem padded_ne_uninitialized (old : Value) {new : Value} (h : new ≠ .uninitialized) :
    old.padded new ≠ .uninitialized := by
  unfold padded
  split
  · nofun
  · exact h

theorem isAssigned_iff {v : Value} : v.isAssigned = true ↔ v ≠ .uninitialized := by
  cases v <;> simp [isAssigned]

/-- What reading an element of an array gives. -/
def elementAt (name : String) (es : List Value) (j : Int) : Except FaultCause Value :=
  if 0 ≤ j ∧ j < es.length then
    if (es.getD j.toNat .uninitialized).isAssigned then .ok (es.getD j.toNat .uninitialized)
    else .error (.noValueYet (Exec.elementName name j))
  else .error (.outOfBounds name j es.length)

/-- Setting an element matters to the reads of that element alone. -/
theorem elementAt_set (name : String) {es : List Value} {index : Int} (hlo : 0 ≤ index)
    (hhi : index < es.length) {new : Value} (hnew : new ≠ .uninitialized) (j : Int) :
    elementAt name (es.set index.toNat new) j =
      if j = index then .ok new else elementAt name es j := by
  unfold elementAt
  rw [List.length_set]
  split
  · rename_i hj
    rw [List.getD_eq_getElem?_getD, List.getD_eq_getElem?_getD, List.getElem?_set]
    by_cases hindex : j = index
    · have hlt : index.toNat < es.length := by omega
      rw [if_pos hindex, hindex, if_pos rfl, if_pos hlt, Option.getD_some,
        if_pos (isAssigned_iff.mpr hnew)]
    · have hne : index.toNat ≠ j.toNat := by omega
      rw [if_neg hindex, if_neg hne]
  · have hindex : j ≠ index := by omega
    rw [if_neg hindex]

end Value

/-! ## Reading -/

namespace Exec

variable {m q : Machine} {name : String} {i : Nat} {v : Variable} {l : Location} {new w : Value}
  {index : Int} {es : List Value}

theorem variableNamed_of_finds (hm : m.WellFormed) (h : m.Finds name i v) (l : Location) :
    variableNamed name l m = .ok v m := by
  rw [variableNamed, bind_ok (resolve_eq hm (.var name)), h.lookup]
  rfl

theorem load_of_finds (hm : m.WellFormed) (h : m.Finds name i v) (hv : v.value ≠ .uninitialized)
    (l : Location) : load name l m = .ok v.value m := by
  rw [load, bind_ok (variableNamed_of_finds hm h l), if_pos (Value.isAssigned_iff.mpr hv)]
  rfl

theorem loadElement_of_finds (hm : m.WellFormed) (h : m.Finds name i v)
    (hes : v.value = .array es) (j : Int) (l : Location) :
    loadElement name j l m = ofExcept (Value.elementAt name es j) l m := by
  rw [loadElement, bind_ok (variableNamed_of_finds hm h l), hes]
  refine (bind_ok rfl).trans ?_
  unfold positionIn Value.elementAt
  split
  · refine (bind_ok rfl).trans ?_
    split <;> rfl
  · exact bind_error rfl

/-! ## Storing -/

theorem checkStorable_of_ne (h : new ≠ .void) (l : Location) (m : Machine) :
    checkStorable new l m = .ok () m := by
  cases new with
  | void => exact absurd rfl h
  | _ => rfl

/-- A value that may be stored is stored in a variable that has room for it. -/
theorem store_of_finds (hm : m.WellFormed) (h : m.Finds name i v) (hnew : new ≠ .void)
    (hroom : ¬v.value.Overfills new) (l : Location) :
    ∃ q, store name new l m = .ok (v.value.padded new) q := by
  have hfits : v.value.fitting name new = .ok (v.value.padded new) :=
    Value.fitting_eq_ok_iff.mpr ⟨hroom, rfl⟩
  obtain ⟨u, _, hrebind⟩ :=
    rebind_of_lookup hm h.lookup (.var { v with value := v.value.padded new })
  rw [store, bind_ok (checkStorable_of_ne hnew l m), bind_ok (variableNamed_of_finds hm h l), hfits]
  exact ⟨_, (bind_ok rfl).trans (bind_ok hrebind)⟩

theorem store_eq_ok (hm : m.WellFormed) (h : store name new l m = .ok w q) :
    ∃ i v, new ≠ .void ∧ m.Finds name i v ∧ ¬v.value.Overfills new ∧ w = v.value.padded new ∧
      m.Puts name i { v with value := w } q := by
  obtain ⟨v, w', u, hnew, hfits, ⟨i, hi, hb, hu⟩, hok⟩ | ⟨f, hfault⟩ := store_cases hm name new l
  · rw [hok] at h
    cases h
    obtain ⟨hroom, hw⟩ := Value.fitting_eq_ok_iff.mp hfits
    exact ⟨i, v, hnew, ⟨hi, hb⟩, hroom, hw, u, rfl, hu⟩
  · rw [hfault] at h
    cases h

/-- A store that stops is a fault and changes nothing. -/
theorem store_eq_error (hm : m.WellFormed) {stop : Stop} (h : store name new l m = .error stop q) :
    q = m ∧ ∃ f, stop = .fault f := by
  obtain ⟨_, _, _, _, _, _, hok⟩ | ⟨f, hfault⟩ := store_cases hm name new l
  · rw [hok] at h
    cases h
  · rw [hfault] at h
    cases h
    exact ⟨rfl, f, rfl⟩

/-- A value that may be stored is stored in every element that there is. -/
theorem assignElement_of_finds (hm : m.WellFormed) (h : m.Finds name i v) (hnew : new ≠ .void)
    (hes : v.value = .array es) (hlo : 0 ≤ index) (hhi : index < es.length) (l : Location) :
    ∃ q, assignElement name index new l m = .ok new q := by
  have hposition : positionIn name es.length index = .ok index.toNat := if_pos ⟨hlo, hhi⟩
  obtain ⟨u, _, hrebind⟩ :=
    rebind_of_lookup hm h.lookup (.var { v with value := .array (es.set index.toNat new) })
  rw [assignElement, bind_ok (checkStorable_of_ne hnew l m),
    bind_ok (variableNamed_of_finds hm h l), hes]
  refine ⟨{ m with scopes := u }, (bind_ok rfl).trans ?_⟩
  rw [hposition]
  exact (bind_ok rfl).trans (bind_ok hrebind)

theorem assignElement_eq_ok (hm : m.WellFormed) (h : assignElement name index new l m = .ok w q) :
    ∃ i v es, new ≠ .void ∧ m.Finds name i v ∧ v.value = .array es ∧ 0 ≤ index ∧
      index < es.length ∧ w = new ∧
      m.Puts name i { v with value := .array (es.set index.toNat new) } q := by
  obtain ⟨v, es, k, u, hnew, hes, hk, ⟨i, hi, hb, hu⟩, hok⟩ | ⟨f, hfault⟩ :=
    assignElement_cases hm name index new l
  · rw [hok] at h
    cases h
    unfold positionIn at hk
    split at hk
    · rename_i hindex
      cases hk
      exact ⟨i, v, es, hnew, ⟨hi, hb⟩, hes, hindex.1, hindex.2, rfl, u, rfl, hu⟩
    · cases hk
  · rw [hfault] at h
    cases h

theorem assignElement_eq_error (hm : m.WellFormed) {stop : Stop}
    (h : assignElement name index new l m = .error stop q) : q = m ∧ ∃ f, stop = .fault f := by
  obtain ⟨_, _, _, _, _, _, _, _, hok⟩ | ⟨f, hfault⟩ := assignElement_cases hm name index new l
  · rw [hok] at h
    cases h
  · rw [hfault] at h
    cases h
    exact ⟨rfl, f, rfl⟩

/-- An element that is read after one was stored. -/
theorem loadElement_of_puts (hm : m.WellFormed) (h : m.Finds name i v) (hes : v.value = .array es)
    (hlo : 0 ≤ index) (hhi : index < es.length) (hnew : new ≠ .uninitialized)
    (hq : m.Puts name i { v with value := .array (es.set index.toNat new) } q) (j : Int)
    (l : Location) :
    outcome (loadElement name j l q) =
      if j = index then .ok new else outcome (loadElement name j l m) := by
  rw [loadElement_of_finds (hq.wellFormed hm) (hq.finds h) rfl, loadElement_of_finds hm h hes,
    Value.elementAt_set name hlo hhi hnew]
  split
  · rfl
  · cases Value.elementAt name es j <;> rfl

end Exec

/-- Stores are exact, and they are done as a whole or not at all.  A store in a variable fails just
    where there is nothing to store, no variable of the name, or an array in the variable that is
    shorter than the one to be stored; a store in an element succeeds just where there is a value
    and the variable holds an array with an element of the index.  A store that fails is a fault
    and changes nothing.  One that succeeds puts the value in the place of the variable that the
    search finds, or of the element there, and changes no other binding, no other element and not
    the length of an array.  The value is what the store gives and what is read behind it. -/
theorem stores_exact {m : Machine} (hm : m.WellFormed) (name : String) {new : Value}
    (hnew : new ≠ .uninitialized) (l : Location) :
    (∀ stop q, store name new l m = .error stop q → q = m ∧ ∃ f, stop = .fault f) ∧
    ((∃ stop q, store name new l m = .error stop q) ↔
      new = .void ∨ (∀ i v, ¬m.Finds name i v) ∨
        ∃ i v, m.Finds name i v ∧ v.value.Overfills new) ∧
    (∀ w q, store name new l m = .ok w q → ∃ i v, m.Finds name i v ∧ w = v.value.padded new ∧
      m.Puts name i { v with value := w } q ∧ ∀ l', load name l' q = .ok w q) ∧
    ∀ index : Int,
      (∀ stop q, assignElement name index new l m = .error stop q →
        q = m ∧ ∃ f, stop = .fault f) ∧
      ((∃ w q, assignElement name index new l m = .ok w q) ↔
        new ≠ .void ∧ ∃ i v es, m.Finds name i v ∧ v.value = .array es ∧
          0 ≤ index ∧ index < es.length) ∧
      ∀ w q, assignElement name index new l m = .ok w q → w = new ∧
        ∃ i v es, m.Finds name i v ∧ v.value = .array es ∧
          m.Puts name i { v with value := .array (es.set index.toNat new) } q ∧
          ∀ j l', outcome (loadElement name j l' q) =
            if j = index then .ok new else outcome (loadElement name j l' m) := by
  refine ⟨fun _ _ => store_eq_error hm, ⟨?_, ?_⟩, ?_, fun index =>
    ⟨fun _ _ => assignElement_eq_error hm, ⟨?_, ?_⟩, ?_⟩⟩
  · rintro ⟨stop, q, hstops⟩
    by_cases hvoid : new = .void
    · exact .inl hvoid
    by_cases hbound : ∃ i v, m.Finds name i v
    · obtain ⟨i, v, hfinds⟩ := hbound
      by_cases hroom : v.value.Overfills new
      · exact .inr (.inr ⟨i, v, hfinds, hroom⟩)
      · obtain ⟨r, hok⟩ := store_of_finds hm hfinds hvoid hroom l
        rw [hok] at hstops
        cases hstops
    · exact .inr (.inl fun i v hfinds => hbound ⟨i, v, hfinds⟩)
  · intro hfails
    cases hstore : store name new l m with
    | error stop q => exact ⟨stop, q, rfl⟩
    | ok w q =>
        obtain ⟨i, v, hvoid, hfinds, hroom, _⟩ := store_eq_ok hm hstore
        rcases hfails with rfl | hnone | ⟨j, v', hfinds', hover⟩
        · exact absurd rfl hvoid
        · exact absurd hfinds (hnone i v)
        · rw [hfinds'.unique hfinds] at hover
          exact absurd hover hroom
  · intro w q hstore
    obtain ⟨i, v, _, hfinds, _, rfl, hputs⟩ := store_eq_ok hm hstore
    refine ⟨i, v, hfinds, rfl, hputs, fun l' => ?_⟩
    exact load_of_finds (hputs.wellFormed hm) (hputs.finds hfinds)
      (Value.padded_ne_uninitialized v.value hnew) l'
  · rintro ⟨w, q, hassign⟩
    obtain ⟨i, v, es, hvoid, hfinds, hes, hlo, hhi, _⟩ := assignElement_eq_ok hm hassign
    exact ⟨hvoid, i, v, es, hfinds, hes, hlo, hhi⟩
  · rintro ⟨hvoid, i, v, es, hfinds, hes, hlo, hhi⟩
    exact ⟨new, assignElement_of_finds hm hfinds hvoid hes hlo hhi l⟩
  · intro w q hassign
    obtain ⟨i, v, es, _, hfinds, hes, hlo, hhi, rfl, hputs⟩ := assignElement_eq_ok hm hassign
    exact ⟨rfl, i, v, es, hfinds, hes, hputs, loadElement_of_puts hm hfinds hes hlo hhi hnew hputs⟩

/-- In an inner scope a shorter array is stored in a global variable and then an element of it, and
    a longer array is not stored. -/
theorem stores_exact_outer :
    let l := Location.start
    let m (es : List Value) : Machine := { Machine.new (.new none) with
      scopes := ⟨[⟨[(.var "xs", .var ⟨"int[]", .array es⟩)], none⟩,
        ⟨[(.var "n", .var ⟨"int", .int 3⟩)], some 0⟩]⟩
      current := 1 }
    (m [.int 1, .int 2]).WellFormed ∧
      store "xs" (.array [.int 9]) l (m [.int 1, .int 2]) =
        .ok (.array [.int 9, .uninitialized]) (m [.int 9, .uninitialized]) ∧
      load "xs" l (m [.int 9, .uninitialized]) =
        .ok (.array [.int 9, .uninitialized]) (m [.int 9, .uninitialized]) ∧
      assignElement "xs" 1 (.int 7) l (m [.int 9, .uninitialized]) =
        .ok (.int 7) (m [.int 9, .int 7]) ∧
      outcome (loadElement "xs" 0 l (m [.int 9, .int 7])) = .ok (.int 9) ∧
      ∃ stop, store "xs" (.array [.int 1, .int 2, .int 3]) l (m [.int 1, .int 2]) =
        .error stop (m [.int 1, .int 2]) := by
  intro l m
  have hm : ∀ es, (m es).WellFormed := by
    refine fun es => ⟨Nat.one_lt_two, ?_⟩
    intro i q h
    match i with
    | 0 => cases h
    | 1 => cases h; exact Nat.zero_lt_one
    | i + 2 => cases h
  have hfinds : ∀ es, (m es).Finds "xs" 0 ⟨"int[]", .array es⟩ := fun es => ⟨rfl, rfl⟩
  have hshort : Value.array [.int 9] ≠ .uninitialized := nofun
  have hseven : Value.int 7 ≠ .uninitialized := nofun
  have hlong : Value.array [.int 1, .int 2, .int 3] ≠ .uninitialized := nofun
  obtain ⟨_, _, hstored, _⟩ := stores_exact (hm [.int 1, .int 2]) "xs" hshort l
  obtain ⟨_, _, _, _, _, hload⟩ := hstored _ (m [.int 9, .uninitialized]) rfl
  obtain ⟨_, _, _, helements⟩ := stores_exact (hm [.int 9, .uninitialized]) "xs" hseven l
  obtain ⟨_, _, hassigned⟩ := helements 1
  obtain ⟨_, _, _, _, _, _, _, hread⟩ := hassigned _ (m [.int 9, .int 7]) rfl
  obtain ⟨hunchanged, hfails, _⟩ := stores_exact (hm [.int 1, .int 2]) "xs" hlong l
  obtain ⟨stop, q, hstop⟩ := hfails.mpr (.inr (.inr ⟨0, _, hfinds _, _, _, rfl, rfl, by decide⟩))
  obtain ⟨rfl, _⟩ := hunchanged stop q hstop
  exact ⟨hm _, rfl, hload l, rfl, (hread 0 l).trans rfl, stop, hstop⟩

end PocketC
