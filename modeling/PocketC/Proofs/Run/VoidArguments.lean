/-
  PocketC.Proofs.Run.VoidArguments

  Where what a call does not return is stored.  Assignments, stores in elements and array
  literals refuse Void, so no array ever holds it, at any depth.  Only the passing of
  arguments takes it: a variable that holds Void is a parameter that was given it.
-/

import PocketC.Proofs.Run.Moments

namespace PocketC

open Exec

/-! ## Void inside of values -/

/-- The value is Void, or an array that holds Void at some depth. -/
inductive Value.HoldsVoid : Value → Prop where
  | void : HoldsVoid .void
  | element {v : Value} {es : List Value} : v ∈ es → HoldsVoid v → HoldsVoid (.array es)

namespace Value

theorem holdsVoid_array {es : List Value} :
    (Value.array es).HoldsVoid ↔ ∃ v ∈ es, v.HoldsVoid := by
  constructor
  · intro h
    cases h with
    | element hv h => exact ⟨_, hv, h⟩
  · rintro ⟨v, hv, h⟩
    exact .element hv h

theorem not_holdsVoid_uninitialized : ¬uninitialized.HoldsVoid := nofun

theorem not_holdsVoid_replicate (n : Nat) :
    ¬(Value.array (List.replicate n uninitialized)).HoldsVoid := by
  rw [holdsVoid_array]
  rintro ⟨v, hv, h⟩
  rw [List.eq_of_mem_replicate hv] at h
  exact not_holdsVoid_uninitialized h

/-- What a variable holds after a store that fits is free of Void if what was stored is. -/
theorem not_holdsVoid_of_fitting {name : String} {old new w : Value}
    (h : old.fitting name new = .ok w) (hnew : ¬new.HoldsVoid) : ¬w.HoldsVoid := by
  unfold fitting at h
  split at h
  · split at h
    · cases h
      rw [holdsVoid_array] at hnew ⊢
      rintro ⟨v, hv, hvoid⟩
      rcases List.mem_append.mp hv with hv | hv
      · exact hnew ⟨v, hv, hvoid⟩
      · rw [List.eq_of_mem_replicate hv] at hvoid
        exact not_holdsVoid_uninitialized hvoid
    · cases h
  · cases h
    exact hnew

theorem not_holdsVoid_set {es : List Value} {new : Value} (i : Nat)
    (hes : ¬(Value.array es).HoldsVoid) (hnew : ¬new.HoldsVoid) :
    ¬(Value.array (es.set i new)).HoldsVoid := by
  rw [holdsVoid_array] at hes ⊢
  rintro ⟨v, hv, hvoid⟩
  rcases List.mem_or_eq_of_mem_set hv with hv | rfl
  · exact hes ⟨v, hv, hvoid⟩
  · exact hnew hvoid

/-- The value is Void itself, or free of it. -/
def VoidOrFree (v : Value) : Prop := v = .void ∨ ¬v.HoldsVoid

theorem VoidOrFree.free {v : Value} (h : v.VoidOrFree) (hv : v ≠ .void) : ¬v.HoldsVoid :=
  h.resolve_left hv

theorem VoidOrFree.array {vs : List Value} (h : ∀ v ∈ vs, v.VoidOrFree ∧ v ≠ .void) :
    (Value.array vs).VoidOrFree := by
  right
  rw [holdsVoid_array]
  rintro ⟨v, hv, hvoid⟩
  exact (h v hv).1.free (h v hv).2 hvoid

end Value

/-! ## Parameters that are given Void -/

namespace Part

variable {limits : Limits} {root : Part}

/-- A call of the run, whose scope has the index `i`, was given Void for the parameter `name`. -/
def GivesVoid (limits : Limits) (root : Part) (i : Nat) (name : String) : Prop :=
  ∃ fuel callee vs l m, Within limits root ⟨fuel, .enter callee vs l, m⟩ ∧ m.scopes.size = i ∧
    ∃ p, (p, Value.void) ∈ callee.params.zip vs ∧ p.name = name

/-- Arguments are passed in the scope of a call, which is given all of them. -/
theorem enter_of_pass {program : Program} (hroot : root.task = .program program)
    (hm : root.start.WellFormed) {fuel : Nat} {ps : List Param} {vs : List Value} {l : Location}
    {m : Machine} (h : Within limits root ⟨fuel, .pass ps vs l, m⟩) :
    ∃ fuel callee args q, Within limits root ⟨fuel, .enter callee args l, q⟩ ∧
      m.current = q.scopes.size ∧ ps.zip vs <:+ callee.params.zip args := by
  generalize hp : (⟨fuel, .pass ps vs l, m⟩ : Part) = p at h
  induction h generalizing ps vs m with
  | refl =>
      have htask := congrArg Part.task hp
      rw [hroot] at htask
      cases htask
  | tail hs hb ih =>
      subst hp
      cases hb with
      | passing => exact ⟨_, _, _, _, hs, rfl, List.suffix_refl _⟩
      | @otherParameters _ p _ v _ _ q _ hdeclare =>
          -- binding a parameter leaves the scope of the call the current one
          obtain ⟨u, _, hok⟩ | ⟨_, herror⟩ :=
            declareVariable_cases (Within.wellFormed hs hm) p.name ⟨p.type, v⟩ l
          · obtain ⟨fuel, callee, args, r, henter, hcurrent, hsuffix⟩ := ih rfl
            rw [hok] at hdeclare
            cases hdeclare
            exact ⟨fuel, callee, args, r, henter, hcurrent, (List.suffix_cons _ _).trans hsuffix⟩
          · rw [herror] at hdeclare
            cases hdeclare

/-- A variable that is declared to hold Void is a parameter that is given it. -/
theorem givesVoid_of_declareVar {program : Program} (hroot : root.task = .program program)
    (hm : root.start.WellFormed) {fuel : Nat} {name : String} {v : Variable} {l : Location}
    {m : Machine} (h : Within limits root ⟨fuel, .declareVar name v l, m⟩)
    (hv : v.value = .void) : GivesVoid limits root m.current name := by
  rcases Relation.ReflTransGen.cases_tail h with hself | ⟨s, hs, hb⟩
  · have htask := congrArg Part.task hself
    rw [hroot] at htask
    cases htask
  · cases hb with
    | newVariable => cases hv
    | newArray _ harray =>
        obtain ⟨n, _, rfl⟩ := newArray_le harray
        cases hv
    | @parameter _ p _ w _ _ _ =>
        obtain ⟨fuel, callee, args, q, henter, hcurrent, hsuffix⟩ := enter_of_pass hroot hm hs
        have hw : w = .void := hv
        subst hw
        exact ⟨fuel, callee, args, l, q, henter, hcurrent.symm, p,
          hsuffix.subset List.mem_cons_self, rfl⟩

end Part

/-! ## The invariant -/

/-- A variable that `name` is bound to in the scope `i` may hold the value. -/
def Part.MayHold (limits : Limits) (root : Part) (i : Nat) (name : String) (v : Value) : Prop :=
  ¬v.HoldsVoid ∨ v = .void ∧ root.GivesVoid limits i name

/-- Every variable holds what it may. -/
def ScopeTree.VoidsGiven (limits : Limits) (root : Part) (t : ScopeTree) : Prop :=
  ∀ i name v, t.boundAt i (.var name) = some (.var v) → root.MayHold limits i name v.value

section
variable {limits : Limits} {root : Part} {t u : ScopeTree} {i : Nat} {y : Symbol} {c : Binding}

theorem Part.MayHold.voidOrFree {name : String} {v : Value} (h : root.MayHold limits i name v) :
    v.VoidOrFree :=
  h.symm.imp And.left id

theorem ScopeTree.VoidsGiven.sets (h : t.VoidsGiven limits root) (hu : t.Sets u i y c)
    (hc : ∀ name v, y = .var name → c = .var v → root.MayHold limits i name v.value) :
    u.VoidsGiven limits root := by
  intro j name v hb
  rw [hu.boundAt] at hb
  split at hb
  · rename_i hj
    obtain ⟨rfl, hy⟩ := hj
    exact hc name v hy.symm (Option.some.inj hb)
  · exact h j name v hb

/-- A variable that is set to hold a value free of Void. -/
theorem ScopeTree.VoidsGiven.free {name type : String} {v : Value} (h : t.VoidsGiven limits root)
    (hu : t.Sets u i (.var name) (.var ⟨type, v⟩)) (hv : ¬v.HoldsVoid) :
    u.VoidsGiven limits root := by
  refine h.sets hu ?_
  rintro _ _ ⟨⟩ ⟨⟩
  exact .inl hv

theorem ScopeTree.VoidsGiven.lookup {scope : Nat} {name : String} {v : Variable}
    (h : t.VoidsGiven limits root) (hv : t.lookup scope (.var name) = some (.var v)) :
    v.value.VoidOrFree := by
  obtain ⟨i, _, hb⟩ := ScopeTree.exists_of_lookup hv
  exact (h i name v hb).voidOrFree

end

namespace Exec

/-- In a run of a program, every variable holds what it may. -/
def voidInvariant (limits : Limits) (root : Part) (program : Program)
    (hroot : root.task = .program program) (hm : root.start.WellFormed) :
    Invariant limits root where
  Holds m := m.scopes.VoidsGiven limits root
  Val := Value.VoidOrFree
  int _ := .inr nofun
  char _ := .inr nofun
  string _ := .inr nofun
  void := .inl rfl
  array _ _ := Value.VoidOrFree.array
  read h hv _ := h.lookup hv
  readElement h hv hes he _ := by
    have hfree := h.lookup hv
    rw [hes] at hfree
    have harray := hfree.free nofun
    rw [Value.holdsVoid_array] at harray
    exact .inr fun hvoid => harray ⟨_, he, hvoid⟩
  store _ _ h hval hnew hfits hu := by
    obtain ⟨i, _, _, hsets⟩ := hu
    have hw := Value.not_holdsVoid_of_fitting hfits (hval.free hnew)
    exact ⟨h.free hsets hw, .inr hw⟩
  assignElement _ _ h hval hnew hes _ hu := by
    obtain ⟨i, _, hb, hsets⟩ := hu
    have hfree := (h i _ _ hb).voidOrFree
    rw [hes] at hfree
    exact h.free hsets (Value.not_holdsVoid_set _ (hfree.free nofun) (hval.free hnew))
  declareVar hp _ h hdeclare hu := by
    refine h.sets hu.2 ?_
    rintro _ v ⟨⟩ ⟨⟩
    -- what was declared without a value, an array without values, a parameter
    rcases hdeclare with hv | ⟨n, _, hv⟩ | hv | hv
    · rw [hv]
      exact .inl Value.not_holdsVoid_uninitialized
    · rw [hv]
      exact .inl (Value.not_holdsVoid_replicate n)
    · exact .inr ⟨hv, Part.givesVoid_of_declareVar hroot hm hp hv⟩
    · exact .inl hv
  declareFun _ _ h hu := h.sets hu.2 nofun
  defineFun _ _ _ h _ hu := by
    obtain ⟨i, _, _, hsets⟩ := hu
    exact h.sets hsets nofun
  opens _ _ h _ i name v hb := h i name v (ScopeTree.boundAt_of_nest hb)
  closes _ _ h hclose _ i name v hb := h i name v (ScopeTree.boundAt_of_close hclose hb)
  quiet hq h := by
    rw [hq.scopes]
    exact h

end Exec

/-- At every moment of every run of a program, what a variable holds is free of Void at any depth,
    or it is Void itself and the variable is a parameter for which the call whose scope it is bound
    in was given Void. -/
theorem void_only_in_parameters (limits : Limits) (fuel : Nat) (p : Program) (m : Machine) :
    let root := Part.ofProgram fuel p m
    ∀ q, root.Moment limits q → ∀ i name v, q.scopes.boundAt i (.var name) = some (.var v) →
      ¬v.value.HoldsVoid ∨ v.value = .void ∧ root.GivesVoid limits i name := by
  intro root q hq
  let L := Exec.voidInvariant limits root p rfl (Machine.wellFormed_reset m)
  have hroot : L.At root := {
    wellFormed := Machine.wellFormed_reset m
    holds := by
      intro i name v hb
      have hbinds : ScopeTree.new.Binds fun _ _ => False := ScopeTree.binds_new
      exact (ScopeTree.binds_iff.mp hbinds i _ _ hb).elim
    within := .refl root
    fits := trivial
    does := trivial }
  exact hroot.moment hq

/-- The parameter of a function that is called with a call that returns nothing holds Void. -/
theorem void_only_in_parameters_argument :
    let l := Location.start
    let one : List Stmt := [.returnValue (some (.int 1 l)) l]
    let main : List Stmt := [.returnValue (some (.call "f" [.call "nothing" [] l] l)) l]
    let p : Program := ⟨[.declareFun "nothing" "void" [] l, .defineFun "nothing" "void" [] [] l,
      .declareFun "f" "int" [⟨"int", "x"⟩] l, .defineFun "f" "int" [⟨"int", "x"⟩] one l,
      .declareFun "main" "int" [] l, .defineFun "main" "int" [] main l]⟩
    let root := Part.ofProgram 3 p (.new (.new none))
    ∃ q, root.Moment .standard q ∧
      q.scopes.boundAt 2 (.var "x") = some (.var ⟨"int", .void⟩) ∧
      root.GivesVoid .standard 2 "x" := by
  intro l one main p root
  let global : Scope := ⟨[(.fn "main" 0, .fn ⟨"int", [], some main⟩),
    (.fn "f" 1, .fn ⟨"int", [⟨"int", "x"⟩], some one⟩),
    (.fn "nothing" 0, .fn ⟨"void", [], some []⟩)], none⟩
  let m (scopes : List Scope) (calls : Nat) : Machine := ⟨⟨scopes⟩, calls, calls, .new, .new none⟩
  let ofMain : Scope := .empty (some 0)
  let ofF : Scope := ⟨[(.var "x", .var ⟨"int", .void⟩)], some 0⟩
  have hmain : Part.Within .standard root ⟨3, .enter ⟨"main", [], main⟩ [] l, m [global] 0⟩ :=
    ((Part.Within.refl root).begins (.main (q := m [global] 0) rfl)).begins (.call rfl rfl)
  have hbody : Part.Within .standard root ⟨2, .runAll main, m [global, ofMain] 1⟩ :=
    hmain.begins (.callBody (by decide) rfl)
  have hf : Part.Within .standard root
      ⟨2, .enter ⟨"f", [⟨"int", "x"⟩], one⟩ [.void] l, m [global, ofMain] 1⟩ :=
    ((hbody.begins .statement).begins .returned).begins (.call rfl rfl)
  have hone : Part.Within .standard root ⟨1, .runAll one, m [global, ofMain, ofF] 2⟩ :=
    hf.begins (.callBody (by decide) rfl)
  have hq : root.Moment .standard (m [global, ofMain, ofF] 2) := ⟨_, hone, .inl rfl⟩
  have hx : (m [global, ofMain, ofF] 2).scopes.boundAt 2 (.var "x") =
      some (.var ⟨"int", .void⟩) := rfl
  have hgiven := void_only_in_parameters .standard 3 p (.new (.new none)) _ hq 2 "x" _ hx
  exact ⟨_, hq, hx, (hgiven.resolve_left fun hfree => hfree .void).2⟩

end PocketC
