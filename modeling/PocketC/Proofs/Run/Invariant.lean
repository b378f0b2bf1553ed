/-
  PocketC.Proofs.Run.Invariant

  Statements about every machine of a run.  An `Invariant` has a rule for each way in which
  a part of the run changes its machine by itself: by a store or a declaration, by opening
  or closing a scope.  A rule may use that the part is one of that run.  From the rules it
  follows here that reading and changing names, and running a body in a scope of its own,
  carry the statement on; `PocketC.Proofs.Run.Moments` derives that it always holds.

  With the statement goes one about values: it holds of those that expressions give, so
  that it may be used of those that are stored, declared and passed.  Another one goes with
  it about what the parts of the run do, which each part hands on to those that it begins.
-/

import PocketC.Proofs.Run.Changes
import PocketC.Proofs.Run.Parts
import PocketC.Proofs.Run.Restoration

namespace PocketC

open Exec

/-! ## Changes beside the scopes -/

/-- The machine `q` is `m` with something recorded or printed, or with one more or one less call in
    progress. -/
inductive Machine.Quiet (limits : Limits) (m : Machine) : Machine → Prop where
  | log {e : Event} : e.aboutScope = false → Quiet limits m (m.log e)
  | print (text : String) (l : Location) : Quiet limits m
      { m.log (.printed text l) with transcript := m.transcript.print text l }
  | called (callee : Callee) (args : List Value) (l : Location) : m.activeCalls < limits.calls →
      Quiet limits m (m.called callee args l)
  | returned : Quiet limits m { m with activeCalls := m.activeCalls - 1 }

theorem Machine.Quiet.scopes {limits : Limits} {m q : Machine} (h : m.Quiet limits q) :
    q.scopes = m.scopes := by
  cases h <;> rfl

theorem Machine.Quiet.current {limits : Limits} {m q : Machine} (h : m.Quiet limits q) :
    q.current = m.current := by
  cases h <;> rfl

/-! ## Rules -/

/-- What a variable may be declared to hold: nothing yet, an array within the limit whose
    elements hold nothing yet, or a value of which `Val` holds. -/
def Value.Declarable (limits : Limits) (Val : Value → Prop) (v : Value) : Prop :=
  v = .uninitialized ∨ (∃ n ≤ limits.elements, v = .array (List.replicate n .uninitialized)) ∨
    Val v

/-- A statement about the machines of the run that the part `root` is, and one about values,
    with the rules from which they hold at every moment. -/
structure Invariant (limits : Limits) (root : Part) where
  Holds : Machine → Prop
  -- values, of which many statements ask nothing
  Val : Value → Prop := fun _ => True
  int (n : Int) : Val (.int n) := by intros; trivial
  char (c : Char) : Val (.char c) := by intros; trivial
  string (s : String) : Val (.string s) := by intros; trivial
  void : Val .void := by trivial
  array {fuel : Nat} {es : List Expr} {l : Location} {m : Machine} {vs : List Value} :
    Part.Within limits root ⟨fuel, .eval (.array es l), m⟩ → vs.length = es.length →
    (∀ v ∈ vs, Val v ∧ v ≠ .void) → Val (.array vs) := by
      intros; trivial
  read {m : Machine} {name : String} {v : Variable} : Holds m →
    m.scopes.lookup m.current (.var name) = some (.var v) → v.value.isAssigned = true →
    Val v.value := by
      intros; trivial
  readElement {m : Machine} {name : String} {v : Variable} {es : List Value} {e : Value} :
    Holds m → m.scopes.lookup m.current (.var name) = some (.var v) → v.value = .array es →
    e ∈ es → e.isAssigned = true → Val e := by
      intros; trivial
  -- what the parts do, of which most statements ask nothing
  Does : Task → Prop := fun _ => True
  begins {p r : Part} : Part.Begins limits p r → p.start.WellFormed → Holds p.start →
    Does p.task → Does r.task := by
      intros; trivial
  -- variables
  store {fuel : Nat} {name : String} {new : Value} {l : Location} {m : Machine} {v : Variable}
    {w : Value} {u : ScopeTree} : Part.Within limits root ⟨fuel, .store name new l, m⟩ →
    m.WellFormed → Holds m → Val new → new ≠ .void → v.value.fitting name new = .ok w →
    m.scopes.Rebinds m.current (.var name) (.var v) (.var { v with value := w }) u →
    Holds { m with scopes := u } ∧ Val w
  assignElement {fuel : Nat} {name : String} {index : Int} {new : Value} {l : Location}
    {m : Machine} {v : Variable} {es : List Value} {i : Nat} {u : ScopeTree} :
    Part.Within limits root ⟨fuel, .assignElement name index new l, m⟩ →
    m.WellFormed → Holds m → Val new → new ≠ .void → v.value = .array es → i < es.length →
    m.scopes.Rebinds m.current (.var name) (.var v)
      (.var { v with value := .array (es.set i new) }) u →
    Holds { m with scopes := u }
  declareVar {fuel : Nat} {name : String} {v : Variable} {l : Location} {m : Machine}
    {u : ScopeTree} : Part.Within limits root ⟨fuel, .declareVar name v l, m⟩ →
    m.WellFormed → Holds m → v.value.Declarable limits Val →
    m.scopes.Declares m.current (.var name) (.var v) u → Holds { m with scopes := u }
  -- functions
  declareFun {fuel : Nat} {name result : String} {ps : List Param} {l : Location} {m : Machine}
    {u : ScopeTree} : Part.Within limits root ⟨fuel, .declareFun name result ps l, m⟩ →
    m.WellFormed → Holds m →
    m.scopes.Declares m.current (.fn name ps.length) (.fn (.declared result ps)) u →
    Holds { m with scopes := u }
  defineFun {fuel : Nat} {name : String} {ps : List Param} {body : List Stmt} {l : Location}
    {m : Machine} {f g : Function} {u : ScopeTree} :
    Part.Within limits root ⟨fuel, .defineFun name ps body l, m⟩ →
    Does (.defineFun name ps body l) → m.WellFormed → Holds m → f.define ps body = some g →
    m.scopes.Rebinds m.current (.fn name ps.length) (.fn f) (.fn g) u →
    Holds { m with scopes := u }
  -- scopes, calls and output
  opens {fuel : Nat} {task : Task} {m : Machine} {parent : Nat} :
    Part.Within limits root ⟨fuel, task, m.opened parent⟩ → m.WellFormed → Holds m →
    parent = m.current ∨ parent = ScopeTree.global → Holds (m.opened parent)
  closes {m q : Machine} {rest : ScopeTree} : m.WellFormed → Holds m → Holds q →
    q.scopes.close m.scopes.size = some rest → rest.parents = m.scopes.parents →
    Holds (q.closed rest m.scopes.size m.current)
  quiet {m q : Machine} : m.Quiet limits q → Holds m → Holds q

namespace Invariant

variable {limits : Limits} {root : Part} (L : Invariant limits root) {α β : Type}

/-! ## What the rules carry -/

/-- The statement holds of a well-formed machine. -/
structure Good (m : Machine) : Prop where
  wellFormed : m.WellFormed
  holds : L.Holds m

/-- The statement about values holds of those that a part is given. -/
def Fits : Task → Prop
  | .store _ new _ => L.Val new
  | .assignElement _ _ new _ => L.Val new
  | .enter _ args _ => ∀ v ∈ args, L.Val v
  | .pass _ args _ => ∀ v ∈ args, L.Val v
  | .declareVar _ v _ => v.value.Declarable limits L.Val
  | _ => True

/-- A statement about all values holds of those that any part is given. -/
theorem fits_of_forall (h : ∀ v, L.Val v) (t : Task) : L.Fits t := by
  cases t with
  | store _ new _ => exact h new
  | assignElement _ _ new _ => exact h new
  | enter _ args _ => exact fun v _ => h v
  | pass _ args _ => exact fun v _ => h v
  | declareVar _ v _ => exact .inr (.inr (h v.value))
  | _ => trivial

/-- A part of the run that begins on a machine where the statement holds. -/
structure At (p : Part) : Prop extends L.Good p.start where
  within : Part.Within limits root p
  fits : L.Fits p.task
  does : L.Does p.task

/-- The run itself, for a statement that asks nothing of values. -/
theorem at_root (h : ∀ v, L.Val v) (hm : root.start.WellFormed) (hholds : L.Holds root.start)
    (hdoes : L.Does root.task := by trivial) : L.At root where
  wellFormed := hm
  holds := hholds
  within := .refl root
  fits := L.fits_of_forall h root.task
  does := hdoes

/-- A run of a program on a machine with nothing bound. -/
theorem at_ofProgram {fuel : Nat} {p : Program} {m : Machine}
    (L : Invariant limits (.ofProgram fuel p m)) (hholds : L.Holds m.reset)
    (hdoes : L.Does (.program p) := by trivial) : L.At (.ofProgram fuel p m) where
  wellFormed := Machine.wellFormed_reset m
  holds := hholds
  within := .refl _
  fits := trivial
  does := hdoes

/-- Run on `m`, something is tidy and ends where the statement holds, and `Q` holds of its
    result. -/
structure Carried (m : Machine) (Q : α → Prop) (r : EStateM.Result Stop Machine α) : Prop where
  tidy : Tidy m r
  holds : L.Holds (final r)
  result : ∀ a q, r = .ok a q → Q a

variable {L} {m q : Machine} {Q : α → Prop}

theorem At.begins {p r : Part} (h : L.At p) (hb : Part.Begins limits p r) (hr : L.Good r.start)
    (hfits : L.Fits r.task) : L.At r where
  toGood := hr
  within := h.within.begins hb
  fits := hfits
  does := L.begins hb h.wellFormed h.holds h.does

theorem Good.log (h : L.Good m) {e : Event} (he : e.aboutScope = false) : L.Good (m.log e) :=
  ⟨h.wellFormed.log e, L.quiet (.log he) h.holds⟩

theorem Good.called (h : L.Good m) (callee : Callee) (args : List Value) (l : Location)
    (hdepth : m.activeCalls < limits.calls) : L.Good (m.called callee args l) :=
  ⟨h.wellFormed.called callee args l, L.quiet (.called callee args l hdepth) h.holds⟩

/-- A part that begins in a scope opened for it, inside the current or the global one. -/
theorem At.opens {p : Part} (h : L.At p) {fuel : Nat} {task : Task} {parent : Nat}
    (hb : Part.Begins limits p ⟨fuel, task, m.opened parent⟩) (hm : L.Good m)
    (hp : parent = m.current ∨ parent = ScopeTree.global) (hfits : L.Fits task) :
    L.At ⟨fuel, task, m.opened parent⟩ := by
  refine h.begins hb ⟨?_, L.opens (h.within.begins hb) hm.wellFormed hm.holds hp⟩ hfits
  obtain rfl | rfl := hp
  · exact hm.wellFormed.opened hm.wellFormed.current_live
  · exact hm.wellFormed.opened hm.wellFormed.global_live

theorem Carried.good {r : EStateM.Result Stop Machine α} (h : L.Carried m Q r)
    (hm : m.WellFormed) {a : α} (hr : r = .ok a q) : L.Good q ∧ Q a := by
  have hQ := h.result a q hr
  subst hr
  exact ⟨⟨h.tidy.wellFormed hm, h.holds⟩, hQ⟩

theorem Good.pure (h : L.Good m) {a : α} (ha : Q a) : L.Carried m Q ((pure a : Exec α) m) where
  tidy := .refl m
  holds := h.holds
  result := by
    rintro _ _ ⟨⟩
    exact ha

theorem Good.fault (h : L.Good m) (f : Fault) : L.Carried m Q (.error (.fault f) m) :=
  ⟨.refl m, h.holds, nofun⟩

theorem Good.outOfFuel (h : L.Good m) : L.Carried m Q ((outOfFuel : Exec α) m) where
  tidy := (Machine.Restored.refl m).unfinished
  holds := h.holds
  result := by
    rintro _ _ ⟨⟩

theorem Good.escaped (h : L.Good m) (j : Jump) (name : String) :
    L.Carried m Q (defect (.jumpEscaped j name) m) :=
  ⟨⟨⟨j, name, rfl⟩, (Machine.Restored.refl m).unfinished⟩, h.holds, nofun⟩

theorem Carried.ofScopes {u : ScopeTree} (hu : u.parents = m.scopes.parents)
    (h : L.Holds { m with scopes := u }) {a : α} (ha : Q a) :
    L.Carried m Q (.ok a { m with scopes := u }) where
  tidy := .ofScopes m hu
  holds := h
  result := by
    rintro _ _ ⟨⟩
    exact ha

theorem Carried.ofLog {e : Event} (he : e.aboutScope = false)
    {r : EStateM.Result Stop Machine α} (h : L.Carried (m.log e) Q r) : L.Carried m Q r :=
  ⟨Tidy.trans (.ofLog m (Event.balanced_singleton he)) h.tidy, h.holds, h.result⟩

theorem Carried.bind {x : Exec α} {f : α → Exec β} {R : β → Prop} (hx : L.Carried m Q (x m))
    (hm : m.WellFormed)
    (hf : ∀ a q, x m = .ok a q → L.Good q → Q a → L.Carried q R (f a q)) :
    L.Carried m R ((x >>= f) m) := by
  cases hxm : x m with
  | ok a q =>
      obtain ⟨hq, ha⟩ := hx.good hm hxm
      have hnext := hf a q hxm hq ha
      have htidy := hx.tidy
      rw [hxm] at htidy
      rw [bind_ok hxm]
      exact ⟨hnext.tidy.trans htidy, hnext.holds, hnext.result⟩
  | error stop q =>
      rw [hxm] at hx
      rw [bind_error hxm]
      refine ⟨?_, hx.holds, nofun⟩
      match stop with
      | .fault _ => exact hx.tidy
      | .defect _ => exact hx.tidy
      | .outOfFuel => exact hx.tidy

theorem Good.ofExcept (h : L.Good m) {r : Except FaultCause α} {l : Location}
    (hr : ∀ a, r = .ok a → Q a) : L.Carried m Q (ofExcept r l m) := by
  obtain ⟨a, ha, hok⟩ | ⟨f, hfault⟩ := ofExcept_cases r l m
  · rw [hok]
    exact h.pure (hr a ha)
  · rw [hfault]
    exact h.fault f

/-! ## Scopes and calls -/

/-- A body that is run in a new scope, which stands inside the current or the global one. -/
theorem Good.inNewScope (h : L.Good m) {parent : Nat}
    (hp : parent = m.current ∨ parent = ScopeTree.global) {body : Exec α}
    (hbody : L.Carried (m.opened parent) Q (body (m.opened parent))) :
    L.Carried m Q (inNewScope parent body m) := by
  have hlive : parent < m.scopes.size := by
    obtain rfl | rfl := hp
    · exact h.wellFormed.current_live
    · exact h.wellFormed.global_live
  obtain ⟨htidy, hgives⟩ := hbody.tidy.inNewScope h.wellFormed hlive
  refine ⟨htidy, ?_, ?_⟩
  · -- What the body restored closes the scope that was opened for it.
    have hclosed : ∀ q, (m.opened parent).Restored q → L.Holds q → ∃ rest,
        q.scopes.close m.scopes.size = some rest ∧
          L.Holds (q.closed rest m.scopes.size m.current) := by
      intro q hq hholds
      obtain ⟨rest, hclose, hrest⟩ := hq.ofOpened h.wellFormed
      exact ⟨rest, hclose, L.closes h.wellFormed h.holds hholds hclose hrest.parents⟩
    have hend := hbody.tidy
    have hholds := hbody.holds
    rw [inNewScope_eq h.wellFormed hlive]
    cases hbodym : body (m.opened parent) with
    | ok a q =>
        rw [hbodym] at hend hholds
        obtain ⟨rest, hclose, hrest⟩ := hclosed q hend hholds
        rw [afterwards_ok hbodym (closeScope_eq hclose)]
        exact hrest
    | error stop q =>
        rw [hbodym] at hend hholds
        match stop with
        | .fault f =>
            obtain ⟨rest, hclose, hrest⟩ := hclosed q hend hholds
            rw [afterwards_fault hbodym (closeScope_eq hclose)]
            exact hrest
        | .defect d =>
            rw [afterwards_defect hbodym]
            exact hholds
        | .outOfFuel =>
            rw [afterwards_outOfFuel hbodym]
            exact hholds
  · intro a q hq
    obtain ⟨r, hr⟩ := hgives a q hq
    exact hbody.result a r hr

theorem Good.inInnerScope (h : L.Good m) {body : Exec α}
    (hbody : L.Carried (m.opened m.current) Q (body (m.opened m.current))) :
    L.Carried m Q (inInnerScope body m) := by
  rw [inInnerScope_eq h.wellFormed]
  exact h.inNewScope (.inl rfl) hbody

theorem Carried.inCall {body : Exec α}
    (hbody : L.Carried { m with activeCalls := m.activeCalls + 1 } Q
      (body { m with activeCalls := m.activeCalls + 1 })) :
    L.Carried m Q (inCall body m) := by
  obtain ⟨htidy, hgives⟩ := hbody.tidy.inCall
  refine ⟨htidy, ?_, ?_⟩
  · have hholds := hbody.holds
    rw [inCall_eq]
    cases hbodym : body { m with activeCalls := m.activeCalls + 1 } with
    | ok a q =>
        rw [hbodym] at hholds
        rw [afterwards_ok hbodym (modify_eq _)]
        exact L.quiet .returned hholds
    | error stop q =>
        rw [hbodym] at hholds
        match stop with
        | .fault f =>
            rw [afterwards_fault hbodym (modify_eq _)]
            exact L.quiet .returned hholds
        | .defect d =>
            rw [afterwards_defect hbodym]
            exact hholds
        | .outOfFuel =>
            rw [afterwards_outOfFuel hbodym]
            exact hholds
  · intro a q hq
    obtain ⟨r, hr⟩ := hgives a q hq
    exact hbody.result a r hr

/-! ## Names -/

section
variable {fuel : Nat} {l : Location}

theorem Good.load (h : L.Good m) (name : String) (l : Location) :
    L.Carried m L.Val (load name l m) := by
  obtain ⟨v, hv, hassigned, hload⟩ | ⟨f, hload⟩ := load_cases h.wellFormed name l
  · rw [hload]
    exact h.pure (L.read h.holds hv hassigned)
  · rw [hload]
    exact h.fault f

theorem Good.loadElement (h : L.Good m) (name : String) (index : Int) (l : Location) :
    L.Carried m L.Val (loadElement name index l m) := by
  obtain ⟨v, es, e, hv, hes, he, hassigned, hload⟩ | ⟨f, hload⟩ :=
    loadElement_cases h.wellFormed name index l
  · rw [hload]
    exact h.pure (L.readElement h.holds hv hes he hassigned)
  · rw [hload]
    exact h.fault f

theorem Good.findCallee (h : L.Good m) (name : String) (arity : Nat) (l : Location) :
    L.Carried m (fun _ => True) (findCallee name arity l m) := by
  obtain ⟨f, body, _, _, hfind⟩ | ⟨f, hfind⟩ := findCallee_cases h.wellFormed name arity l
  · rw [hfind]
    exact h.pure trivial
  · rw [hfind]
    exact h.fault f

theorem Good.checkStorable (h : L.Good m) (v : Value) (l : Location) :
    L.Carried m (fun _ => v ≠ .void) (checkStorable v l m) := by
  obtain ⟨hv, hok⟩ | ⟨f, hfault⟩ := checkStorable_cases v l m
  · rw [hok]
    exact h.pure hv
  · rw [hfault]
    exact h.fault f

theorem At.store {name : String} {new : Value} (h : L.At ⟨fuel, .store name new l, m⟩) :
    L.Carried m L.Val (Exec.store name new l m) := by
  obtain ⟨v, w, u, hnew, hw, hu, hstore⟩ | ⟨f, hstore⟩ := store_cases h.wellFormed name new l
  · obtain ⟨hholds, hval⟩ := L.store h.within h.wellFormed h.holds h.fits hnew hw hu
    rw [hstore]
    exact .ofScopes hu.parents hholds hval
  · rw [hstore]
    exact h.toGood.fault f

theorem At.assignElement {name : String} {index : Int} {new : Value}
    (h : L.At ⟨fuel, .assignElement name index new l, m⟩) :
    L.Carried m L.Val (Exec.assignElement name index new l m) := by
  obtain ⟨v, es, i, u, hnew, hes, hi, hu, hassign⟩ | ⟨f, hassign⟩ :=
    assignElement_cases h.wellFormed name index new l
  · have hlt := positionIn_lt hi
    have hholds := L.assignElement h.within h.wellFormed h.holds h.fits hnew hes hlt hu
    rw [hassign]
    exact .ofScopes hu.parents hholds h.fits
  · rw [hassign]
    exact h.toGood.fault f

theorem At.declareVar {name : String} {v : Variable}
    (h : L.At ⟨fuel, .declareVar name v l, m⟩) :
    L.Carried m (fun _ => True) (declareVariable name v l m) := by
  obtain ⟨u, hu, hdeclare⟩ | ⟨_, hdeclare⟩ := declareVariable_cases h.wellFormed name v l
  · have hholds := L.declareVar h.within h.wellFormed h.holds h.fits hu
    rw [hdeclare]
    exact .ofScopes hu.parents hholds trivial
  · rw [hdeclare]
    exact h.toGood.fault _

theorem At.declareFun {name result : String} {ps : List Param}
    (h : L.At ⟨fuel, .declareFun name result ps l, m⟩) :
    L.Carried m (fun _ => True) (runFunDeclaration name result ps l m) := by
  obtain ⟨u, hu, hdeclare⟩ | ⟨_, hdeclare⟩ :=
    runFunDeclaration_cases h.wellFormed name result ps l
  · have hholds := L.declareFun h.within h.wellFormed h.holds hu
    rw [hdeclare]
    exact .ofScopes hu.parents hholds trivial
  · rw [hdeclare]
    refine ⟨.ofLog m rfl, (h.toGood.log rfl).holds, ?_⟩
    exact fun _ _ _ => trivial

theorem At.defineFun {name : String} {ps : List Param} {body : List Stmt}
    (h : L.At ⟨fuel, .defineFun name ps body l, m⟩) :
    L.Carried m (fun _ => True) (runFunDefinition name ps body l m) := by
  obtain ⟨f, g, u, hg, hu, hdefine⟩ | ⟨f, hdefine⟩ :=
    runFunDefinition_cases h.wellFormed name ps body l
  · have hholds := L.defineFun h.within h.does h.wellFormed h.holds hg hu
    rw [hdefine]
    exact .ofScopes hu.parents hholds trivial
  · rw [hdefine]
    exact h.toGood.fault f

end

end Invariant
end PocketC
