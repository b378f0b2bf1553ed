/-
  PocketC.Proofs.Run.Isolation

  A call sees nothing of its caller but the global scope.  Run on two machines that
  agree about the global scope and the number of active calls, it ends in the same way
  on both, changes the global scope to the same scope, prints the same text, and
  leaves all other scopes of each machine as they are.

  Each of the two runs is compared with a third, on a machine with the global scope
  alone: a machine with more scopes is that machine inside of a frame, and every step
  keeps it inside of the frame.  Being tidy is part of what the induction shows, since
  the scope that a body leaves to be closed is the one that was opened for it.
-/

import PocketC.Proofs.Names.Frame
import PocketC.Proofs.Run.Restoration

namespace PocketC

/-! ## Frames -/

/-- What a call does not reach: the scopes of its caller, and what was printed before. -/
structure Frame where
  scopes : List Scope
  text : String

namespace Frame

/-- The machine `m` is `c` with the scopes of the frame put in and its text in front. -/
structure Around (F : Frame) (m c : Machine) : Prop where
  scopes : m.scopes = c.scopes.framed F.scopes
  activeCalls : m.activeCalls = c.activeCalls
  text : m.transcript.text = F.text ++ c.transcript.text
  nested : c.scopes.Nested
  live : 0 < c.scopes.size

/-- The same of well-formed machines. -/
def Ready (F : Frame) (m c : Machine) : Prop := m.WellFormed ∧ c.WellFormed ∧ F.Around m c

/-- The same, and both machines are in the same scope. -/
structure Within (F : Frame) (m c : Machine) : Prop extends F.Around m c where
  current : m.current = ScopeTree.shift F.scopes.length c.current

variable {F : Frame} {m c : Machine}

theorem Within.lookup (h : F.Within m c) (y : Symbol) :
    m.scopes.lookup m.current y = c.scopes.lookup c.current y := by
  rw [h.scopes, h.current]
  exact ScopeTree.lookup_framed h.nested h.live c.current y

theorem Within.declare (h : F.Within m c) (y : Symbol) (b : Binding) :
    m.scopes.declare m.current y b =
      (c.scopes.declare c.current y b).map (ScopeTree.framed F.scopes) := by
  rw [h.scopes, h.current]
  exact ScopeTree.framed_declare h.live c.current y b

theorem Within.rebind (h : F.Within m c) (y : Symbol) (b : Binding) :
    m.scopes.rebind m.current y b =
      (c.scopes.rebind c.current y b).map (ScopeTree.framed F.scopes) := by
  rw [h.scopes, h.current]
  exact ScopeTree.framed_rebind h.nested h.live c.current y b

/-- Both machines change their scopes, but not which scopes there are. -/
theorem Within.setScopes (h : F.Within m c) {t : ScopeTree} (ht : t.parents = c.scopes.parents) :
    F.Within { m with scopes := t.framed F.scopes } { c with scopes := t } where
  scopes := rfl
  activeCalls := h.activeCalls
  text := h.text
  nested := h.nested.congr ht
  live := by
    rw [ScopeTree.size_congr ht]
    exact h.live
  current := h.current

theorem Around.log (h : F.Around m c) (e : Event) : F.Around (m.log e) (c.log e) :=
  ⟨h.scopes, h.activeCalls, h.text, h.nested, h.live⟩

theorem Around.enterCall (h : F.Around m c) :
    F.Around { m with activeCalls := m.activeCalls + 1 }
      { c with activeCalls := c.activeCalls + 1 } :=
  ⟨h.scopes, congrArg (· + 1) h.activeCalls, h.text, h.nested, h.live⟩

theorem Around.leaveCall (h : F.Around m c) :
    F.Around { m with activeCalls := m.activeCalls - 1 }
      { c with activeCalls := c.activeCalls - 1 } :=
  ⟨h.scopes, congrArg (· - 1) h.activeCalls, h.text, h.nested, h.live⟩

theorem Within.log (h : F.Within m c) (e : Event) : F.Within (m.log e) (c.log e) :=
  ⟨h.toAround.log e, h.current⟩

theorem Within.print (h : F.Within m c) (text : String) (l : Location) :
    F.Within { m.log (.printed text l) with transcript := m.transcript.print text l }
      { c.log (.printed text l) with transcript := c.transcript.print text l } where
  scopes := h.scopes
  activeCalls := h.activeCalls
  text := by
    rw [Transcript.text_print, Transcript.text_print, h.text, String.append_assoc]
  nested := h.nested
  live := h.live
  current := h.current

theorem Around.size (h : F.Around m c) :
    m.scopes.size = ScopeTree.shift F.scopes.length c.scopes.size := by
  rw [h.scopes, ScopeTree.size_framed, ScopeTree.shift_size _ h.live]

/-- Both machines open a scope in the same one. -/
theorem Around.opened (h : F.Around m c) {parent : Nat} (hp : parent < c.scopes.size) :
    F.Within (m.opened (ScopeTree.shift F.scopes.length parent)) (c.opened parent) where
  scopes := by
    show (m.scopes.nest _).2 = _
    rw [h.scopes]
    exact ScopeTree.framed_nest h.live parent
  activeCalls := h.activeCalls
  text := h.text
  nested := ScopeTree.nested_nest h.nested hp
  live := by
    show 0 < (c.scopes.nest parent).2.size
    rw [ScopeTree.size_nest]
    exact Nat.succ_pos _
  current := h.size

/-- Both machines close the same scope. -/
theorem Around.closed (h : F.Around m c) {scope saved saved' : Nat} {rest rest' : ScopeTree}
    (hm : m.scopes.close (ScopeTree.shift F.scopes.length scope) = some rest)
    (hc : c.scopes.close scope = some rest') :
    F.Around (m.closed rest (ScopeTree.shift F.scopes.length scope) saved)
      (c.closed rest' scope saved') where
  scopes := by
    rw [h.scopes, ScopeTree.framed_close hc] at hm
    cases hm
    rfl
  activeCalls := h.activeCalls
  text := h.text
  nested := ScopeTree.nested_close h.nested hc
  live := by
    have hsize := ScopeTree.size_close hc
    show 0 < rest'.size
    rw [ScopeTree.close] at hc
    split at hc
    · rename_i hscope
      have hne : scope ≠ 0 := hscope.1
      omega
    · cases hc

/-- Both machines are in the same scope, or back in the scopes where they were in `m` and `c`. -/
structure Returned (F : Frame) (m c q r : Machine) : Prop extends F.Around q r where
  current : q.current = ScopeTree.shift F.scopes.length r.current ∨
    q.current = m.current ∧ r.current = c.current

theorem Within.ofReturned {q r : Machine} (h : F.Within m c) (hr : F.Returned m c q r) :
    F.Within q r where
  toAround := hr.toAround
  current := by
    rcases hr.current with h' | ⟨hq, hr'⟩
    · exact h'
    · rw [hq, hr']
      exact h.current

end Frame

/-! ## Runs that agree -/

namespace Exec

variable {α β : Type}

/-- Both runs end in the same way, with the same result or for the same reason, in machines that
    `R` relates. -/
def Agree (R : Machine → Machine → Prop) :
    EStateM.Result Stop Machine α → EStateM.Result Stop Machine α → Prop
  | .ok a q, .ok b r => a = b ∧ R q r
  | .error s q, .error t r => s = t ∧ R q r
  | _, _ => False

theorem Agree.cases {R : Machine → Machine → Prop} {x y : EStateM.Result Stop Machine α}
    (h : Agree R x y) :
    (∃ a q r, x = .ok a q ∧ y = .ok a r ∧ R q r) ∨
      ∃ s q r, x = .error s q ∧ y = .error s r ∧ R q r := by
  match x, y, h with
  | .ok a q, .ok _ r, ⟨rfl, hR⟩ => exact .inl ⟨a, q, r, rfl, rfl, hR⟩
  | .error s q, .error _ r, ⟨rfl, hR⟩ => exact .inr ⟨s, q, r, rfl, rfl, hR⟩

theorem Agree.mono {R S : Machine → Machine → Prop} {x y : EStateM.Result Stop Machine α}
    (hxy : Agree R x y) (h : ∀ q r, R q r → S q r) : Agree S x y := by
  rcases hxy.cases with ⟨a, q, r, rfl, rfl, hR⟩ | ⟨s, q, r, rfl, rfl, hR⟩
  · exact ⟨rfl, h q r hR⟩
  · exact ⟨rfl, h q r hR⟩

/-- Where the first steps agree and the second steps agree behind them, the whole agrees. -/
theorem Agree.bind {R S : Machine → Machine → Prop} {x : Exec α} {f : α → Exec β} {m c : Machine}
    (hx : Agree R (x m) (x c)) (h : ∀ q r, R q r → S q r)
    (hf : ∀ a q r, x m = .ok a q → x c = .ok a r → R q r → Agree S (f a q) (f a r)) :
    Agree S ((x >>= f) m) ((x >>= f) c) := by
  rcases hx.cases with ⟨a, q, r, hm, hc, hR⟩ | ⟨s, q, r, hm, hc, hR⟩
  · rw [bind_ok hm, bind_ok hc]
    exact hf a q r hm hc hR
  · rw [bind_error hm, bind_error hc]
    exact ⟨rfl, h q r hR⟩

/-- Where the bodies agree and are tidy, and what is run last agrees behind what they restored,
    the whole agrees. -/
theorem Agree.afterwards {R S : Machine → Machine → Prop} {body : Exec α} {last last' : Exec Unit}
    {m c : Machine} (hbody : Agree R (body m) (body c)) (hm : Tidy m (body m))
    (hc : Tidy c (body c)) (h : ∀ q r, R q r → S q r)
    (hlast : ∀ q r, m.Restored q → c.Restored r → R q r →
      ∃ q' r', last q = .ok () q' ∧ last' r = .ok () r' ∧ S q' r') :
    Agree S (afterwards body last m) (afterwards body last' c) := by
  rcases hbody.cases with ⟨a, q, r, hxm, hxc, hR⟩ | ⟨s, q, r, hxm, hxc, hR⟩
  · rw [hxm] at hm
    rw [hxc] at hc
    obtain ⟨q', r', hq, hr, hS⟩ := hlast q r hm hc hR
    rw [afterwards_ok hxm hq, afterwards_ok hxc hr]
    exact ⟨rfl, hS⟩
  · rw [hxm] at hm
    rw [hxc] at hc
    match s with
    | .fault f =>
        obtain ⟨q', r', hq, hr, hS⟩ := hlast q r hm hc hR
        rw [afterwards_fault hxm hq, afterwards_fault hxc hr]
        exact ⟨rfl, hS⟩
    | .defect d =>
        rw [afterwards_defect hxm, afterwards_defect hxc]
        exact ⟨rfl, h q r hR⟩
    | .outOfFuel =>
        rw [afterwards_outOfFuel hxm, afterwards_outOfFuel hxc]
        exact ⟨rfl, h q r hR⟩

/-- A tidy run that ends inside of every frame as it does without. -/
structure Sealed (x : Exec α) (Q : α → Prop) : Prop where
  tidy : TidyRun x Q
  agree (F : Frame) (m c : Machine) : m.WellFormed → c.WellFormed → F.Within m c →
    Agree F.Within (x m) (x c)

namespace Sealed

variable {x : Exec α} {Q : α → Prop}

theorem pure {a : α} (h : Q a) : Sealed (pure a) Q where
  tidy := (tidyLogic .standard).pure h
  agree _ _ _ _ _ hF := ⟨rfl, hF⟩

theorem ofStop {s : Stop} (htidy : TidyRun x Q) (hx : ∀ m, x m = .error s m) : Sealed x Q where
  tidy := htidy
  agree F m c _ _ hF := by
    rw [hx, hx]
    exact ⟨rfl, hF⟩

theorem bind {f : α → Exec β} {R : β → Prop} (hx : Sealed x Q)
    (hf : ∀ a, Q a → Sealed (f a) R) : Sealed (x >>= f) R where
  tidy := hx.tidy.bind fun a ha => (hf a ha).tidy
  agree F m c hm hc hF := by
    refine (hx.agree F m c hm hc hF).bind (fun _ _ h => h) ?_
    intro a q r hq hr hqr
    obtain ⟨htm, hQ⟩ := hx.tidy m hm
    have htc := (hx.tidy c hc).1
    rw [hq] at htm
    rw [hr] at htc
    exact (hf a (hQ a q hq)).agree F q r (htm.wellFormed hm) (htc.wellFormed hc) hqr

/-- A run in a new scope agrees also from machines in different scopes, as long as the new scope
    stands in the same one. -/
theorem inNewScope (hx : Sealed x Q) {F : Frame} {m c : Machine} (hm : m.WellFormed)
    (hc : c.WellFormed) (hF : F.Around m c) {parent : Nat} (hp : parent < c.scopes.size) :
    Agree (F.Returned m c) (inNewScope (ScopeTree.shift F.scopes.length parent) x m)
      (inNewScope parent x c) := by
  have hpm : ScopeTree.shift F.scopes.length parent < m.scopes.size := by
    rw [hF.size]
    exact ScopeTree.shift_lt_shift _ hp
  have hbody := hx.agree F _ _ (hm.opened hpm) (hc.opened hp) (hF.opened hp)
  have htm := (hx.tidy _ (hm.opened hpm)).1
  have htc := (hx.tidy _ (hc.opened hp)).1
  rw [inNewScope_eq hm hpm, inNewScope_eq hc hp]
  refine hbody.afterwards htm htc (fun q r h => ⟨h.toAround, .inl h.current⟩) ?_
  -- both close the scope that they opened
  intro q r hq hr hqr
  obtain ⟨u, hu, _⟩ := hq.ofOpened hm
  obtain ⟨v, hv, _⟩ := hr.ofOpened hc
  refine ⟨_, _, closeScope_eq hu, closeScope_eq hv, ?_, .inr ⟨rfl, rfl⟩⟩
  rw [hF.size] at hu ⊢
  exact hqr.toAround.closed hu hv

theorem inInnerScope (hx : Sealed x Q) : Sealed (inInnerScope x) Q where
  tidy := hx.tidy.inInnerScope
  agree F m c hm hc hF := by
    rw [inInnerScope_eq hm, inInnerScope_eq hc, hF.current]
    exact (hx.inNewScope hm hc hF.toAround hc.current_live).mono fun _ _ => hF.ofReturned

/-- The body of a function agrees whatever scopes its calls are in. -/
theorem inCall (hx : Sealed x Q) {F : Frame} {m c : Machine} (hm : m.WellFormed)
    (hc : c.WellFormed) (hF : F.Around m c) :
    Agree (F.Returned m c) (inCall (Exec.inNewScope ScopeTree.global x) m)
      (inCall (Exec.inNewScope ScopeTree.global x) c) := by
  have hm' : Machine.WellFormed { m with activeCalls := m.activeCalls + 1 } :=
    ⟨hm.current_live, hm.nested⟩
  have hc' : Machine.WellFormed { c with activeCalls := c.activeCalls + 1 } :=
    ⟨hc.current_live, hc.nested⟩
  have hbody := hx.inNewScope hm' hc' hF.enterCall hc.global_live
  have htm := (hx.tidy.inNewScope hm' hm.global_live).1
  have htc := (hx.tidy.inNewScope hc' hc.global_live).1
  rw [inCall_eq, inCall_eq]
  refine hbody.afterwards htm htc (fun q r h => ⟨h.toAround, h.current⟩) ?_
  intro q r _ _ h
  exact ⟨_, _, modify_eq _, modify_eq _, h.toAround.leaveCall, h.current⟩

end Sealed

/-- Being sealed is a logic that asks nothing of names and values. -/
def sealedLogic (limits : Limits) : NameLogic limits where
  Holds := Sealed
  pure := Sealed.pure
  bind := Sealed.bind
  fault {_ cause l Q} _ := .ofStop (.fault cause l Q) fun _ => rfl
  Bound := fun _ _ => True
  Fn := fun _ => True
  Def := fun _ => True
  bound_var := fun _ _ => trivial
  bound_declared := fun _ _ _ => trivial
  bound_define := fun _ _ _ => trivial
  fn_of_bound := fun _ _ => trivial
  resolve y := by
    refine ⟨(tidyLogic limits).resolve y, ?_⟩
    intro F m c hm hc hF
    rw [resolve_eq hm, resolve_eq hc, hF.lookup]
    exact ⟨rfl, hF⟩
  declare {y b} _ := by
    refine ⟨(tidyLogic limits).declare trivial, ?_⟩
    intro F m c hm hc hF
    rw [declare_eq hm.current_live, declare_eq hc.current_live, hF.declare]
    cases hd : c.scopes.declare c.current y b with
    | none => exact ⟨rfl, hF⟩
    | some u => exact ⟨rfl, hF.setScopes (ScopeTree.parents_declare hd)⟩
  rebind {y b} _ := by
    refine ⟨(tidyLogic limits).rebind trivial, ?_⟩
    intro F m c hm hc hF
    rw [rebind_eq hm, rebind_eq hc, hF.rebind]
    cases hd : c.scopes.rebind c.current y b with
    | none => exact ⟨rfl, hF⟩
    | some u => exact ⟨rfl, hF.setScopes (ScopeTree.parents_rebind hd)⟩
  definitions := fun _ _ _ => trivial
  missingDeclaration _ := .ofStop (.fault _ _ _) fun _ => rfl
  secondBody _ := .ofStop (.fault _ _ _) fun _ => rfl
  inInnerScope := Sealed.inInnerScope
  checkDepth name l := by
    refine ⟨(tidyLogic limits).checkDepth name l, ?_⟩
    intro F m c _ _ hF
    rw [checkDepth_eq, checkDepth_eq, hF.activeCalls]
    split
    · exact ⟨rfl, hF⟩
    · exact ⟨rfl, hF⟩
  log {e} h := ⟨(tidyLogic limits).log h, fun F m c _ _ hF => ⟨rfl, hF.log e⟩⟩
  inCall h := by
    refine ⟨(tidyLogic limits).inCall h.tidy, ?_⟩
    intro F m c hm hc hF
    exact (h.inCall hm hc hF.toAround).mono fun _ _ => hF.ofReturned
  escaped {c j} _ h := .ofStop ((tidyLogic limits).escaped (c := c) trivial h) fun _ => rfl
  print text l := ⟨(tidyLogic limits).print text l, fun F m c _ _ hF => ⟨rfl, hF.print text l⟩⟩
  outOfFuel := .ofStop (tidyLogic limits).outOfFuel fun _ => rfl

/-! ## Calls -/

/-- What runs in the scope of a call is sealed: the passing of the arguments, and the body. -/
theorem sealed_body (limits : Limits) (fuel : Nat) (callee : Callee) (vs : List Value)
    (l : Location) :
    Sealed (do
      passArguments l callee.params vs
      runAll limits fuel (enter limits fuel) callee.body) fun _ => True := by
  have hargs := (sealedLogic limits).toLogic.passArguments l callee.params vs fun _ _ => trivial
  have henter := (sealedLogic limits).toLogic.enter fuel
  have hbody := (sealedLogic limits).toLogic.runAll henter fuel callee.body fun _ _ => trivial
  exact Sealed.bind hargs fun _ _ => (sealedLogic limits).mono hbody fun _ _ => trivial

/-- A call agrees with the same call on the machine that is inside of the frame, whatever scopes
    the two calls are in. -/
theorem enter_agree (limits : Limits) (fuel : Nat) (callee : Callee) (vs : List Value)
    (l : Location) {F : Frame} {m c : Machine} (hm : m.WellFormed) (hc : c.WellFormed)
    (hF : F.Around m c) :
    Agree F.Around (enter limits fuel callee vs l m) (enter limits fuel callee vs l c) := by
  cases fuel with
  | zero => exact ⟨rfl, hF⟩
  | succ fuel =>
      -- how deep calls are nested is the same for both, so both are let through or neither
      have hdepth : Agree F.Ready (checkDepth limits callee.name l m)
          (checkDepth limits callee.name l c) := by
        rw [checkDepth_eq, checkDepth_eq, hF.activeCalls]
        split
        · exact ⟨rfl, hm, hc, hF⟩
        · exact ⟨rfl, hm, hc, hF⟩
      refine hdepth.bind (fun _ _ h => h.2.2) ?_
      rintro _ q r - - ⟨hq, hr, h⟩
      have hlog : ∀ e, Agree F.Ready (log e q) (log e r) :=
        fun e => ⟨rfl, hq.log e, hr.log e, h.log e⟩
      refine (hlog _).bind (fun _ _ h => h.2.2) ?_
      rintro _ q r - - ⟨hq, hr, h⟩
      have hcall := (sealed_body limits fuel callee vs l).inCall hq hr h
      refine hcall.bind (fun _ _ h => h.toAround) ?_
      -- the flow of the body decides alone what the call gives
      intro flow q r _ _ h
      cases flow with
      | done => exact ⟨rfl, h.toAround⟩
      | jump j => exact ⟨rfl, h.toAround⟩
      | returned v => exact ⟨rfl, h.toAround⟩

/-- What two runs that began on `m` and on `m'` have in common, and what each has left alone. -/
structure Isolated {α : Type} (m m' : Machine) (r r' : EStateM.Result Stop Machine α) : Prop where
  outcome : outcome r = outcome r'
  global : (final r).scopes.live[0]? = (final r').scopes.live[0]?
  text : ∃ s, (final r).transcript.text = m.transcript.text ++ s ∧
    (final r').transcript.text = m'.transcript.text ++ s
  others : ∀ i, 0 < i → i < m.scopes.size → (final r).scopes.live[i]? = m.scopes.live[i]?
  others' : ∀ i, 0 < i → i < m'.scopes.size → (final r').scopes.live[i]? = m'.scopes.live[i]?

theorem Agree.outcome_final {α : Type} {R : Machine → Machine → Prop}
    {x y : EStateM.Result Stop Machine α} (h : Agree R x y) :
    outcome x = outcome y ∧ R (final x) (final y) := by
  rcases h.cases with ⟨a, q, r, rfl, rfl, hR⟩ | ⟨s, q, r, rfl, rfl, hR⟩
  · exact ⟨rfl, hR⟩
  · exact ⟨rfl, hR⟩

end Exec

namespace Machine

/-- The frame of a call on the machine: all scopes but the global one, and what was printed. -/
def frame (m : Machine) : Frame := ⟨m.scopes.live.tail, m.transcript.text⟩

/-- A machine with the global scope `g` alone. -/
def alone (g : Scope) (activeCalls : Nat) : Machine :=
  ⟨⟨[g]⟩, ScopeTree.global, activeCalls, .new, .new none⟩

theorem WellFormed.root {m : Machine} (hm : m.WellFormed) {g : Scope}
    (hg : m.scopes.live[0]? = some g) : g.parent = none := by
  cases hp : g.parent with
  | none => rfl
  | some p => exact absurd (hm.nested.parent_lt hg hp) (Nat.not_lt_zero p)

theorem wellFormed_alone {g : Scope} (hg : g.parent = none) (activeCalls : Nat) :
    (alone g activeCalls).WellFormed where
  current_live := Nat.zero_lt_one
  nested := by
    intro i p h
    cases i with
    | zero =>
        have hparent : some g.parent = some (some p) := h
        rw [hg] at hparent
        cases hparent
    | succ i => cases h

/-- Every well-formed machine is one with its global scope alone, inside of its frame. -/
theorem WellFormed.around {m : Machine} (hm : m.WellFormed) {g : Scope}
    (hg : m.scopes.live[0]? = some g) : m.frame.Around m (alone g m.activeCalls) where
  scopes := by
    obtain ⟨⟨live⟩, current, calls, transcript, journal⟩ := m
    cases live with
    | nil => cases hg
    | cons g' A =>
        cases hg
        show (⟨g :: A⟩ : ScopeTree) = ⟨g.relocate A.length :: (A ++ [])⟩
        rw [List.append_nil, g.relocate_of_root A.length (hm.root rfl)]
  activeCalls := rfl
  text := String.append_empty.symm
  nested := (wellFormed_alone (hm.root hg) m.activeCalls).nested
  live := Nat.zero_lt_one

end Machine

/-- What a call left on a machine that is inside of a frame. -/
theorem Frame.Around.others {m q r : Machine} (h : m.frame.Around q r) {i : Nat} (hi : 0 < i)
    (hlt : i < m.scopes.size) : q.scopes.live[i]? = m.scopes.live[i]? := by
  obtain ⟨k, rfl⟩ := Nat.exists_eq_succ_of_ne_zero (Nat.ne_of_gt hi)
  have hk : k < m.frame.scopes.length := by
    show k < m.scopes.live.tail.length
    rw [List.length_tail]
    exact Nat.lt_sub_of_add_lt hlt
  rw [h.scopes]
  exact (ScopeTree.live_framed_of_lt h.live hk).trans List.getElem?_tail

/-- A call is isolated from its caller: what it does on a machine depends on no scope but the
    global one, and on nothing that was printed. -/
theorem callee_isolated (limits : Limits) (fuel : Nat) (callee : Callee) (vs : List Value)
    (l : Location) (m m' : Machine) (hm : m.WellFormed) (hm' : m'.WellFormed)
    (hglobal : m.scopes.live[0]? = m'.scopes.live[0]?) (hcalls : m.activeCalls = m'.activeCalls) :
    Exec.Isolated m m' (Exec.enter limits fuel callee vs l m)
      (Exec.enter limits fuel callee vs l m') := by
  -- both machines are the same one with a global scope alone, each inside of its frame
  obtain ⟨g, hg⟩ : ∃ g, m.scopes.live[0]? = some g := ⟨_, List.getElem?_eq_getElem hm.global_live⟩
  have hc := Machine.wellFormed_alone (hm.root hg) m.activeCalls
  have hF := hm.around hg
  have hF' := hm'.around (hglobal.symm.trans hg)
  rw [← hcalls] at hF'
  obtain ⟨hout, hfinal⟩ := (Exec.enter_agree limits fuel callee vs l hm hc hF).outcome_final
  obtain ⟨hout', hfinal'⟩ := (Exec.enter_agree limits fuel callee vs l hm' hc hF').outcome_final
  refine ⟨hout.trans hout'.symm, ?_, ⟨_, hfinal.text, hfinal'.text⟩, ?_, ?_⟩
  · rw [hfinal.scopes, hfinal'.scopes, ScopeTree.global_framed hfinal.nested hfinal.live,
      ScopeTree.global_framed hfinal.nested hfinal.live]
  · intro i hi hlt
    exact hfinal.others hi hlt
  · intro i hi hlt
    exact hfinal'.others hi hlt

/-- A function that assigns to the global `n` and prints does so also where its caller has an `n`
    of its own. -/
theorem callee_isolated_from_local :
    let bound (n : Int) : Symbol × Binding := (.var "n", .var ⟨"int", .int n⟩)
    let m := Machine.alone ⟨[bound 1], none⟩ 0
    let m' : Machine := { m with
      scopes := ⟨[⟨[bound 1], none⟩, ⟨[bound 7], some 0⟩]⟩
      current := 1
      transcript := Transcript.new.print "seven" .start }
    let f : Callee := ⟨"f", [], [.expression (.assign "n" (.int 2 .start) .start),
      .intrinsic printIntrinsic [.string "two" .start] .start,
      .returnValue (some (.var "n" .start)) .start]⟩
    m'.WellFormed ∧ Exec.outcome (Exec.enter .standard 1 f [] .start m') = .ok (.int 2) ∧
      Exec.Isolated m m' (Exec.enter .standard 1 f [] .start m)
        (Exec.enter .standard 1 f [] .start m') := by
  intro bound m m' f
  have hm' : m'.WellFormed := by
    refine ⟨by decide, ?_⟩
    intro i p h
    match i with
    | 0 => cases h
    | 1 => cases h; exact Nat.zero_lt_one
    | i + 2 => cases h
  exact ⟨hm', rfl, callee_isolated .standard 1 f [] .start m m'
    (Machine.wellFormed_alone rfl 0) hm' rfl rfl⟩

end PocketC
