/-
  PocketC.Proofs.Run.Twins

  Runs that begin on machines that hardly differ.  Twins differ in their journals at most, which
  no step reads, so what is run on both ends on twins.  A machine that is deeper than another has
  one more scope, which binds nothing, inside of the current one.  An expression declares no name,
  and its searches pass a scope that binds nothing.  So it ends in the same way on both machines,
  and leaves the one as much deeper than the other; its calls see no scope of their caller but the
  global one.
-/

import PocketC.Proofs.Names.BoundAt
import PocketC.Proofs.Run.Echoes

namespace PocketC

/-! ## Machines -/

namespace Machine

/-- On both machines as many calls are in progress, and the same was printed. -/
structure Level (m m' : Machine) : Prop where
  activeCalls : m'.activeCalls = m.activeCalls
  transcript : m'.transcript = m.transcript

/-- The machines are the same but for their journals. -/
structure Twin (m m' : Machine) : Prop extends m.Level m' where
  scopes : m'.scopes = m.scopes
  current : m'.current = m.current

/-- The machine `m'` is `m` in one more scope, which binds nothing, inside of the current one, but
    for the journals. -/
def Deeper (m m' : Machine) : Prop := (m.opened m.current).Twin m'

variable {m m' m'' : Machine}

theorem Twin.refl (m : Machine) : m.Twin m := ⟨⟨rfl, rfl⟩, rfl, rfl⟩

theorem Twin.trans (h : m.Twin m') (h' : m'.Twin m'') : m.Twin m'' where
  activeCalls := h'.activeCalls.trans h.activeCalls
  transcript := h'.transcript.trans h.transcript
  scopes := h'.scopes.trans h.scopes
  current := h'.current.trans h.current

theorem Twin.wellFormed (h : m.Twin m') (hm : m.WellFormed) : m'.WellFormed where
  current_live := by
    rw [h.current, h.scopes]
    exact hm.current_live
  nested := by
    rw [h.scopes]
    exact hm.nested

theorem Twin.opened (h : m.Twin m') (parent : Nat) : (m.opened parent).Twin (m'.opened parent) where
  activeCalls := h.activeCalls
  transcript := h.transcript
  scopes := by
    show (m'.scopes.nest parent).2 = (m.scopes.nest parent).2
    rw [h.scopes]
  current := congrArg ScopeTree.size h.scopes

/-- One of two twins is the other one inside of a frame in which there is nothing. -/
theorem Twin.within (h : m.Twin m') (hm : m.WellFormed) : Frame.Within ⟨[], ""⟩ m' m where
  scopes := by
    rw [h.scopes, ScopeTree.framed_nil hm.global_live]
  activeCalls := h.activeCalls
  text := by
    rw [h.transcript, String.empty_append]
  nested := hm.nested
  live := hm.global_live
  current := by
    rw [h.current]
    cases m.current <;> rfl

theorem twin_of_within (h : Frame.Within ⟨[], ""⟩ m' m)
    (htranscript : m'.transcript = m.transcript) : m.Twin m' where
  activeCalls := h.activeCalls
  transcript := htranscript
  scopes := by
    rw [h.scopes, ScopeTree.framed_nil h.live]
  current := by
    rw [h.current]
    cases m.current <;> rfl

theorem Deeper.wellFormed (h : m.Deeper m') (hm : m.WellFormed) : m'.WellFormed :=
  Twin.wellFormed h (hm.opened hm.current_live)

/-- The scope that makes a machine deeper is the newest one, and without it the machines are
    twins. -/
theorem Deeper.close (h : m.Deeper m') (hm : m.WellFormed) :
    m'.scopes.close m.scopes.size = some m.scopes ∧
      m.Twin (m'.closed m.scopes m.scopes.size m.current) := by
  refine ⟨?_, ⟨h.activeCalls, h.transcript⟩, rfl, rfl⟩
  rw [h.scopes]
  exact ScopeTree.close_nest m.current hm.global_live

theorem Deeper.lookup (h : m.Deeper m') (hm : m.WellFormed) (y : Symbol) :
    m'.scopes.lookup m'.current y = m.scopes.lookup m.current y := by
  rw [h.scopes, h.current]
  exact ScopeTree.lookup_nest hm.nested hm.current_live y

theorem Deeper.rebind (h : m.Deeper m') (hm : m.WellFormed) (y : Symbol) (b : Binding) :
    m'.scopes.rebind m'.current y b =
      (m.scopes.rebind m.current y b).map fun u => (u.nest m.current).2 := by
  rw [h.scopes, h.current]
  exact ScopeTree.rebind_nest hm.nested hm.current_live y b

theorem Deeper.setScopes (h : m.Deeper m') {u : ScopeTree} (hu : u.parents = m.scopes.parents) :
    Deeper { m with scopes := u } { m' with scopes := (u.nest m.current).2 } where
  activeCalls := h.activeCalls
  transcript := h.transcript
  scopes := rfl
  current := h.current.trans (ScopeTree.size_congr hu).symm

end Machine

/-! ## Runs -/

namespace Exec

variable {α β : Type} {R S : Machine → Machine → Prop} {m m' : Machine}

/-- Both runs end in the same way.  Behind a result or a fault `R` holds of the machines that they
    leave; behind other stops, at which scopes stay open, the machines are level. -/
inductive Abreast (R : Machine → Machine → Prop) :
    EStateM.Result Stop Machine α → EStateM.Result Stop Machine α → Prop where
  | ok {a : α} {q q' : Machine} : R q q' → Abreast R (.ok a q) (.ok a q')
  | fault {f : Fault} {q q' : Machine} : R q q' →
      Abreast R (.error (.fault f) q) (.error (.fault f) q')
  | defect {d : Defect} {q q' : Machine} : q.Level q' →
      Abreast R (.error (.defect d) q) (.error (.defect d) q')
  | outOfFuel {q q' : Machine} : q.Level q' →
      Abreast R (.error .outOfFuel q) (.error .outOfFuel q')

theorem Abreast.cases {r r' : EStateM.Result Stop Machine α} (h : Abreast R r r') :
    (∃ a q q', r = .ok a q ∧ r' = .ok a q' ∧ R q q') ∨
      ∃ stop q q', r = .error stop q ∧ r' = .error stop q' := by
  cases h with
  | ok hq => exact .inl ⟨_, _, _, rfl, rfl, hq⟩
  | fault _ => exact .inr ⟨_, _, _, rfl, rfl⟩
  | defect _ => exact .inr ⟨_, _, _, rfl, rfl⟩
  | outOfFuel _ => exact .inr ⟨_, _, _, rfl, rfl⟩

/-- Where the first steps run abreast and the second steps behind their results, the whole runs
    abreast. -/
theorem Abreast.bind {x x' : Exec α} {f f' : α → Exec β} (hx : Abreast R (x m) (x' m'))
    (hf : ∀ a q q', x m = .ok a q → R q q' → Abreast R (f a q) (f' a q')) :
    Abreast R ((x >>= f) m) ((x' >>= f') m') := by
  match hm : x m, hm' : x' m', hx with
  | _, _, .ok hq =>
      rw [bind_ok hm, bind_ok hm']
      exact hf _ _ _ hm hq
  | _, _, .fault hq =>
      rw [bind_error hm, bind_error hm']
      exact .fault hq
  | _, _, .defect hq =>
      rw [bind_error hm, bind_error hm']
      exact .defect hq
  | _, _, .outOfFuel hq =>
      rw [bind_error hm, bind_error hm']
      exact .outOfFuel hq

/-! ## On twins -/

/-- What is run on twins ends on twins. -/
theorem Echoes.abreast {x : Exec α} {Q : α → Prop} (hx : Echoes x Q) (hm : m.WellFormed)
    (h : m.Twin m') : Abreast Machine.Twin (x m) (x m') := by
  have hwithin := h.within hm
  have htranscript := hx.transcript _ m' m (h.wellFormed hm) hm hwithin h.transcript
  rcases (hx.agree _ m' m (h.wellFormed hm) hm hwithin).cases with
    ⟨a, q', q, hq', hq, hR⟩ | ⟨stop, q', q, hq', hq, hR⟩
  · rw [hq', hq] at htranscript ⊢
    exact .ok (Machine.twin_of_within hR htranscript)
  · rw [hq', hq] at htranscript ⊢
    have htwin := Machine.twin_of_within hR htranscript
    match stop with
    | .fault f => exact .fault htwin
    | .defect d => exact .defect htwin.toLevel
    | .outOfFuel => exact .outOfFuel htwin.toLevel

end Exec

/-! ## On a deeper machine -/

namespace Machine

variable {m m' : Machine} {g : Scope}

/-- All scopes of the machine but the global one, as a frame. -/
def locals (m : Machine) : Frame := ⟨m.scopes.live.tail, ""⟩

/-- The machine without them. -/
def root (m : Machine) (g : Scope) : Machine :=
  { alone g m.activeCalls with transcript := m.transcript }

theorem WellFormed.locals_around (hm : m.WellFormed) (hg : m.scopes.live[0]? = some g) :
    m.locals.Around m (m.root g) where
  scopes := (hm.around hg).scopes
  activeCalls := rfl
  text := String.empty_append.symm
  nested := (hm.around hg).nested
  live := Nat.zero_lt_one

theorem wellFormed_root (hm : m.WellFormed) (hg : m.scopes.live[0]? = some g) :
    (m.root g).WellFormed :=
  have h := wellFormed_alone (hm.root hg) m.activeCalls
  ⟨h.current_live, h.nested⟩

/-- A machine with one scope alone gives the frame around it its global scope. -/
theorem scopes_of_around {q e : Machine} {F : Frame} (h : F.Around q e)
    (hsize : e.scopes.size = 1) : ∃ g, e.scopes = ⟨[g]⟩ ∧ q.scopes = ⟨g :: F.scopes⟩ := by
  obtain ⟨g, own, he⟩ := ScopeTree.exists_cons h.live
  have hq := h.scopes
  have hnested := h.nested
  rw [he] at hsize hq hnested
  obtain rfl : own = [] := List.eq_nil_of_length_eq_zero (Nat.succ.inj hsize)
  refine ⟨g, he, ?_⟩
  have hparent : g.parent = none := by
    cases hp : g.parent with
    | none => rfl
    | some p => exact absurd (hnested.parent_lt rfl hp) (Nat.not_lt_zero p)
  rw [hq, ScopeTree.framed_cons, g.relocate_of_root _ hparent, List.map_nil, List.append_nil]

theorem Deeper.live (h : m.Deeper m') :
    m'.scopes.live = m.scopes.live ++ [.empty (some m.current)] := by
  rw [h.scopes]
  rfl

/-- A machine is still as much deeper when the scopes around it were left alone. -/
theorem Deeper.restored (h : m.Deeper m') (hm : m.WellFormed) {q q' e : Machine}
    (hq : m.Restored q) (hq' : m'.Restored q') (he : (m.root g).Restored e)
    (hF : m.locals.Around q e) (hF' : m'.locals.Around q' e)
    (ht : q.transcript = e.transcript) (ht' : q'.transcript = e.transcript) : q.Deeper q' := by
  obtain ⟨g₁, hg₁, hscopes⟩ := scopes_of_around hF he.size
  obtain ⟨g₂, hg₂, hscopes'⟩ := scopes_of_around hF' he.size
  rw [hg₁] at hg₂
  cases hg₂
  refine ⟨⟨?_, ?_⟩, ?_, ?_⟩
  · exact hF'.activeCalls.trans hF.activeCalls.symm
  · exact ht'.trans ht.symm
  · have hne : m.scopes.live ≠ [] := List.ne_nil_of_length_pos hm.global_live
    show q'.scopes = (q.scopes.nest q.current).2
    rw [hscopes', hscopes, locals, h.live, List.tail_append_of_ne_nil hne, hq.current]
    rfl
  · exact hq'.current.trans (h.current.trans hq.size.symm)

end Machine

namespace Exec

variable {m m' : Machine}

/-- Two runs that agree with the same one, each inside of the scopes around it. -/
theorem Abreast.ofRoot {α : Type} {x x' y : EStateM.Result Stop Machine α} {g : Scope}
    (h : m.Deeper m') (hm : m.WellFormed) (hx : Tidy m x) (hx' : Tidy m' x')
    (hy : Tidy (m.root g) y) (hF : Agree m.locals.Around x y) (hF' : Agree m'.locals.Around x' y)
    (ht : (final x).transcript = (final y).transcript)
    (ht' : (final x').transcript = (final y).transcript) : Abreast Machine.Deeper x x' := by
  rcases hF.cases with ⟨a, q, e, rfl, rfl, hR⟩ | ⟨stop, q, e, rfl, rfl, hR⟩
  · obtain ⟨_, q', _, rfl, ⟨⟩, hR'⟩ | ⟨_, _, _, _, ⟨⟩, _⟩ := hF'.cases
    exact .ok (h.restored hm hx hx' hy hR hR' ht ht')
  · obtain ⟨_, _, _, _, ⟨⟩, _⟩ | ⟨_, q', _, rfl, ⟨⟩, hR'⟩ := hF'.cases
    have hlevel : q.Level q' := ⟨hR'.activeCalls.trans hR.activeCalls.symm, ht'.trans ht.symm⟩
    match stop with
    | .fault f => exact .fault (h.restored hm hx hx' hy hR hR' ht ht')
    | .defect d => exact .defect hlevel
    | .outOfFuel => exact .outOfFuel hlevel

/-- Calls see no scope of their caller but the global one, and so they do the same on a deeper
    machine. -/
theorem enter_deeper (limits : Limits) (fuel : Nat) (callee : Callee) (vs : List Value)
    (l : Location) (hm : m.WellFormed) (h : m.Deeper m') :
    Abreast Machine.Deeper (enter limits fuel callee vs l m)
      (enter limits fuel callee vs l m') := by
  obtain ⟨g, hg⟩ : ∃ g, m.scopes.live[0]? = some g :=
    ⟨_, List.getElem?_eq_getElem hm.global_live⟩
  have hm' := h.wellFormed hm
  have hg' : m'.scopes.live[0]? = some g := by
    rw [h.live]
    exact (List.getElem?_append_left hm.global_live).trans hg
  -- both machines have the same root
  have hroot : m'.root g = m.root g := by
    unfold Machine.root Machine.alone
    rw [h.activeCalls, h.transcript]
    rfl
  have hc := Machine.wellFormed_root hm hg
  have hF := hm.locals_around hg
  have hF' := hm'.locals_around hg'
  rw [hroot] at hF'
  have htidy := tidy_enter limits fuel hm callee vs l
  have htidy' := tidy_enter limits fuel hm' callee vs l
  have htidyc := tidy_enter limits fuel hc callee vs l
  have hagree := enter_agree limits fuel callee vs l hm hc hF
  have hagree' := enter_agree limits fuel callee vs l hm' hc hF'
  have ht := enter_echoes limits fuel callee vs l hm hc hF rfl
  have ht' := enter_echoes limits fuel callee vs l hm' hc hF' h.transcript
  exact Abreast.ofRoot h hm htidy htidy' htidyc hagree hagree' ht ht'

/-- A tidy run that also leaves a deeper machine as much deeper as it was. -/
structure Deepens {α : Type} (x : Exec α) (Q : α → Prop) : Prop where
  tidy : TidyRun x Q
  abreast (m m' : Machine) : m.WellFormed → m.Deeper m' → Abreast Machine.Deeper (x m) (x m')

/-- What the rules for expressions ask of steps. -/
def deeperRules : NameExprRules where
  Holds := Deepens
  pure h := ⟨(tidyLogic .standard).pure h, fun _ _ _ hdeeper => .ok hdeeper⟩
  bind {_ _ x f Q R} hx hf := by
    refine ⟨hx.tidy.bind fun a ha => (hf a ha).tidy, fun m m' hm h => ?_⟩
    refine (hx.abreast m m' hm h).bind fun a q q' hq hdeeper => ?_
    obtain ⟨htidy, hQ⟩ := hx.tidy m hm
    rw [hq] at htidy
    exact (hf a (hQ a q hq)).abreast q q' (htidy.wellFormed hm) hdeeper
  fault {_ cause l Q} _ := ⟨.fault cause l Q, fun _ _ _ hdeeper => .fault hdeeper⟩
  Bound := fun _ _ => True
  Fn := fun _ => True
  bound_var := fun _ _ => trivial
  fn_of_bound := fun _ _ => trivial
  resolve y := by
    refine ⟨(tidyLogic .standard).resolve y, fun m m' hm h => ?_⟩
    rw [resolve_eq hm, resolve_eq (h.wellFormed hm), h.lookup hm]
    exact .ok h
  rebind {y b} _ := by
    refine ⟨(tidyLogic .standard).rebind trivial, fun m m' hm h => ?_⟩
    rw [rebind_eq hm, rebind_eq (h.wellFormed hm), h.rebind hm]
    cases hu : m.scopes.rebind m.current y b with
    | none => exact .ok h
    | some u => exact .ok (h.setScopes (ScopeTree.parents_rebind hu))

/-- An expression is evaluated on a deeper machine as it is without the scope. -/
theorem deepens_eval (limits : Limits) (fuel : Nat) (e : Expr) :
    Deepens (eval (enter limits fuel) e) fun _ => True := by
  have henter : deeperRules.toExprRules.Enters (enter limits fuel) := by
    intro callee vs l _ _
    have htidy := (tidyLogic limits).toLogic.enter fuel callee vs l trivial fun _ _ => trivial
    exact ⟨htidy, fun m m' hm h => enter_deeper limits fuel callee vs l hm h⟩
  exact deeperRules.toExprRules.eval henter e

/-- Closing the scope that makes a machine deeper leaves twins behind what was run on both. -/
theorem Abreast.close {α : Type} {x x' : Exec α} (hm : m.WellFormed) (htidy : Tidy m (x m))
    (h : Abreast Machine.Deeper (x m) (x' m')) :
    Abreast Machine.Twin (x m) (afterwards x' (closeScope m.scopes.size m.current) m') := by
  have hclose : ∀ {q q' : Machine}, m.Restored q → q.Deeper q' →
      closeScope m.scopes.size m.current q' =
          .ok () (q'.closed q.scopes m.scopes.size m.current) ∧
        q.Twin (q'.closed q.scopes m.scopes.size m.current) := by
    intro q q' hq hdeeper
    obtain ⟨hclose, htwin⟩ := hdeeper.close (hq.wellFormed hm)
    rw [hq.size] at hclose htwin
    rw [hq.current] at htwin
    exact ⟨closeScope_eq hclose, htwin⟩
  match hx : x m, hx' : x' m', h with
  | _, _, .ok hdeeper =>
      rw [hx] at htidy
      obtain ⟨hlast, htwin⟩ := hclose htidy hdeeper
      rw [afterwards_ok hx' hlast]
      exact .ok htwin
  | _, _, .fault hdeeper =>
      rw [hx] at htidy
      obtain ⟨hlast, htwin⟩ := hclose htidy hdeeper
      rw [afterwards_fault hx' hlast]
      exact .fault htwin
  | _, _, .defect hlevel =>
      rw [afterwards_defect hx']
      exact .defect hlevel
  | _, _, .outOfFuel hlevel =>
      rw [afterwards_outOfFuel hx']
      exact .outOfFuel hlevel

end Exec
end PocketC
