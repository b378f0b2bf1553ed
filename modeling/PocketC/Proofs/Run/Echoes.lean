/-
  PocketC.Proofs.Run.Echoes

  What is recorded of the output inside of a frame.  That a run is sealed says of its output that
  the same text is printed with the frame as without.  Here the transcripts are compared entry by
  entry: where they are the same before a run, they are the same afterwards, too, since only what
  is printed is recorded there, and where the source prints it.
-/

import PocketC.Proofs.Run.Isolation

namespace PocketC
namespace Exec

variable {α β : Type} {m : Machine}

/-! ## Steps that print nothing -/

theorem transcript_bind (x : Exec α) {f : α → Exec β}
    (hf : ∀ a q, (final (f a q)).transcript = q.transcript) (m : Machine) :
    (final ((x >>= f) m)).transcript = (final (x m)).transcript := by
  cases hx : x m with
  | ok a q =>
      rw [bind_ok hx]
      exact hf a q
  | error stop q =>
      rw [bind_error hx]
      rfl

theorem transcript_afterwards (body : Exec α) {last : Exec Unit}
    (hlast : ∀ q, (final (last q)).transcript = q.transcript) (m : Machine) :
    (final (afterwards body last m)).transcript = (final (body m)).transcript := by
  unfold afterwards
  cases body m with
  | ok a q => exact (transcript_bind last (fun _ _ => rfl) q).trans (hlast q)
  | error stop q =>
      -- what is run last is run behind a fault, but not behind other stops
      cases stop with
      | fault f => exact (transcript_bind last (fun _ _ => rfl) q).trans (hlast q)
      | defect d => rfl
      | outOfFuel => rfl

theorem transcript_inNewScope (hm : m.WellFormed) {parent : Nat} (hp : parent < m.scopes.size)
    (body : Exec α) :
    (final (inNewScope parent body m)).transcript =
      (final (body (m.opened parent))).transcript := by
  rw [inNewScope_eq hm hp]
  refine transcript_afterwards body (fun q => ?_) _
  unfold closeScope
  cases q.scopes.close m.scopes.size <;> rfl

theorem transcript_inCall (body : Exec α) (m : Machine) :
    (final (inCall body m)).transcript =
      (final (body { m with activeCalls := m.activeCalls + 1 })).transcript := by
  rw [inCall_eq]
  exact transcript_afterwards body (fun _ => rfl) _

/-! ## The logic -/

/-- A sealed run that records inside of every frame what it records without. -/
structure Echoes (x : Exec α) (Q : α → Prop) : Prop extends Sealed x Q where
  transcript (F : Frame) (m c : Machine) : m.WellFormed → c.WellFormed → F.Within m c →
    m.transcript = c.transcript → (final (x m)).transcript = (final (x c)).transcript

namespace Echoes

variable {x : Exec α} {Q : α → Prop}

theorem ofStop {s : Stop} (htidy : TidyRun x Q) (hx : ∀ m, x m = .error s m) : Echoes x Q where
  toSealed := .ofStop htidy hx
  transcript F m c _ _ _ h := by
    rw [hx, hx]
    exact h

/-- A step that prints nothing. -/
theorem ofQuiet (hx : Sealed x Q)
    (hquiet : ∀ m, m.WellFormed → (final (x m)).transcript = m.transcript) : Echoes x Q where
  toSealed := hx
  transcript F m c hm hc _ h := by
    rw [hquiet m hm, hquiet c hc]
    exact h

theorem bind {f : α → Exec β} {R : β → Prop} (hx : Echoes x Q)
    (hf : ∀ a, Q a → Echoes (f a) R) : Echoes (x >>= f) R where
  toSealed := hx.toSealed.bind fun a ha => (hf a ha).toSealed
  transcript F m c hm hc hF h := by
    have hfirst := hx.transcript F m c hm hc hF h
    obtain ⟨htm, hQ⟩ := hx.tidy m hm
    have htc := (hx.tidy c hc).1
    rcases (hx.agree F m c hm hc hF).cases with ⟨a, q, r, hq, hr, hqr⟩ | ⟨s, q, r, hq, hr, _⟩
    · rw [hq] at htm hfirst
      rw [hr] at htc hfirst
      rw [bind_ok hq, bind_ok hr]
      exact (hf a (hQ a q hq)).transcript F q r (htm.wellFormed hm) (htc.wellFormed hc) hqr hfirst
    · rw [hq, hr] at hfirst
      rw [bind_error hq, bind_error hr]
      exact hfirst

theorem inNewScope (hx : Echoes x Q) {F : Frame} {m c : Machine} (hm : m.WellFormed)
    (hc : c.WellFormed) (hF : F.Around m c) {parent : Nat} (hp : parent < c.scopes.size)
    (h : m.transcript = c.transcript) :
    (final (inNewScope (ScopeTree.shift F.scopes.length parent) x m)).transcript =
      (final (inNewScope parent x c)).transcript := by
  have hpm : ScopeTree.shift F.scopes.length parent < m.scopes.size := by
    rw [hF.size]
    exact ScopeTree.shift_lt_shift _ hp
  rw [transcript_inNewScope hm hpm, transcript_inNewScope hc hp]
  exact hx.transcript F _ _ (hm.opened hpm) (hc.opened hp) (hF.opened hp) h

theorem inInnerScope (hx : Echoes x Q) : Echoes (inInnerScope x) Q where
  toSealed := hx.toSealed.inInnerScope
  transcript F m c hm hc hF h := by
    rw [inInnerScope_eq hm, inInnerScope_eq hc, hF.current]
    exact hx.inNewScope hm hc hF.toAround hc.current_live h

theorem inCall (hx : Echoes x Q) {F : Frame} {m c : Machine} (hm : m.WellFormed)
    (hc : c.WellFormed) (hF : F.Around m c) (h : m.transcript = c.transcript) :
    (final (inCall (Exec.inNewScope ScopeTree.global x) m)).transcript =
      (final (inCall (Exec.inNewScope ScopeTree.global x) c)).transcript := by
  have hm' : Machine.WellFormed { m with activeCalls := m.activeCalls + 1 } :=
    ⟨hm.current_live, hm.nested⟩
  have hc' : Machine.WellFormed { c with activeCalls := c.activeCalls + 1 } :=
    ⟨hc.current_live, hc.nested⟩
  rw [transcript_inCall, transcript_inCall]
  exact hx.inNewScope hm' hc' hF.enterCall hc.global_live h

end Echoes

/-- Echoing is a logic that asks nothing of names and values. -/
def echoLogic (limits : Limits) : NameLogic limits where
  Holds := Echoes
  pure h := .ofQuiet (.pure h) fun _ _ => rfl
  bind := Echoes.bind
  fault {_ cause l Q} _ := .ofStop (.fault cause l Q) fun _ => rfl
  Bound := fun _ _ => True
  Fn := fun _ => True
  Def := fun _ => True
  bound_var := fun _ _ => trivial
  bound_declared := fun _ _ _ => trivial
  bound_define := fun _ _ _ => trivial
  fn_of_bound := fun _ _ => trivial
  resolve y := .ofQuiet ((sealedLogic limits).resolve y) fun m hm => by
    rw [resolve_eq hm]
    rfl
  declare {y b} h := .ofQuiet ((sealedLogic limits).declare h) fun m hm => by
    rw [declare_eq hm.current_live]
    cases m.scopes.declare m.current y b <;> rfl
  rebind {y b} h := .ofQuiet ((sealedLogic limits).rebind h) fun m hm => by
    rw [rebind_eq hm]
    cases m.scopes.rebind m.current y b <;> rfl
  definitions := fun _ _ _ => trivial
  missingDeclaration _ := .ofStop (.fault _ _ _) fun _ => rfl
  secondBody _ := .ofStop (.fault _ _ _) fun _ => rfl
  inInnerScope := Echoes.inInnerScope
  checkDepth name l := .ofQuiet ((sealedLogic limits).checkDepth name l) fun m _ => by
    rw [checkDepth_eq]
    split <;> rfl
  log h := .ofQuiet ((sealedLogic limits).log h) fun _ _ => rfl
  inCall h := by
    refine ⟨(sealedLogic limits).inCall h.toSealed, ?_⟩
    intro F m c hm hc hF htranscript
    exact h.inCall hm hc hF.toAround htranscript
  escaped {c j} _ h := .ofStop ((tidyLogic limits).escaped (c := c) trivial h) fun _ => rfl
  print text l := by
    refine ⟨(sealedLogic limits).print text l, ?_⟩
    intro F m c _ _ _ h
    exact congrArg (·.print text l) h
  outOfFuel := .ofStop (tidyLogic limits).outOfFuel fun _ => rfl

/-! ## Calls -/

/-- A call records inside of a frame what it records without, whatever scopes the two calls are
    in. -/
theorem enter_echoes (limits : Limits) (fuel : Nat) (callee : Callee) (vs : List Value)
    (l : Location) {F : Frame} {m c : Machine} (hm : m.WellFormed) (hc : c.WellFormed)
    (hF : F.Around m c) (h : m.transcript = c.transcript) :
    (final (enter limits fuel callee vs l m)).transcript =
      (final (enter limits fuel callee vs l c)).transcript := by
  cases fuel with
  | zero => exact h
  | succ fuel =>
      by_cases hdepth : m.activeCalls < limits.calls
      · have hresult : ∀ flow q,
            (final (callResult callee.name flow q)).transcript = q.transcript := by
          intro flow q
          cases flow <;> rfl
        have hargs := (echoLogic limits).toLogic.passArguments l callee.params vs
          fun _ _ => trivial
        have hbody := (echoLogic limits).toLogic.runAll ((echoLogic limits).toLogic.enter fuel) fuel
          callee.body fun _ _ => trivial
        rw [enter_of_lt hdepth, enter_of_lt (hF.activeCalls ▸ hdepth), transcript_bind _ hresult,
          transcript_bind _ hresult]
        exact (Echoes.bind hargs fun _ _ => hbody).inCall (hm.log _) (hc.log _) (hF.log _) h
      · have hle := Nat.le_of_not_lt hdepth
        rw [enter_of_le hle, enter_of_le (hF.activeCalls ▸ hle)]
        exact h

end Exec
end PocketC
