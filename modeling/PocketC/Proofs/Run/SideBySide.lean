/-
  PocketC.Proofs.Run.SideBySide

  Alike trees run side by side on machines on which the same is bound.  Places reach the
  journal, the entries of the transcript and the errors.  None of these is read by a step
  of a run, and how the printed texts are grouped into entries does not show in the text of
  the transcript.  So both runs give the same value or stop for the same reason, at places
  that stand for each other, and the same text was printed.

  Which places and which functions stand for each other are parameters.
-/

import PocketC.Proofs.Parallel
import PocketC.Proofs.Run.Comparison
import PocketC.Proofs.Run.Steps
import PocketC.Run.Session

namespace PocketC

variable {At : Location → Location → Prop} {Fn : Function → Function → Prop}

/-! ## Machines side by side -/

/-- The same reason to stop, at places that `At` relates. -/
inductive Stop.Beside (At : Location → Location → Prop) : Stop → Stop → Prop where
  | fault (cause : FaultCause) {l l' : Location} : At l l' →
      Stop.Beside At (.fault ⟨cause, l⟩) (.fault ⟨cause, l'⟩)
  | defect (d : Defect) : Stop.Beside At (.defect d) (.defect d)
  | outOfFuel : Stop.Beside At .outOfFuel .outOfFuel

theorem Stop.Beside.refl (hAt : ∀ l, At l l) (stop : Stop) : stop.Beside At stop := by
  cases stop with
  | fault f => exact .fault f.cause (hAt f.location)
  | defect d => exact .defect d
  | outOfFuel => exact .outOfFuel

theorem Stop.Beside.eq {stop stop' : Stop} (h : stop.Beside Eq stop') : stop = stop' := by
  cases h with
  | fault cause hl => rw [hl]
  | defect d => rfl
  | outOfFuel => rfl

namespace Machine

/-- Machines on which the same is bound, up to functions that stand for each other, and the same
    text was printed. -/
structure Beside (Fn : Function → Function → Prop) (m m' : Machine) : Prop where
  scopes : m.scopes.Alike Fn m'.scopes
  current : m.current = m'.current
  activeCalls : m.activeCalls = m'.activeCalls
  text : m.transcript.text = m'.transcript.text

variable {m m' : Machine}

theorem beside_reset (m : Machine) : m.reset.Beside Fn m.reset :=
  ⟨ScopeTree.alike_new, rfl, rfl, rfl⟩

theorem Beside.log (h : m.Beside Fn m') (e e' : Event) : (m.log e).Beside Fn (m'.log e') :=
  ⟨h.scopes, h.current, h.activeCalls, h.text⟩

theorem Beside.setScopes (h : m.Beside Fn m') {t t' : ScopeTree} (ht : t.Alike Fn t') :
    Beside Fn { m with scopes := t } { m' with scopes := t' } :=
  ⟨ht, h.current, h.activeCalls, h.text⟩

theorem Beside.setCurrent (h : m.Beside Fn m') (scope : Nat) :
    Beside Fn { m with current := scope } { m' with current := scope } :=
  ⟨h.scopes, rfl, h.activeCalls, h.text⟩

theorem Beside.setCalls (h : m.Beside Fn m') (f : Nat → Nat) :
    Beside Fn { m with activeCalls := f m.activeCalls }
      { m' with activeCalls := f m'.activeCalls } :=
  ⟨h.scopes, h.current, congrArg f h.activeCalls, h.text⟩

theorem Beside.opened (h : m.Beside Fn m') (parent : Nat) :
    (m.opened parent).Beside Fn (m'.opened parent) where
  scopes := h.scopes.nest parent
  current := h.scopes.size
  activeCalls := h.activeCalls
  text := h.text

/-- Also a print that only one of the machines adds to an entry leaves them side by side. -/
theorem Beside.print (h : m.Beside Fn m') (text : String) (l l' : Location) :
    Beside Fn { m with transcript := m.transcript.print text l }
      { m' with transcript := m'.transcript.print text l' } where
  scopes := h.scopes
  current := h.current
  activeCalls := h.activeCalls
  text := by
    show (m.transcript.print text l).text = (m'.transcript.print text l').text
    rw [Transcript.text_print, Transcript.text_print, h.text]

end Machine

/-! ## Runs side by side -/

/-- On such machines both runs give results that `Q` relates, or both stop for the same reason. -/
abbrev Exec.Beside {α : Type} (At : Location → Location → Prop) (Fn : Function → Function → Prop)
    (x y : Exec α) (Q : α → α → Prop) : Prop :=
  Parallel (Stop.Beside At) (Machine.Beside Fn) x y Q

namespace Parallel

open Exec

variable {α : Type} {x y : Exec α} {Q : α → α → Prop}

theorem fault (cause : FaultCause) {l l' : Location} (hl : At l l') :
    Beside At Fn (fault cause l) (fault cause l') Q :=
  fun _ _ hm => .error (.fault cause hl) hm

theorem ofExcept (r : Except FaultCause α) {l l' : Location} (hl : At l l') :
    Beside At Fn (ofExcept r l) (ofExcept r l') Eq := by
  cases r with
  | ok a => exact .pure rfl
  | error cause => exact fault cause hl

/-- Where the last step is taken behind both bodies, it is taken behind both or neither. -/
theorem afterwards {last : Exec Unit} (hxy : Beside At Fn x y Q)
    (hlast : Beside At Fn last last Eq) :
    Beside At Fn (afterwards x last) (afterwards y last) Q := by
  intro m m' hm
  unfold Exec.afterwards
  match x m, y m', hxy m m' hm with
  | _, _, .ok hab hq => exact hlast.bindEq (fun _ => .pure hab) _ _ hq
  | _, _, .error hs hq =>
      -- behind a fault the last step is taken, behind other stops it is not
      cases hs with
      | fault cause hl => exact hlast.bindEq (fun _ => fault cause hl) _ _ hq
      | defect d => exact .error (.defect d) hq
      | outOfFuel => exact .error .outOfFuel hq

/-! ### Scopes -/

theorem currentScope : Beside At Fn currentScope currentScope Eq := by
  intro m m' hm
  unfold Exec.currentScope
  rw [hm.current, hm.scopes.size]
  split
  · exact .ok rfl hm
  · exact .error (.defect _) hm

theorem openScope (parent : Nat) : Beside At Fn (openScope parent) (openScope parent) Eq := by
  intro m m' hm
  unfold Exec.openScope
  rw [hm.scopes.size]
  split
  · exact .ok hm.scopes.size (hm.opened parent)
  · exact .error (.defect _) hm

theorem closeScope (scope saved : Nat) :
    Beside At Fn (closeScope scope saved) (closeScope scope saved) Eq := by
  intro m m' hm
  unfold Exec.closeScope
  match m.scopes.close scope, m'.scopes.close scope, hm.scopes.close scope with
  | _, _, .none => exact .error (.defect _) (hm.setCurrent saved)
  | _, _, .some ht => exact .ok rfl (((hm.setScopes ht).setCurrent saved).log _ _)

theorem inNewScope (hxy : Beside At Fn x y Q) (parent : Nat) :
    Beside At Fn (inNewScope parent x) (inNewScope parent y) Q := by
  refine .bindEq currentScope fun saved => .bindEq (openScope parent) fun scope => ?_
  exact afterwards hxy (closeScope scope saved)

theorem inCall (hxy : Beside At Fn x y Q) : Beside At Fn (inCall x) (inCall y) Q := by
  have hcalls : ∀ f : Nat → Nat, Beside At Fn
      (modify fun m : Machine => { m with activeCalls := f m.activeCalls } : Exec Unit)
      (modify fun m : Machine => { m with activeCalls := f m.activeCalls } : Exec Unit) Eq :=
    fun f _ _ hm => .ok rfl (hm.setCalls f)
  exact .bindEq (hcalls (· + 1)) fun _ => afterwards hxy (hcalls (· - 1))

/-! ### Names -/

theorem search (y : Symbol) : Beside At Fn (search y) (search y) Eq := by
  refine .bindEq currentScope fun scope m m' hm => ?_
  rw [hm.scopes.stranded]
  split
  · exact .error (.defect _) hm
  · exact .ok rfl hm

theorem resolve (y : Symbol) :
    Beside At Fn (resolve y) (resolve y) (Option.Rel (Binding.Alike Fn)) := by
  have hget : Beside At Fn (get : Exec Machine) get (Machine.Beside Fn) :=
    .ofLook (fun _ => rfl) (fun _ => rfl) fun _ _ hm => hm
  refine .bindEq (search y) fun scope => .bind hget fun m m' hm => ?_
  exact .pure (hm.scopes.lookup scope y)

theorem declare {b b' : Binding} (y : Symbol) (hb : b.Alike Fn b') :
    Beside At Fn (declare y b) (declare y b') Eq := by
  refine .bindEq currentScope fun scope m m' hm => ?_
  match m.scopes.declare scope y b, m'.scopes.declare scope y b', hm.scopes.declare scope y hb with
  | _, _, .none => exact .ok rfl hm
  | _, _, .some ht => exact .ok rfl (hm.setScopes ht)

theorem rebind {b b' : Binding} (y : Symbol) (hb : b.Alike Fn b') :
    Beside At Fn (rebind y b) (rebind y b') Eq := by
  refine .bindEq (search y) fun scope m m' hm => ?_
  match m.scopes.rebind scope y b, m'.scopes.rebind scope y b', hm.scopes.rebind scope y hb with
  | _, _, .none => exact .ok rfl hm
  | _, _, .some ht => exact .ok rfl (hm.setScopes ht)

end Parallel

/-- Running side by side is a comparison. -/
def Exec.sideBySide (limits : Limits) (hstart : At .start .start)
    (functions : Function.Correspondence At) : Comparison limits limits 0 where
  At := At
  start := hstart
  functions := functions
  Holds := Beside At functions.Fn
  pure := .pure
  bind := .bind
  fault cause hl := .fault cause hl
  defect d _ _ hm := .error (.defect d) hm
  outOfFuel h m m' hm := by
    rw [h rfl]
    exact .error .outOfFuel hm
  newArray name size hl := .ofExcept _ hl
  checkDepth name hl m m' hm := by
    rw [checkDepth_eq, checkDepth_eq, hm.activeCalls]
    split
    · exact .error (.fault _ hl) hm
    · exact .ok rfl hm
  resolve := .resolve
  declare := .declare
  rebind := .rebind
  inInnerScope hxy := .bindEq .currentScope fun parent => hxy.inNewScope parent
  inCall hxy := .inCall (hxy.inNewScope _)
  log _ _ _ hm := .ok rfl (hm.log _ _)
  print text _ _ _ hm := .ok rfl ((hm.log _ _).print text _ _)

/-! ## Sessions side by side -/

namespace Session

/-- The same value, or stops for the same reason. -/
inductive SameOutcome (At : Location → Location → Prop) :
    Except Stop Value → Except Stop Value → Prop where
  | value (v : Value) : SameOutcome At (.ok v) (.ok v)
  | stopped {stop stop' : Stop} : stop.Beside At stop' →
      SameOutcome At (.error stop) (.error stop')

/-- Both runs ended in the same way, and what was printed is the same text. -/
structure SameRun (At : Location → Location → Prop) (r r' : Except Stop Value × Session) :
    Prop where
  outcome : SameOutcome At r.1 r'.1
  text : r.2.machine.transcript.text = r'.2.machine.transcript.text

/-- A run that ended in the very same way stands for the other. -/
theorem SameRun.ofEq {r r' r'' : Except Stop Value × Session} (h : SameRun Eq r r')
    (h' : SameRun At r' r'') : SameRun At r r'' where
  outcome := by
    have hsame : r.1 = r'.1 := by
      match r.1, r'.1, h.outcome with
      | _, _, .value v => rfl
      | _, _, .stopped hstop => rw [hstop.eq]
    rw [hsame]
    exact h'.outcome
  text := h.text.trans h'.text

variable {p p' : Program} {limits : Limits} {fuel : Nat} {m m' : Machine}

theorem sameRun_of_ends
    (h : Ends (Stop.Beside At) (fun q q' => q.transcript.text = q'.transcript.text) Eq
      (Exec.runProgram limits fuel p m.reset) (Exec.runProgram limits fuel p' m'.reset)) :
    SameRun At (run ⟨p, limits, m⟩ fuel) (run ⟨p', limits, m'⟩ fuel) := by
  unfold run
  dsimp only
  generalize Exec.runProgram limits fuel p m.reset = x at h ⊢
  generalize Exec.runProgram limits fuel p' m'.reset = y at h ⊢
  cases h with
  | ok hv hq =>
      cases hv
      exact ⟨.value _, hq⟩
  | error hstop hq => exact ⟨.stopped hstop, hq⟩

/-- Alike programs run alike. -/
theorem run_beside (hstart : At .start .start) (functions : Function.Correspondence At)
    (hp : Stmt.AlikeAll At p.nodes p'.nodes) (hm : m.reset.Beside functions.Fn m'.reset)
    (limits : Limits) (fuel : Nat) :
    SameRun At (run ⟨p, limits, m⟩ fuel) (run ⟨p', limits, m'⟩ fuel) := by
  have hends := (Exec.sideBySide limits hstart functions).runProgram fuel hp _ _ hm
  exact sameRun_of_ends (hends.mono fun _ _ hq => hq.text)

end Session
end PocketC
