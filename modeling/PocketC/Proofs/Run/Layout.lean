/-
  PocketC.Proofs.Run.Layout

  Layout does not matter.  Two sources with the same tokens in different places are read
  and run in the same way: they give the same value and print the same text, or they fail
  for the same reason, and only the place in the message may differ.

  Trees that differ in places alone are run side by side, and any two places stand for
  each other.
-/

import PocketC.Proofs.Grammar.Layout
import PocketC.Proofs.Run.SideBySide

namespace PocketC

open Location

/-! ## Messages -/

/-- The place of the node stands in one part of the message. -/
theorem Fault.message_at (cause : FaultCause) :
    ∃ front back, ∀ l : Location, message ⟨cause, l⟩ = front ++ l.text ++ back := by
  -- most messages end with the place, two go on behind it
  have hend : ∀ a : String, ∃ front back, ∀ l : Location,
      a ++ (" at " ++ l.text) = front ++ l.text ++ back := by
    intro a
    refine ⟨a ++ " at ", "", fun l => ?_⟩
    rw [String.append_empty, String.append_assoc]
  unfold message
  cases cause with
  | wrongType wanted got =>
      refine ⟨"Type error at ", ": expected " ++ wanted.text ++ ", got " ++ got, fun l => ?_⟩
      simp only [← String.append_assoc]
      rfl
  | badFormat error =>
      refine ⟨"Invalid printf format at ", ": " ++ error.message, fun l => ?_⟩
      simp only [← String.append_assoc]
      rfl
  | _ =>
      dsimp only
      exact hend _

/-! ## Runs up to places -/

/-- The same reason to stop, at any place. -/
inductive Stop.Alike : Stop → Stop → Prop where
  | fault (cause : FaultCause) (l l' : Location) :
      Stop.Alike (.fault ⟨cause, l⟩) (.fault ⟨cause, l'⟩)
  | defect (d : Defect) : Stop.Alike (.defect d) (.defect d)
  | outOfFuel : Stop.Alike .outOfFuel .outOfFuel

theorem Stop.Beside.alike {stop stop' : Stop} (h : stop.Beside Anywhere stop') :
    stop.Alike stop' := by
  cases h with
  | fault cause => exact .fault cause _ _
  | defect d => exact .defect d
  | outOfFuel => exact .outOfFuel

namespace Machine

/-- Machines on which the same is bound, up to places, and the same text was printed. -/
abbrev Alike (m m' : Machine) : Prop := m.Beside (Function.Alike Anywhere) m'

theorem alike_new (j j' : Journal) : (new j).Alike (new j') :=
  ⟨ScopeTree.alike_new, rfl, rfl, rfl⟩

end Machine

/-! ## Sources -/

section
variable {source source' : String} {ts us : List Token}

/-- Sources with the same tokens are both programs, which are alike, or neither is, for the same
    reason. -/
theorem readProgram_alike (hts : Token.scan source = .ok ts) (hus : Token.scan source' = .ok us)
    (h : ts.map Token.unplaced = us.map Token.unplaced) (j j' : Journal) :
    (∃ p p' k k', readProgram source j = (.ok p, k) ∧ readProgram source' j' = (.ok p', k') ∧
      Stmt.AlikeAll Anywhere p.nodes p'.nodes) ∨
    ∃ e e' k k', readProgram source j = (.error (.parse e), k) ∧
      readProgram source' j' = (.error (.parse e'), k') ∧ e.cause.unplaced = e'.cause.unplaced := by
  have hparsers : Parser.Displaced (.ofCursor (.ofTokens ts)) (.ofCursor (.ofTokens us)) := ⟨h, rfl⟩
  have hends := Grammar.parallel_program _ _ hparsers
  unfold readProgram readTokens
  rw [hts, hus]
  dsimp only
  unfold readNext Parser.parse
  match Grammar.program (.ofCursor (.ofTokens ts)), Grammar.program (.ofCursor (.ofTokens us)),
    hends with
  | _, _, .ok hp _ => exact .inl ⟨_, _, _, _, rfl, rfl, hp⟩
  | _, _, .error he _ => exact .inr ⟨_, _, _, _, rfl, rfl, he⟩

/-- Alike programs run alike, with the same limits. -/
theorem Session.run_alike {p p' : Program} (hp : Stmt.AlikeAll Anywhere p.nodes p'.nodes)
    {m m' : Machine} (hm : m.reset.Alike m'.reset) (limits : Limits) (fuel : Nat) :
    let r := run ⟨p, limits, m⟩ fuel
    let r' := run ⟨p', limits, m'⟩ fuel
    (∃ v, r.1 = .ok v ∧ r'.1 = .ok v ∧
      r.2.machine.transcript.text = r'.2.machine.transcript.text) ∨
    ∃ stop stop', r.1 = .error stop ∧ r'.1 = .error stop' ∧ stop.Alike stop' := by
  have hstart : Anywhere .start .start := trivial
  obtain ⟨houtcome, htext⟩ := run_beside hstart (Function.alike Anywhere) hp hm limits fuel
  dsimp only
  generalize run ⟨p, limits, m⟩ fuel = r at houtcome htext ⊢
  generalize run ⟨p', limits, m'⟩ fuel = r' at houtcome htext ⊢
  obtain ⟨r, s⟩ := r
  obtain ⟨r', s'⟩ := r'
  cases houtcome with
  | value v => exact .inl ⟨v, rfl, rfl, htext⟩
  | stopped hstop => exact .inr ⟨_, _, rfl, rfl, hstop.alike⟩

/-- Sources with the same tokens in different places are read and run in the same way.  Both give
    the same value and print the same text, or both fail in reading or in running with the same
    error, of which the messages differ only in the place, or the fuel is enough for neither. -/
theorem layout_does_not_matter (hts : Token.scan source = .ok ts)
    (hus : Token.scan source' = .ok us) (h : ts.map Token.unplaced = us.map Token.unplaced)
    (fuel : Nat) (j j' : Journal) :
    match (execute source fuel j).1, (execute source' fuel j').1 with
    | .ok r, .ok r' => r.value = r'.value ∧ r.output = r'.output
    | .error (.parse e), .error (.parse e') => e.cause.unplaced = e'.cause.unplaced ∧
      ∃ front back, e.message = front ++ e.location.text ++ back ∧
        e'.message = front ++ e'.location.text ++ back
    | .error (.stopped (.fault f)), .error (.stopped (.fault f')) => f.cause = f'.cause ∧
      ∃ front back, f.message = front ++ f.location.text ++ back ∧
        f'.message = front ++ f'.location.text ++ back
    | .error (.stopped (.defect d)), .error (.stopped (.defect d')) => d = d'
    | .error (.stopped .outOfFuel), .error (.stopped .outOfFuel) => True
    | _, _ => False := by
  unfold execute
  rcases readProgram_alike hts hus h j j' with
    ⟨p, p', k, k', hread, hread', hp⟩ | ⟨e, e', k, k', hread, hread', he⟩
  · have hnew : (Machine.new k).reset.Alike (Machine.new k').reset := Machine.alike_new k k'
    have halike := Session.run_alike hp hnew .standard fuel
    rw [hread, hread']
    unfold Session.new
    dsimp only at halike ⊢
    generalize Session.run ⟨p, .standard, .new k⟩ fuel = r at halike ⊢
    generalize Session.run ⟨p', .standard, .new k'⟩ fuel = r' at halike ⊢
    obtain ⟨r, s⟩ := r
    obtain ⟨r', s'⟩ := r'
    rcases halike with ⟨v, hr, hr', htext⟩ | ⟨stop, stop', hr, hr', hs⟩
    · cases hr
      cases hr'
      exact ⟨rfl, htext⟩
    · cases hr
      cases hr'
      cases hs with
      | fault cause l l' =>
          obtain ⟨front, back, hmessage⟩ := Fault.message_at cause
          exact ⟨rfl, front, back, hmessage l, hmessage l'⟩
      | defect d => exact rfl
      | outOfFuel => exact trivial
  · rw [hread, hread']
    exact ⟨he, ParseError.message_of_unplaced he⟩

end

/-- A program on one line and on two: what it prints are one entry and two, but one text. -/
theorem layout_does_not_matter_between_lines :
    let source := "int main()\x7bprintf(\"a\");printf(\"b\");\x7d"
    let source' := "int main()\x7bprintf(\"a\");\nprintf(\"b\");\x7d"
    ∃ ts us, Token.scan source = .ok ts ∧ Token.scan source' = .ok us ∧ ts ≠ us ∧
      ts.map Token.unplaced = us.map Token.unplaced ∧
      match (execute source 2 (.new none)).1, (execute source' 2 (.new none)).1 with
      | .ok r, .ok r' => r.value = r'.value ∧ r.output = r'.output ∧ r.output = "ab"
      | _, _ => False := by
  intro source source'
  have hscan : ((Token.scan source).toOption.bind fun ts =>
      (Token.scan source').toOption.map fun us =>
        decide (ts ≠ us ∧ ts.map Token.unplaced = us.map Token.unplaced)) = some true := by
    decide +kernel
  have hrun : (execute source 2 (.new none)).1.toOption.map (·.output) = some "ab" := by
    decide +kernel
  have hlayout := fun ts us hts hus h =>
    @layout_does_not_matter source source' ts us hts hus h 2 (.new none) (.new none)
  generalize (execute source 2 (.new none)).1 = r at hrun hlayout ⊢
  generalize (execute source' 2 (.new none)).1 = r' at hlayout ⊢
  cases hts : Token.scan source with
  | error e => rw [hts] at hscan; cases hscan
  | ok ts =>
      cases hus : Token.scan source' with
      | error e => rw [hts, hus] at hscan; cases hscan
      | ok us =>
          rw [hts, hus] at hscan
          obtain ⟨hdiffer, hsame⟩ := of_decide_eq_true (Option.some.inj hscan)
          have hboth := hlayout ts us hts hus hsame
          refine ⟨ts, us, rfl, rfl, hdiffer, hsame, ?_⟩
          cases r with
          | error e => cases hrun
          | ok r =>
              cases r' with
              | error e => exact hboth
              | ok r' => exact ⟨hboth.1, hboth.2, Option.some.inj hrun⟩

end PocketC
