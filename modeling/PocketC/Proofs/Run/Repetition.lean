/-
  PocketC.Proofs.Run.Repetition

  A run forgets what was run before it.  It begins with nothing bound, so that of its past
  only the transcript is left, and a run adds to the transcript without reading it: the
  machine of a session is a new machine inside of a frame that holds no scopes, only what
  was printed before.  So every run of a session gives what the first run of the program
  on a new machine gives, and adds to the output what that one prints.
-/

import PocketC.Proofs.Output.Delivery
import PocketC.Proofs.Run.Containment
import PocketC.Proofs.Run.Isolation
import PocketC.Proofs.Run.Limits

namespace PocketC

/-! ## One run -/

namespace Program

/-- How a run of the program on a new machine ends. -/
def result (p : Program) (limits : Limits) (fuel : Nat) : Except Stop Value :=
  ((Session.new p limits (.new none)).run fuel).1

/-- What a run of the program on a new machine prints. -/
def printed (p : Program) (limits : Limits) (fuel : Nat) : String :=
  ((Session.new p limits (.new none)).run fuel).2.machine.transcript.text

/-- With more fuel than was enough a run ends and prints the same. -/
theorem result_of_more_fuel {p : Program} {limits : Limits} {fuel fuel' : Nat}
    (hfuel : fuel ≤ fuel') (h : p.result limits fuel ≠ .error .outOfFuel) :
    p.result limits fuel' = p.result limits fuel ∧
      p.printed limits fuel' = p.printed limits fuel := by
  have hrun := Session.run_of_more_fuel hfuel h
  rw [result, printed, hrun]
  exact ⟨rfl, rfl⟩

end Program

/-- A machine on which nothing is bound is a new one behind what was printed. -/
theorem Machine.reset_within (m : Machine) (j : Journal) :
    Frame.Within ⟨[], m.transcript.text⟩ m.reset (.new j) where
  scopes := rfl
  activeCalls := rfl
  text := String.append_empty.symm
  nested := ScopeTree.nested_new
  live := Nat.zero_lt_one
  current := rfl

/-- A run of a program ends on every machine as it does on a new one, and prints the same behind
    what was printed. -/
theorem Exec.runProgram_agree (limits : Limits) (fuel : Nat) (p : Program) (m : Machine)
    (j : Journal) :
    Agree (Frame.Within ⟨[], m.transcript.text⟩) (runProgram limits fuel p m.reset)
      (runProgram limits fuel p (.new j)) := by
  have hbind := (sealedLogic limits).toLogic.bindNodes fuel p.nodes fun _ _ => trivial
  have hsealed := (sealedLogic limits).toLogic.runProgram fuel hbind
  exact hsealed.agree _ _ _ m.wellFormed_reset (Machine.new j).wellFormed_reset (m.reset_within j)

namespace Session

theorem run_eq (s : Session) (fuel : Nat) :
    let r := Exec.runProgram s.limits fuel s.program s.machine.reset
    s.run fuel = (Exec.outcome r, { s with machine := Exec.final r }) := by
  dsimp only
  rw [run]
  split
  · rename_i h
    rw [h]
    rfl
  · rename_i h
    rw [h]
    rfl

/-- A run depends on the program, the limits and the fuel alone. -/
theorem run_forgets (s : Session) (fuel : Nat) :
    (s.run fuel).1 = s.program.result s.limits fuel ∧
      (s.run fuel).2.machine.transcript.text =
        s.machine.transcript.text ++ s.program.printed s.limits fuel := by
  -- the run on a new machine is this one without the frame
  have hagree := Exec.runProgram_agree s.limits fuel s.program s.machine (.new none)
  obtain ⟨houtcome, hfinal⟩ := hagree.outcome_final
  rw [Program.result, Program.printed, run_eq, run_eq]
  exact ⟨houtcome, hfinal.text⟩

/-! ## Sessions -/

/-- What is done with a session: running its program once more, or using its transcript. -/
inductive Act where
  | run (fuel : Nat)
  | use (u : Transcript.Use)

namespace Act

/-- What an act gives if a run gives `result`, depending on its fuel. -/
def gives (result : Nat → Except Stop Value) : Act → Option (Except Stop Value)
  | .run fuel => some (result fuel)
  | .use _ => none

/-- What an act prints if a run prints `printed`, depending on its fuel. -/
def prints (printed : Nat → String) : Act → String
  | .run fuel => printed fuel
  | .use u => u.printed

end Act

/-- A session, what its runs gave so far, and everything that writers took from its transcript. -/
structure History where
  session : Session
  results : List (Except Stop Value)
  written : String

namespace History

/-- A session of which nothing is known yet. -/
def begin (s : Session) : History := ⟨s, [], ""⟩

/-- The transcript with what writers took from it. -/
def delivered (h : History) : Transcript.History := ⟨h.written, h.session.machine.transcript⟩

/-- Everything that was printed. -/
def output (h : History) : String := h.delivered.output

/-- After one more act. -/
def step (h : History) : Act → History
  | .run fuel =>
    let r := h.session.run fuel
    { h with session := r.2, results := h.results ++ [r.1] }
  | .use u =>
    let d := h.delivered.step u
    { h with
      session := { h.session with machine := { h.session.machine with transcript := d.transcript } }
      written := d.written }

/-- After some more acts. -/
def after (h : History) (acts : List Act) : History := acts.foldl step h

/-- The history `h` of a session of the program `p`, in which the acts so far gave `results` and
    printed `output`. -/
structure Tells (p : Program) (limits : Limits) (h : History) (results : List (Except Stop Value))
    (output : String) : Prop where
  program : h.session.program = p
  limits : h.session.limits = limits
  results : h.results = results
  output : h.output = output

variable {p : Program} {limits : Limits} {h : History} {results : List (Except Stop Value)}
variable {output : String}

/-- One act gives and prints what it does in every session of the program. -/
theorem Tells.step (hh : Tells p limits h results output) (act : Act) :
    Tells p limits (h.step act) (results ++ (act.gives (p.result limits)).toList)
      (output ++ act.prints (p.printed limits)) := by
  obtain ⟨rfl, rfl, rfl, rfl⟩ := hh
  cases act with
  | run fuel =>
      obtain ⟨hresult, htext⟩ := h.session.run_forgets fuel
      refine ⟨h.session.program_run fuel, h.session.limits_run fuel, ?_, ?_⟩
      · show h.results ++ [(h.session.run fuel).1] = _
        rw [hresult]
        rfl
      · show h.written ++ (h.session.run fuel).2.machine.transcript.text = _
        rw [htext, ← String.append_assoc]
        rfl
  | use u =>
      refine ⟨rfl, rfl, (List.append_nil _).symm, ?_⟩
      exact h.delivered.output_step u

theorem Tells.after (hh : Tells p limits h results output) (acts : List Act) :
    Tells p limits (h.after acts) (results ++ acts.filterMap (Act.gives (p.result limits)))
      (output ++ String.join (acts.map (Act.prints (p.printed limits)))) := by
  induction acts generalizing h results output with
  | nil =>
      rw [List.filterMap_nil, List.append_nil, List.map_nil, String.join_nil, String.append_empty]
      exact hh
  | cons act acts ih =>
      -- what the first act gives and prints is told of the history of the others
      have hrest := ih (hh.step act)
      rw [List.append_assoc, String.append_assoc] at hrest
      rw [List.map_cons, String.join_cons]
      cases act <;> exact hrest

end History
end Session

/-- A run gives and prints the same whatever its machine went through before: runs of this program
    and others, also failed ones, prints and deliveries.  In a session every run gives the same
    result, and the output grows by the same text each time, whatever else is printed or delivered
    in between. -/
theorem runs_forget_the_past (p : Program) (limits : Limits) :
    (∀ (m : Machine) (fuel : Nat),
      (Session.run ⟨p, limits, m⟩ fuel).1 = p.result limits fuel ∧
      (Session.run ⟨p, limits, m⟩ fuel).2.machine.transcript.text =
        m.transcript.text ++ p.printed limits fuel) ∧
    (∀ fuel fuel' : Nat, fuel ≤ fuel' → p.result limits fuel ≠ .error .outOfFuel →
      p.result limits fuel' = p.result limits fuel ∧
      p.printed limits fuel' = p.printed limits fuel) ∧
    ∀ (m : Machine) (acts : List Session.Act),
      let h := (Session.History.begin ⟨p, limits, m⟩).after acts
      h.results = acts.filterMap (Session.Act.gives (p.result limits)) ∧
      h.output = m.transcript.text ++
        String.join (acts.map (Session.Act.prints (p.printed limits))) := by
  refine ⟨fun m fuel => Session.run_forgets ⟨p, limits, m⟩ fuel, ?_, fun m acts => ?_⟩
  · exact fun fuel fuel' hfuel h => Program.result_of_more_fuel hfuel h
  · have hbegin : Session.History.Tells p limits (.begin ⟨p, limits, m⟩) []
        ("" ++ m.transcript.text) := ⟨rfl, rfl, rfl, rfl⟩
    have htells := hbegin.after acts
    rw [List.nil_append, String.empty_append] at htells
    exact ⟨htells.results, htells.output⟩

/-- A program that prints and then divides by zero, run three times on a machine that was in the
    middle of something.  A print and a delivery that breaks off come between. -/
theorem runs_forget_the_past_of_faults :
    let p : Program := ⟨[.group [.declareFun "main" "int" [] .start, .defineFun "main" "int" [] [
      .intrinsic printIntrinsic [.string "try" .start] .start,
      .returnValue (some (.binary .div (.int 1 .start) (.int 0 .start) .start)) .start] .start]]⟩
    let m : Machine := ⟨⟨[⟨[(.fn "main" 0, .fn (.declared "int" []))], none⟩, .empty (some 7)]⟩,
      9, 48, Transcript.new.print "old" ⟨3, 3⟩, .new none⟩
    let h := (Session.History.begin ⟨p, .standard, m⟩).after
      [.run 2, .use (.print "!" ⟨5, 1⟩), .run 1, .use (.deliver (some 1)), .run 2]
    p.printed .standard 1 = "try" ∧
    (match p.result .standard 1 with
      | .error (.fault _) => true
      | _ => false) = true ∧
    1 ≤ 2 ∧ p.result .standard 1 ≠ .error .outOfFuel ∧
    h.results = [p.result .standard 1, p.result .standard 1, p.result .standard 1] ∧
    h.output = "oldtry!trytry" := by
  intro p m h
  have hprinted : p.printed .standard 1 = "try" := by decide +kernel
  have hfault : (match p.result .standard 1 with
      | .error (.fault _) => true
      | _ => false) = true := by decide +kernel
  have henough : p.result .standard 1 ≠ .error .outOfFuel := by
    intro h
    rw [h] at hfault
    cases hfault
  obtain ⟨_, hmore, hsessions⟩ := runs_forget_the_past p .standard
  obtain ⟨hresult', hprinted'⟩ := hmore 1 2 (by decide) henough
  obtain ⟨hresults, houtput⟩ := hsessions m
    [.run 2, .use (.print "!" ⟨5, 1⟩), .run 1, .use (.deliver (some 1)), .run 2]
  refine ⟨hprinted, hfault, by decide, henough, hresults.trans ?_, houtput.trans ?_⟩
  · show [p.result .standard 2, p.result .standard 1, p.result .standard 2] = _
    rw [hresult']
  · show "old" ++ String.join [p.printed .standard 2, "!", p.printed .standard 1, "",
      p.printed .standard 2] = _
    rw [hprinted', hprinted]
    decide

end PocketC
