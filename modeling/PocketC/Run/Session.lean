/-
  PocketC.Run.Session

  Running a program any number of times, and the way from a source text to a
  finished run.  Every run begins with nothing bound; what the runs print adds
  up.
-/

import PocketC.Grammar.Program
import PocketC.Run.Call
import PocketC.Token.Scan

namespace PocketC

/-! ## Sessions -/

/-- A program with its limits, and the machine that its runs leave behind. -/
structure Session where
  program : Program
  limits : Limits
  machine : Machine

namespace Session

/-- A session before its first run. -/
def new (p : Program) (limits : Limits) (j : Journal) : Session := ⟨p, limits, .new j⟩

/-- Runs the program once more: the value that `main` returned or the reason why
    the run stopped, and the session after it. -/
def run (s : Session) (fuel : Nat) : Except Stop Value × Session :=
  match Exec.runProgram s.limits fuel s.program s.machine.reset with
  | .ok v m => (.ok v, { s with machine := m })
  | .error stop m => (.error stop, { s with machine := m })

end Session

/-! ## From source to result -/

/-- Why a source text gave no value. -/
inductive Failure where
  | lex (e : LexError)
  | parse (e : ParseError)
  | stopped (stop : Stop)

/-- What a run gave: the value of `main`, and everything printed. -/
structure Outcome where
  value : Value
  output : String

/-- The tokens of a source text, in a row to read. -/
def readTokens (source : String) (j : Journal) : Except LexError Cursor × Journal :=
  match Token.scan source with
  | .ok ts => (.ok (.ofTokens ts), j.record (.lexed ts.length))
  | .error e => (.error e, j)

/-- The next program of a parser, and the parser after it. -/
def readNext (p : Parser) (j : Journal) : Except ParseError Program × Parser × Journal :=
  match p.parse with
  | (.ok program, p) => (.ok program, p, j.record (.parsed program.nodes.length))
  | (.error e, p) => (.error e, p, j)

/-- The program of a source text. -/
def readProgram (source : String) (j : Journal) : Except Failure Program × Journal :=
  match readTokens source j with
  | (.error e, j) => (.error (.lex e), j)
  | (.ok cursor, j) =>
    match readNext (.ofCursor cursor) j with
    | (.ok program, _, j) => (.ok program, j)
    | (.error e, _, j) => (.error (.parse e), j)

/-- Reads a source text and runs its program once, with the standard limits. -/
def execute (source : String) (fuel : Nat) (j : Journal) : Except Failure Outcome × Journal :=
  match readProgram source j with
  | (.error e, j) => (.error e, j)
  | (.ok program, j) =>
    match (Session.new program .standard j).run fuel with
    | (.ok v, s) => (.ok ⟨v, s.machine.transcript.text⟩, s.machine.journal)
    | (.error stop, s) => (.error (.stopped stop), s.machine.journal)

end PocketC
