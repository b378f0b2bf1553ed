/-
  PocketC.Proofs.Run.Printing

  What a run does to the output.  Whatever a run does and however it ends, nothing that was
  printed is taken back: every step leaves the output as it is or adds to its end.

  A print is all or nothing.  Its arguments are evaluated from left to right, and they may call
  functions that print themselves, up to one that stops.  The text of the print itself is put
  together before any of it is recorded, so a print that fails adds only what its arguments added.
-/

import PocketC.Proofs.Run.NameLogic
import PocketC.Proofs.Run.Steps

namespace PocketC

/-! ## Machines -/

namespace Machine

/-- Between `m` and `q` the output grew by `added`. -/
def Adds (m q : Machine) (added : String) : Prop :=
  q.transcript.text = m.transcript.text ++ added

variable {m q r : Machine} {s t : String}

theorem adds_of_eq (h : q.transcript = m.transcript) : m.Adds q "" := by
  rw [Adds, h, String.append_empty]

theorem Adds.trans (h : m.Adds q s) (h' : q.Adds r t) : m.Adds r (s ++ t) := by
  rw [Adds, h', h, String.append_assoc]

theorem adds_print (m : Machine) (text : String) (l : Location) :
    m.Adds { m.log (.printed text l) with transcript := m.transcript.print text l } text :=
  Transcript.text_print m.transcript text l

end Machine

namespace Exec

variable {α β : Type} {m : Machine}

/-! ## Runs that add to the output -/

/-- What a run on `m` ends in that only added to the output. -/
structure Added (m : Machine) (Q : α → Prop) (r : EStateM.Result Stop Machine α) : Prop where
  adds : ∃ added, m.Adds (final r) added
  gives : ∀ a q, r = .ok a q → Q a

/-- A run of `x` only adds to the output, whatever it ends in. -/
def Appends (x : Exec α) (Q : α → Prop) : Prop := ∀ m, Added m Q (x m)

namespace Appends

variable {x : Exec α} {Q : α → Prop}

theorem pure {a : α} (h : Q a) : Appends (pure a) Q := by
  intro m
  refine ⟨⟨"", Machine.adds_of_eq rfl⟩, ?_⟩
  rintro _ _ ⟨⟩
  exact h

/-- A step that prints nothing. -/
theorem ofQuiet (h : ∀ m, (final (x m)).transcript = m.transcript) : Appends x fun _ => True :=
  fun m => ⟨⟨"", Machine.adds_of_eq (h m)⟩, fun _ _ _ => trivial⟩

theorem ofStop {stop : Stop} (h : ∀ m, x m = .error stop m) : Appends x Q := by
  intro m
  rw [h]
  exact ⟨⟨"", Machine.adds_of_eq rfl⟩, nofun⟩

theorem fault (cause : FaultCause) (l : Location) : Appends (fault cause l) Q :=
  ofStop fun _ => rfl

theorem bind {f : α → Exec β} {R : β → Prop} (hx : Appends x Q)
    (hf : ∀ a, Q a → Appends (f a) R) : Appends (x >>= f) R := by
  intro m
  obtain ⟨⟨s, hs⟩, hgives⟩ := hx m
  cases h : x m with
  | ok a q =>
    rw [h] at hs
    obtain ⟨⟨t, ht⟩, hnext⟩ := hf a (hgives a q h) q
    rw [bind_ok h]
    exact ⟨⟨s ++ t, hs.trans ht⟩, hnext⟩
  | error stop q =>
    rw [h] at hs
    rw [bind_error h]
    exact ⟨⟨s, hs⟩, nofun⟩

theorem afterwards {last : Exec Unit} (hx : Appends x Q) (hlast : Appends last fun _ => True) :
    Appends (afterwards x last) Q := by
  intro m
  obtain ⟨⟨s, hs⟩, hgives⟩ := hx m
  unfold Exec.afterwards
  cases h : x m with
  | ok a q =>
    rw [h] at hs
    have hthen := hlast.bind fun _ _ => pure (Q := Q) (hgives a q h)
    obtain ⟨⟨t, ht⟩, hnext⟩ := hthen q
    exact ⟨⟨s ++ t, hs.trans ht⟩, hnext⟩
  | error stop q =>
    rw [h] at hs
    -- the last step is taken behind a fault, but not behind other stops
    cases stop with
    | fault f =>
      have hthen := hlast.bind fun _ _ => fault (Q := Q) f.cause f.location
      obtain ⟨⟨t, ht⟩, hnext⟩ := hthen q
      exact ⟨⟨s ++ t, hs.trans ht⟩, hnext⟩
    | defect d => exact ⟨⟨s, hs⟩, nofun⟩
    | outOfFuel => exact ⟨⟨s, hs⟩, nofun⟩

/-! ### Scopes and names -/

theorem currentScope : Appends currentScope fun _ => True := by
  refine ofQuiet fun m => ?_
  unfold Exec.currentScope
  split <;> rfl

theorem openScope (parent : Nat) : Appends (openScope parent) fun _ => True := by
  refine ofQuiet fun m => ?_
  unfold Exec.openScope
  split <;> rfl

theorem closeScope (scope saved : Nat) : Appends (closeScope scope saved) fun _ => True := by
  refine ofQuiet fun m => ?_
  unfold Exec.closeScope
  split <;> rfl

theorem inNewScope (hx : Appends x Q) (parent : Nat) : Appends (inNewScope parent x) Q :=
  currentScope.bind fun saved _ => (openScope parent).bind fun scope _ =>
    hx.afterwards (closeScope scope saved)

theorem inCall (hx : Appends x Q) : Appends (inCall x) Q := by
  have hcount : ∀ f : Nat → Nat, Appends
      (modify fun m : Machine => { m with activeCalls := f m.activeCalls } : Exec Unit)
      fun _ => True := fun f => ofQuiet fun _ => rfl
  exact (hcount (· + 1)).bind fun _ _ => hx.afterwards (hcount (· - 1))

theorem search (y : Symbol) : Appends (search y) fun _ => True := by
  refine currentScope.bind fun scope _ => ofQuiet fun m => ?_
  cases m.scopes.stranded scope y <;> rfl

theorem resolve (y : Symbol) : Appends (resolve y) fun _ => True := by
  have hget : Appends (get : Exec Machine) fun _ => True := ofQuiet fun _ => rfl
  exact (search y).bind fun scope _ => hget.bind fun m _ => pure trivial

theorem declare (y : Symbol) (b : Binding) : Appends (declare y b) fun _ => True := by
  refine currentScope.bind fun scope _ => ofQuiet fun m => ?_
  cases m.scopes.declare scope y b <;> rfl

theorem rebind (y : Symbol) (b : Binding) : Appends (rebind y b) fun _ => True := by
  refine (search y).bind fun scope _ => ofQuiet fun m => ?_
  cases m.scopes.rebind scope y b <;> rfl

theorem print (text : String) (l : Location) : Appends (print text l) fun _ => True :=
  fun m => ⟨⟨text, m.adds_print text l⟩, fun _ _ _ => trivial⟩

end Appends

/-- Every run only adds to the output. -/
def appendingLogic (limits : Limits) : NameLogic limits where
  Holds := Appends
  pure := .pure
  bind := .bind
  fault _ := .fault _ _
  Bound _ _ := True
  Fn _ := True
  Def _ := True
  bound_var _ _ := trivial
  bound_declared _ _ _ := trivial
  bound_define _ _ _ := trivial
  fn_of_bound _ _ := trivial
  resolve y m := ⟨(Appends.resolve y m).adds, fun _ _ _ _ _ => trivial⟩
  declare _ := .declare _ _
  rebind _ := .rebind _ _
  definitions _ _ _ := trivial
  missingDeclaration _ := .fault _ _
  secondBody _ := .fault _ _
  inInnerScope hx := Appends.currentScope.bind fun parent _ => hx.inNewScope parent
  checkDepth name l := .ofQuiet fun m => by
    rw [checkDepth_eq]
    split <;> rfl
  log _ := .ofQuiet fun _ => rfl
  escaped _ _ := .ofStop fun _ => rfl
  print := .print
  inCall hx := (hx.inNewScope _).inCall
  outOfFuel := .ofStop fun _ => rfl

theorem adds_eval (limits : Limits) (fuel : Nat) (e : Expr) (m : Machine) :
    ∃ added, m.Adds (final (eval (enter limits fuel) e m)) added :=
  let L := (appendingLogic limits).toLogic
  (L.eval (L.enter fuel) e m).adds

theorem adds_run (limits : Limits) (fuel : Nat) (s : Stmt) (m : Machine) :
    ∃ added, m.Adds (final (run limits fuel (enter limits fuel) s m)) added :=
  let L := (appendingLogic limits).toLogic
  (L.run (L.enter fuel) fuel s (fun _ _ => trivial) m).adds

/-! ## Prints -/

/-- Expressions evaluated one behind the other from `m` on, up to one that stops, with what each
    of them added to the output. -/
inductive Evaluates (enter : Enter) : Machine → List Expr → List String →
    Except Stop (List Value) → Machine → Prop where
  | none {m : Machine} : Evaluates enter m [] [] (.ok []) m
  | stops {m q : Machine} {e : Expr} {es : List Expr} {stop : Stop} {added : String} :
      eval enter e m = .error stop q → m.Adds q added →
      Evaluates enter m (e :: es) [added] (.error stop) q
  | goesOn {m q r : Machine} {e : Expr} {es : List Expr} {v : Value} {added : String}
      {others : List String} {result : Except Stop (List Value)} :
      eval enter e m = .ok v q → m.Adds q added → Evaluates enter q es others result r →
      Evaluates enter m (e :: es) (added :: others) (result.map (v :: ·)) r

theorem Evaluates.adds {enter : Enter} {m q : Machine} {es : List Expr} {added : List String}
    {result : Except Stop (List Value)} (h : Evaluates enter m es added result q) :
    m.Adds q (String.join added) := by
  induction h with
  | none => exact Machine.adds_of_eq rfl
  | stops _ hadded =>
    rw [String.join_cons, String.join_nil, String.append_empty]
    exact hadded
  | goesOn _ hadded _ ih =>
    rw [String.join_cons]
    exact hadded.trans ih

/-- Arguments are evaluated one behind the other. -/
theorem evaluates_evalAll {enter : Enter}
    (henter : ∀ e (m : Machine), ∃ added, m.Adds (final (eval enter e m)) added) :
    ∀ (es : List Expr) (m : Machine), ∃ added,
      Evaluates enter m es added (outcome (evalAll enter es m)) (final (evalAll enter es m))
  | [], m => ⟨[], .none⟩
  | e :: es, m => by
    obtain ⟨added, hadded⟩ := henter e m
    rw [evalAll]
    cases he : eval enter e m with
    | error stop q =>
      rw [he] at hadded
      rw [bind_error he]
      exact ⟨[added], .stops he hadded⟩
    | ok v q =>
      rw [he] at hadded
      obtain ⟨others, hothers⟩ := evaluates_evalAll henter es q
      have hall := Evaluates.goesOn he hadded hothers
      refine ⟨added :: others, ?_⟩
      rw [bind_ok he, bind_apply]
      cases hes : evalAll enter es q with
      | error stop r =>
        rw [hes] at hall
        exact hall
      | ok vs r =>
        rw [hes] at hall
        exact hall

/-- How a built-in operation ends that begins on `m`: it evaluates its arguments and then adds
    all of the text that they stand for, or it stops and adds nothing to what the arguments
    added. -/
inductive PrintsWhole (enter : Enter) (m : Machine) (name : String) (args : List Expr) :
    EStateM.Result Stop Machine Flow → Prop where
  | prints {vs : List Value} {printed : List String} {q r : Machine} {text : String} :
      args ≠ [] → name = printIntrinsic → Evaluates enter m args printed (.ok vs) q →
      formatted vs = .ok text → m.Adds r (String.join printed ++ text) →
      PrintsWhole enter m name args (.ok .done r)
  | stops {result : Except Stop (List Value)} {printed : List String} {q : Machine}
      {stop : Stop} :
      Evaluates enter m args printed result q → m.Adds q (String.join printed) →
      (args ≠ [] → name = printIntrinsic → ∀ vs text, result = .ok vs →
        formatted vs ≠ .ok text) →
      PrintsWhole enter m name args (.error stop q)

theorem printsWhole_run {limits : Limits} {fuel : Nat} {enter : Enter}
    (henter : ∀ e (m : Machine), ∃ added, m.Adds (final (eval enter e m)) added)
    (name : String) (args : List Expr) (l : Location) (m : Machine) :
    PrintsWhole enter m name args (run limits fuel enter (.intrinsic name args l) m) := by
  have hrun : run limits fuel enter (.intrinsic name args l) m =
      (runIntrinsic enter name args l >>= fun _ => pure Flow.done) m := by rw [run]
  obtain ⟨printed, hargs⟩ := evaluates_evalAll henter args m
  rw [hrun, bind_apply, runIntrinsic]
  by_cases hnone : args.isEmpty
  · -- The operation stops before it evaluates anything.
    obtain rfl : args = [] := List.isEmpty_iff.mp hnone
    exact .stops .none (Machine.adds_of_eq rfl) fun h => absurd rfl h
  rw [if_neg hnone, bind_apply]
  cases hall : evalAll enter args m with
  | error stop q =>
    rw [hall] at hargs
    exact .stops hargs hargs.adds nofun
  | ok vs q =>
    rw [hall] at hargs
    -- What the arguments added is there already; the text is recorded as a whole or not at all.
    by_cases hname : name = printIntrinsic
    · dsimp only
      rw [if_pos hname]
      cases htext : formatted vs with
      | error cause =>
        refine .stops hargs hargs.adds ?_
        rintro - - _ text ⟨⟩ hok
        rw [htext] at hok
        cases hok
      | ok text =>
        have hsome : args ≠ [] := fun h => hnone (List.isEmpty_iff.mpr h)
        exact .prints hsome hname hargs htext (hargs.adds.trans (q.adds_print text l))
    · dsimp only
      rw [if_neg hname]
      exact .stops hargs hargs.adds fun _ h => absurd h hname

/-- The output only grows, however a statement or an expression ends; and a print is all or
    nothing. -/
theorem output_grows_prints_whole (limits : Limits) (fuel : Nat) (m : Machine) :
    (∀ s, ∃ added, m.Adds (final (run limits fuel (enter limits fuel) s m)) added) ∧
    (∀ e, ∃ added, m.Adds (final (eval (enter limits fuel) e m)) added) ∧
    ∀ name args l, PrintsWhole (enter limits fuel) m name args
      (run limits fuel (enter limits fuel) (.intrinsic name args l) m) :=
  ⟨fun s => adds_run limits fuel s m, fun e => adds_eval limits fuel e m,
    fun name args l => printsWhole_run (adds_eval limits fuel) name args l m⟩

end Exec
end PocketC
