/-
  PocketC.Proofs.Run.Arithmetic

  What expressions without variables and calls evaluate to: literals, operators between them
  and minus signs.  The numbers are those of unbounded arithmetic as long as every one of them
  fits a word.  The operations are done in the order in which they are written without
  parentheses when each operator stands behind its operands, and the first one that cannot be
  done is the one that is reported.
-/

import PocketC.Proofs.Run.Steps

namespace PocketC

/-! ## Operations -/

namespace Operation

/-- What an operation gives in unbounded arithmetic.  Quotients are truncated toward zero, and a
    comparison is 1 where it holds and 0 elsewhere. -/
def exact : Operation → Int
  | .negate a => -a
  | .binary .add a b => a + b
  | .binary .sub a b => a - b
  | .binary .mul a b => a * b
  | .binary .div a b => a.tdiv b
  | .binary .rem a b => a.tmod b
  | .binary .eq a b => if a = b then 1 else 0
  | .binary .ne a b => if a ≠ b then 1 else 0
  | .binary .lt a b => if a < b then 1 else 0
  | .binary .le a b => if a ≤ b then 1 else 0
  | .binary .gt a b => if a > b then 1 else 0
  | .binary .ge a b => if a ≥ b then 1 else 0

/-- The number that has to fit a word: of a remainder it is the quotient. -/
def extent : Operation → Int
  | .binary .rem a b => a.tdiv b
  | o => o.exact

/-- What the operation divides by. -/
def divisor? : Operation → Option Int
  | .binary .div _ b | .binary .rem _ b => some b
  | _ => none

/-- Whether the operation can be done with words. -/
def Defined (o : Operation) : Prop := o.divisor? ≠ some 0 ∧ FitsWord o.extent

instance (o : Operation) : Decidable o.Defined := inferInstanceAs (Decidable (_ ∧ _))

/-- What is reported of an operation that cannot be done. -/
def failure (o : Operation) : FaultCause :=
  if o.divisor? = some 0 then .divisionByZero o else .overflow o

/-- What comes of an operation. -/
def attempt (o : Operation) : Except FaultCause Value :=
  if o.Defined then .ok (.int o.exact) else .error o.failure

theorem attempt_eq (o : Operation) : o.attempt =
    if o.divisor? = some 0 then .error (.divisionByZero o)
    else if FitsWord o.extent then .ok (.int o.exact)
    else .error (.overflow o) := by
  unfold attempt failure
  by_cases hdivisor : o.divisor? = some 0
  · have hdefined : ¬o.Defined := fun h => h.1 hdivisor
    rw [if_pos hdivisor, if_neg hdefined, if_pos hdivisor]
  · have hdefined : o.Defined ↔ FitsWord o.extent := and_iff_right hdivisor
    rw [if_neg hdivisor, if_neg hdivisor]
    simp only [hdefined]

end Operation

theorem fitsWord_ite (p : Prop) [Decidable p] : FitsWord (if p then 1 else 0) := by
  split <;> decide

/-- A remainder is no farther from zero than its dividend, and on the same side. -/
theorem fitsWord_tmod {a : Int} (ha : FitsWord a) (b : Int) : FitsWord (a.tmod b) := by
  have hle : (a.tmod b).natAbs ≤ a.natAbs := by
    rw [Int.natAbs_tmod]
    exact Nat.mod_le _ _
  unfold FitsWord minWord maxWord at *
  by_cases hneg : a ≤ 0
  · have hsign := Int.tmod_nonneg b (Int.neg_nonneg_of_nonpos hneg)
    rw [Int.neg_tmod] at hsign
    omega
  · omega

/-- What an operation gives fits a word, where the operation can be done. -/
theorem Operation.Defined.fitsWord {o : Operation} (h : o.Defined)
    (hleft : ∀ a b, o = .binary .rem a b → FitsWord a) : FitsWord o.exact := by
  match o with
  | .binary .rem a b => exact fitsWord_tmod (hleft a b rfl) b
  | .negate _ => exact h.2
  | .binary .add _ _ | .binary .sub _ _ | .binary .mul _ _ | .binary .div _ _ => exact h.2
  | .binary .eq _ _ | .binary .ne _ _ | .binary .lt _ _ | .binary .le _ _ | .binary .gt _ _
  | .binary .ge _ _ => exact h.2

/-- An operator does with two numbers what is done in unbounded arithmetic, where that fits. -/
theorem BinaryOp.compute_eq (op : BinaryOp) (a b : Int) :
    op.compute a b = (Operation.binary op a b).attempt := by
  rw [Operation.attempt_eq]
  cases op with
  | add | sub | mul => rfl
  | div | rem =>
      simp only [Operation.divisor?, Option.some.injEq]
      rfl
  | eq | ne | lt | le | gt | ge =>
      simp only [compute, Value.ofBool, Operation.divisor?, Operation.extent, Operation.exact,
        beq_iff_eq, bne_iff_ne, decide_eq_true_eq, fitsWord_ite, if_true, reduceCtorEq, if_false]

theorem BinaryOp.apply_eq (op : BinaryOp) {v w : Value} {a b : Int} (hv : v.number? = some a)
    (hw : w.number? = some b) : op.apply v w = (Operation.binary op a b).attempt := by
  unfold apply Value.toNumber
  rw [hv, hw]
  exact op.compute_eq a b

theorem Value.negate_eq {v : Value} {a : Int} (hv : v.number? = some a) :
    v.negate = (Operation.negate a).attempt := by
  unfold negate toNumber
  rw [hv]
  exact (Operation.negate a).attempt_eq.symm

/-! ## Expressions -/

namespace Expr

/-- Literals, operators between them and minus signs. -/
inductive Arithmetic : Expr → Prop where
  | int {n : Int} (l : Location) (fits : FitsWord n) : Arithmetic (.int n l)
  | char (c : Char) (l : Location) : Arithmetic (.char c l)
  | binary (op : BinaryOp) {left right : Expr} (l : Location) (hleft : Arithmetic left)
      (hright : Arithmetic right) : Arithmetic (.binary op left right l)
  | negate {operand : Expr} (l : Location) (hoperand : Arithmetic operand) :
      Arithmetic (.negate operand l)

/-- The number that an expression stands for in unbounded arithmetic. -/
def exact : Expr → Int
  | .int n _ => n
  | .char c _ => c.toNat
  | .binary op left right _ => (Operation.binary op left.exact right.exact).exact
  | .negate operand _ => (Operation.negate operand.exact).exact
  | _ => 0

/-- The number as a value: a char literal alone stays a char. -/
def exactValue : Expr → Value
  | .char c _ => .char c
  | e => .int e.exact

/-- The operations of an expression with the places of their nodes, the operands' before the
    operator's and the left operand's before the right one's. -/
def operations : Expr → List (Operation × Location)
  | .binary op left right l =>
    left.operations ++ right.operations ++ [(.binary op left.exact right.exact, l)]
  | .negate operand l => operand.operations ++ [(.negate operand.exact, l)]
  | _ => []

/-- The first operation that cannot be done. -/
def failing? (e : Expr) : Option (Operation × Location) :=
  e.operations.find? fun n => !decide n.1.Defined

variable {e : Expr}

theorem failing?_binary (op : BinaryOp) (left right : Expr) (l : Location) :
    (binary op left right l).failing? = (left.failing?.or right.failing?).or
      ([(.binary op left.exact right.exact, l)].find? fun n => !decide n.1.Defined) := by
  simp only [failing?, operations, List.find?_append]

theorem failing?_negate (operand : Expr) (l : Location) :
    (negate operand l).failing? = operand.failing?.or
      ([(.negate operand.exact, l)].find? fun n => !decide n.1.Defined) := by
  simp only [failing?, operations, List.find?_append]

theorem failing?_eq_none : e.failing? = none ↔ ∀ n ∈ e.operations, n.1.Defined := by
  simp [failing?]

theorem Arithmetic.number (h : e.Arithmetic) : e.exactValue.number? = some e.exact := by
  cases h <;> rfl

theorem Arithmetic.fitsWord (h : e.Arithmetic) (hdefined : ∀ n ∈ e.operations, n.1.Defined) :
    FitsWord e.exact := by
  induction h with
  | int l fits => exact fits
  | char c l =>
      have hc : c.val.toNat.isValidChar := c.valid
      unfold Nat.isValidChar at hc
      unfold FitsWord minWord maxWord exact Char.toNat
      omega
  | binary op l left right ihl ihr =>
      simp only [operations, List.forall_mem_append, List.forall_mem_singleton] at hdefined
      refine hdefined.2.fitsWord fun a b ho => ?_
      cases ho
      exact ihl hdefined.1.1
  | negate l operand ih =>
      simp only [operations, List.forall_mem_append, List.forall_mem_singleton] at hdefined
      exact hdefined.2.fitsWord nofun

/-- An expression gives its number where all of its operations can be done, and elsewhere the
    failure of the first that cannot. -/
def Computes (enter : Enter) (e : Expr) (m : Machine) : Prop :=
  Exec.eval enter e m = match e.failing? with
    | none => .ok e.exactValue m
    | some (o, l) => .error (.fault ⟨o.failure, l⟩) m

end Expr

namespace Exec

variable {enter : Enter} {e : Expr} {m : Machine}

theorem eval_of_defined (h : e.Computes enter m) (hnone : e.failing? = none) :
    eval enter e m = .ok e.exactValue m := by
  rw [h, hnone]

theorem eval_of_failing (h : e.Computes enter m) {o : Operation} {l : Location}
    (hsome : e.failing? = some (o, l)) : eval enter e m = .error (.fault ⟨o.failure, l⟩) m := by
  rw [h, hsome]

/-- An operation whose operands were computed. -/
theorem ofExcept_attempt (o : Operation) (l : Location) (m : Machine) :
    ofExcept o.attempt l m = match [(o, l)].find? fun n => !decide n.1.Defined with
      | none => .ok (.int o.exact) m
      | some (o, l) => .error (.fault ⟨o.failure, l⟩) m := by
  unfold Operation.attempt
  by_cases h : o.Defined
  · simp [h, ofExcept, pure_apply]
  · simp [h, ofExcept, fault]

theorem computes (enter : Enter) (he : e.Arithmetic) (m : Machine) : e.Computes enter m := by
  induction he with
  | int l fits => rfl
  | char c l => rfl
  | @binary op left right l hleft hright ihl ihr =>
      rw [Expr.Computes, eval, Expr.failing?_binary]
      cases hl : left.failing? with
      | some n => exact bind_error (eval_of_failing ihl hl)
      | none =>
          rw [bind_ok (eval_of_defined ihl hl)]
          cases hr : right.failing? with
          | some n => exact bind_error (eval_of_failing ihr hr)
          | none =>
              rw [bind_ok (eval_of_defined ihr hr), op.apply_eq hleft.number hright.number]
              exact ofExcept_attempt _ l m
  | @negate operand l hoperand ih =>
      rw [Expr.Computes, eval, Expr.failing?_negate]
      cases ho : operand.failing? with
      | some n => exact bind_error (eval_of_failing ih ho)
      | none =>
          rw [bind_ok (eval_of_defined ih ho), Value.negate_eq hoperand.number]
          exact ofExcept_attempt _ l m

end Exec

/-- Arithmetic is exact.  An expression of literals, operators and minus signs changes nothing.  It
    gives a value just where every operation can be done: where no divisor is zero and every
    result, and the quotient behind every remainder, fits a word.  The value is then the number of
    unbounded arithmetic.  Elsewhere the first operation that cannot be done is reported, at its
    node: as a division by zero where its divisor is zero, and as an overflow where it is not. -/
theorem eval_exact (enter : Enter) {e : Expr} (he : e.Arithmetic) (m : Machine) :
    ((∃ v q, Exec.eval enter e m = .ok v q) ↔ ∀ n ∈ e.operations, n.1.Defined) ∧
    (∀ v q, Exec.eval enter e m = .ok v q →
      q = m ∧ v.number? = some e.exact ∧ FitsWord e.exact) ∧
    (∀ before o l after, e.operations = before ++ (o, l) :: after →
      (∀ n ∈ before, n.1.Defined) → ¬o.Defined →
      ∃ cause, Exec.eval enter e m = .error (.fault ⟨cause, l⟩) m ∧
        (o.divisor? = some 0 → cause = .divisionByZero o) ∧
        (o.divisor? ≠ some 0 → cause = .overflow o)) := by
  have hcomputes := Exec.computes enter he m
  have hok : (∃ v q, Exec.eval enter e m = .ok v q) ↔ ∀ n ∈ e.operations, n.1.Defined := by
    rw [← Expr.failing?_eq_none]
    refine ⟨fun ⟨v, q, h⟩ => ?_, fun hnone => ⟨_, _, Exec.eval_of_defined hcomputes hnone⟩⟩
    cases hfirst : e.failing? with
    | none => rfl
    | some n =>
        rw [Exec.eval_of_failing hcomputes hfirst] at h
        cases h
  refine ⟨hok, fun v q h => ?_, fun before o l after hops hbefore ho => ?_⟩
  · have hdefined := hok.mp ⟨v, q, h⟩
    rw [Exec.eval_of_defined hcomputes (Expr.failing?_eq_none.mpr hdefined)] at h
    cases h
    exact ⟨rfl, he.number, he.fitsWord hdefined⟩
  · have hfirst : e.failing? = some (o, l) := by
      rw [Expr.failing?, List.find?_eq_some_iff_append]
      exact ⟨by simpa using ho, before, after, hops, by simpa using hbefore⟩
    exact ⟨o.failure, Exec.eval_of_failing hcomputes hfirst, fun h => if_pos h,
      fun h => if_neg h⟩

/-- The remainder of the least number by -1 is zero, but the quotient is too great for a word. -/
theorem eval_exact_remainder :
    let l := Location.start
    let e : Expr := .binary .rem (.int minWord l) (.negate (.int 1 l) l) l
    let m := Machine.new (.new none)
    e.Arithmetic ∧ e.exact = 0 ∧ Exec.eval (Exec.enter .standard 0) e m =
      .error (.fault ⟨.overflow (.binary .rem minWord (-1)), l⟩) m := by
  intro l e m
  have he : e.Arithmetic := .binary .rem l (.int l (by decide)) (.negate l (.int l (by decide)))
  obtain ⟨_, _, hfails⟩ := eval_exact (Exec.enter .standard 0) he m
  obtain ⟨cause, heval, _, hcause⟩ := hfails [(.negate 1, l)] (.binary .rem minWord (-1)) l [] rfl
    (by decide) (by decide)
  rw [hcause (by decide)] at heval
  exact ⟨he, by decide, heval⟩

end PocketC
