/-
  PocketC.Proofs.Output.Values

  A value has two texts: the one that shows all of it, and its printed form, which not
  every value has.  Where there is a printed form the two are the same, for arrays in
  arrays as well; and there is none exactly if something that has no printed form is
  contained in the value, however deep.
-/

import PocketC.Proofs.Output.Formats
import PocketC.Proofs.Run.Steps

namespace PocketC

/-! ## What occurs in a value -/

namespace Value

/-- The value is `part`, or an array in which `part` occurs at some depth. -/
inductive OccursIn (part : Value) : Value → Prop where
  | self : OccursIn part part
  | element {v : Value} {es : List Value} : v ∈ es → OccursIn part v → OccursIn part (.array es)

variable {part : Value}

theorem leavesAll_eq_flatMap (vs : List Value) : leavesAll vs = vs.flatMap leaves := by
  induction vs with
  | nil => rfl
  | cons v vs ih => rw [leavesAll, ih, List.flatMap_cons]

mutual

theorem occursIn_of_mem_leaves : ∀ v : Value, part ∈ v.leaves → OccursIn part v
  | .array es, h => by
    rw [leaves] at h
    obtain ⟨v, hv, hpart⟩ := occursIn_of_mem_leavesAll es h
    exact .element hv hpart
  | .int _, h | .char _, h | .string _, h | .void, h | .uninitialized, h => by
    rw [leaves, List.mem_singleton] at h
    · rw [h]
      exact .self
    · exact nofun

theorem occursIn_of_mem_leavesAll : ∀ vs : List Value, part ∈ leavesAll vs →
    ∃ v ∈ vs, OccursIn part v
  | v :: vs, h => by
    rw [leavesAll] at h
    rcases List.mem_append.mp h with h | h
    · exact ⟨v, List.mem_cons_self, occursIn_of_mem_leaves v h⟩
    · obtain ⟨w, hw, hpart⟩ := occursIn_of_mem_leavesAll vs h
      exact ⟨w, List.mem_cons_of_mem v hw, hpart⟩

end

theorem mem_leaves_of_occursIn {v : Value} (hpart : part.leaves = [part])
    (h : OccursIn part v) : part ∈ v.leaves := by
  induction h with
  | self =>
    rw [hpart]
    exact List.mem_singleton_self part
  | element hv _ ih =>
    rw [leaves, leavesAll_eq_flatMap]
    exact List.mem_flatMap_of_mem hv ih

/-- A value can be printed if nothing in it is left unset or was never returned. -/
theorem printable_iff_occursIn {v : Value} :
    v.Printable ↔ ¬OccursIn .void v ∧ ¬OccursIn .uninitialized v := by
  have hvoid : .void ∈ v.leaves ↔ OccursIn .void v :=
    ⟨occursIn_of_mem_leaves v, mem_leaves_of_occursIn rfl⟩
  have huninitialized : .uninitialized ∈ v.leaves ↔ OccursIn .uninitialized v :=
    ⟨occursIn_of_mem_leaves v, mem_leaves_of_occursIn rfl⟩
  rw [Printable, hvoid, huninitialized]

end Value

namespace Format

open Value (OccursIn)

variable {v : Value}

/-! ## Printed forms -/

theorem printed_eq_ok_iff {cs : List Char} :
    printed v = .ok cs ↔ v.Printable ∧ cs = v.text.toList := by
  rw [printed_eq, Value.printable_iff]
  cases v.leaves.find? Value.isHole with
  | none => simp [eq_comm]
  | some part => simp

/-- What is reported is a part of the value that has no printed form. -/
theorem occursIn_of_printed_error {e : ExpandError} (h : printed v = .error e) :
    ∃ part, e = .unprintable part ∧ (part = .void ∨ part = .uninitialized) ∧ OccursIn part v := by
  rw [printed_eq] at h
  cases hpart : v.leaves.find? Value.isHole with
  | none =>
    rw [hpart] at h
    cases h
  | some part =>
    rw [hpart] at h
    cases h
    have hhole : part.isHole = true := List.find?_some hpart
    have hmem : part ∈ v.leaves := List.mem_of_find?_eq_some hpart
    exact ⟨part, rfl, Value.isHole_iff.mp hhole, Value.occursIn_of_mem_leaves v hmem⟩

/-! ## Placeholders -/

/-- A text without braces is a format that stands for itself. -/
theorem splits_plain {cs : List Char} (h : ∀ c ∈ cs, c ≠ '{' ∧ c ≠ '}') :
    Splits (cs.map .char) cs := by
  induction cs with
  | nil => exact .nil
  | cons c cs ih =>
    obtain ⟨hopen, hclose⟩ := h c List.mem_cons_self
    exact .cons (.char hopen hclose) (ih fun d hd => h d (List.mem_cons_of_mem c hd))

theorem Splits.append {ss ts : List Segment} {w x : List Char} (hs : Splits ss w)
    (ht : Splits ts x) : Splits (ss ++ ts) (w ++ x) := by
  induction hs with
  | nil => exact ht
  | cons h _ ih =>
    rw [List.append_assoc]
    exact .cons h ih

theorem standFor_plain {args : List Value} (cs : List Char) : ∀ used,
    StandFor args used (cs.map .char) cs := by
  induction cs with
  | nil => exact fun _ => .nil
  | cons c cs ih => exact fun used => .cons (.char c) (ih _)

/-- The value is printed between the texts around its placeholder. -/
theorem expand_placeholder (hv : v.Printable) (front back : List Char)
    (h : ∀ c ∈ front ++ back, c ≠ '{' ∧ c ≠ '}') :
    expand (String.ofList (front ++ ['{', '}'] ++ back)) [v] =
      .ok (String.ofList (front ++ v.text.toList ++ back)) := by
  have hfront := splits_plain fun c hc => h c (List.mem_append_left back hc)
  have hback := splits_plain fun c hc => h c (List.mem_append_right front hc)
  have hsplits : Splits (front.map .char ++ .next :: back.map .char)
      (front ++ (['{', '}'] ++ back)) := hfront.append (.cons .next hback)
  have hnext : StandFor [v] 0 (.next :: back.map .char) (v.text.toList ++ back) :=
    .cons (.argument rfl rfl hv) (standFor_plain back _)
  have hargs : [v].length ≤ indexLimit := by
    show 1 ≤ indexLimit
    decide
  -- no argument is taken in front of the placeholder
  have htaken : taken (front.map .char) = 0 := by
    rw [taken, List.count_eq_zero]
    intro hmem
    obtain ⟨c, _, hc⟩ := List.mem_map.mp hmem
    cases hc
  have hexpand := expandFrom_standFor hargs (standFor_plain front 0) (.next :: back.map .char)
  have hrest := expandFrom_standFor hargs hnext []
  rw [htaken] at hexpand
  rw [List.append_nil] at hrest
  have hsegments := segments_splits hsplits []
  simp only [List.append_nil, segments] at hsegments
  rw [expand, String.toList_ofList, List.append_assoc, hsegments, hexpand, hrest, expandFrom]
  simp [Except.map]

/-- A value has a printed form exactly if neither Void nor anything that was never assigned
    occurs in it, at any depth, and its printed form is its text.  Otherwise such a part is
    reported.  So a placeholder stands for the text of its argument, and printing it prints that
    text. -/
theorem printed_as_text (v : Value) :
    ((∃ cs, printed v = .ok cs) ↔ ¬OccursIn .void v ∧ ¬OccursIn .uninitialized v) ∧
    (∀ cs, printed v = .ok cs → cs = v.text.toList) ∧
    (∀ e, printed v = .error e → ∃ part, e = .unprintable part ∧
      (part = .void ∨ part = .uninitialized) ∧ OccursIn part v) ∧
    (¬OccursIn .void v ∧ ¬OccursIn .uninitialized v →
      (∀ front back : List Char, (∀ c ∈ front ++ back, c ≠ '{' ∧ c ≠ '}') →
        expand (String.ofList (front ++ ['{', '}'] ++ back)) [v] =
          .ok (String.ofList (front ++ v.text.toList ++ back))) ∧
      ∀ enter format e l m q,
        Exec.evalAll enter [format, e] m = .ok [.string "\x7b\x7d", v] q →
        Exec.runIntrinsic enter printIntrinsic [format, e] l m = Exec.print v.text l q) := by
  refine ⟨?_, fun cs h => (printed_eq_ok_iff.mp h).2, fun e => occursIn_of_printed_error, ?_⟩
  · rw [← Value.printable_iff_occursIn]
    simp only [printed_eq_ok_iff, exists_and_left, exists_eq, and_true]
  · rw [← Value.printable_iff_occursIn]
    intro hv
    refine ⟨expand_placeholder hv, ?_⟩
    intro enter format e l m q hargs
    have hexpand := expand_placeholder hv [] [] nofun
    have hformatted : Exec.formatted [.string "\x7b\x7d", v] = .ok v.text := by
      simp only [List.nil_append, List.append_nil, String.ofList_toList] at hexpand
      have htext : expand "\x7b\x7d" [v] = .ok v.text := hexpand
      rw [Exec.formatted, htext]
    refine (Exec.bind_ok hargs).trans ?_
    rw [if_pos rfl, hformatted]
    exact Exec.bind_ok rfl

/-- An array of arrays, one of them empty, is printed from its literal; with an element that was
    never assigned, two arrays down, it has no printed form. -/
theorem printed_as_text_nested :
    let v : Value := .array [.int 1, .array [.array [.string "a, b"], .array []], .char '-']
    let literal : Expr := .array [.int 1 .start, .array [.array [.string "a, b" .start] .start,
      .array [] .start] .start, .char '-' .start] .start
    let format : Expr := .string "\x7b\x7d" .start
    let enter : Enter := fun _ _ _ => Exec.outOfFuel
    let m : Machine := .new (.new none)
    (¬OccursIn .void v ∧ ¬OccursIn .uninitialized v) ∧
      expand "<\x7b\x7d>" [v] = .ok "<[1, [[a, b], []], -]>" ∧
      Exec.evalAll enter [format, literal] m = .ok [.string "\x7b\x7d", v] m ∧
      Exec.runIntrinsic enter printIntrinsic [format, literal] .start m =
        Exec.print "[1, [[a, b], []], -]" .start m ∧
      ¬∃ cs, printed (.array [.int 1, .array [.array [.uninitialized]]]) = .ok cs := by
  intro v literal format enter m
  obtain ⟨hprinted, _, _, hplaceholder⟩ := printed_as_text v
  have hv : ¬OccursIn .void v ∧ ¬OccursIn .uninitialized v := hprinted.mp ⟨_, rfl⟩
  have hargs : Exec.evalAll enter [format, literal] m = .ok [.string "\x7b\x7d", v] m := rfl
  obtain ⟨hexpand, hrun⟩ := hplaceholder hv
  have htext : v.text = "[1, [[a, b], []], -]" := rfl
  have hangled := hexpand ['<'] ['>'] (by simp)
  have hprint := hrun enter format literal .start m m hargs
  rw [htext] at hangled hprint
  refine ⟨hv, hangled, hargs, hprint, ?_⟩
  intro hprinted
  have hfree := ((printed_as_text _).1.mp hprinted).2
  have hinner : OccursIn .uninitialized (.array [.array [.uninitialized]]) :=
    .element List.mem_cons_self (.element List.mem_cons_self .self)
  exact hfree (.element (List.mem_cons_of_mem _ List.mem_cons_self) hinner)

end Format
end PocketC
