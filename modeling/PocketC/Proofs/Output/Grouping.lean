/-
  PocketC.Proofs.Output.Grouping

  Recorded entries are runs of prints.  A print is joined to the newest entry where both
  stand on one line of the source, and a delivery takes entries from the other end, so
  that neighbours never stand on one line.  Without deliveries the entries are the prints
  split into their longest runs on one line, and nothing depends on the order of joining:
  going through the prints from the front is how the splitting goes, too.
-/

import Mathlib.Data.List.SplitBy
import PocketC.Proofs.Output.Delivery

namespace PocketC

/-! ## Runs -/

/-- Whether two prints stand on one line of the source. -/
def Entry.sameLine (e f : Entry) : Bool := e.location.line == f.location.line

/-- The entry of a run of prints: their texts one behind the other, at the place of the first. -/
def Entry.join (run : List Entry) : Entry :=
  ⟨Transcript.textOf run, (run.head?.map (·.location)).getD .start⟩

theorem Entry.join_singleton (e : Entry) : Entry.join [e] = e := by
  simp [join, Transcript.textOf]

/-- One more print makes the text of a run longer. -/
theorem Entry.join_concat {run : List Entry} (hrun : run ≠ []) (e : Entry) :
    Entry.join (run ++ [e]) = ⟨(Entry.join run).text ++ e.text, (Entry.join run).location⟩ := by
  obtain ⟨first, others, rfl⟩ := List.exists_cons_of_ne_nil hrun
  simp [join, Transcript.textOf, String.append_assoc]

/-- An entry of prints on one line stands on that line. -/
theorem Entry.line_join {run : List Entry} (hrun : run ≠ []) {line : Nat}
    (h : ∀ e ∈ run, e.location.line = line) : (Entry.join run).location.line = line := by
  obtain ⟨first, others, rfl⟩ := List.exists_cons_of_ne_nil hrun
  exact h first List.mem_cons_self

namespace Transcript

variable {t u : Transcript}

/-- The transcript after some prints. -/
def printAll (t : Transcript) (prints : List Entry) : Transcript :=
  prints.foldl (fun t e => t.print e.text e.location) t

theorem print_of_eq {e : Entry} {es : List Entry} {text : String} {l : Location}
    (h : e.location.line = l.line) :
    print ⟨e :: es⟩ text l = ⟨⟨e.text ++ text, e.location⟩ :: es⟩ :=
  if_pos h

theorem print_of_ne {e : Entry} {es : List Entry} {text : String} {l : Location}
    (h : e.location.line ≠ l.line) : print ⟨e :: es⟩ text l = ⟨⟨text, l⟩ :: e :: es⟩ :=
  if_neg h

/-- Printing goes as splitting goes.  The newest entry is the run that is not yet finished, of which
    `last` is the newest print and `front` has the others, the newest in front. -/
theorem entries_printAll_loop (prints : List Entry) : ∀ (last : Entry) (front : List Entry)
    (older : List (List Entry)), (∀ e ∈ front, e.location.line = last.location.line) →
    (printAll ⟨Entry.join (last :: front).reverse :: older.map Entry.join⟩ prints).entries =
      (List.splitBy.loop Entry.sameLine prints last front older).map Entry.join := by
  induction prints with
  | nil =>
      intro last front older _
      rw [List.splitBy.loop, List.map_reverse, List.map_cons]
      rfl
  | cons e prints ih =>
      intro last front older hfront
      have hrun : (last :: front).reverse ≠ [] := by simp
      have hline : (Entry.join (last :: front).reverse).location.line = last.location.line := by
        refine Entry.line_join hrun fun f hf => ?_
        rcases List.mem_cons.mp (List.mem_reverse.mp hf) with rfl | hf
        · rfl
        · exact hfront f hf
      rw [List.splitBy.loop, printAll, List.foldl_cons]
      cases hsame : last.sameLine e with
      | true =>
          -- the print is joined to the newest entry, as it is added to the run
          have heq : last.location.line = e.location.line := by
            rwa [Entry.sameLine, beq_iff_eq] at hsame
          rw [print_of_eq (hline.trans heq), ← Entry.join_concat hrun, ← List.reverse_cons]
          refine ih e (last :: front) older fun f hf => ?_
          rcases List.mem_cons.mp hf with rfl | hf
          · exact heq
          · exact (hfront f hf).trans heq
      | false =>
          -- the run is finished, and the print begins another
          have hne : last.location.line ≠ e.location.line := by
            rwa [Entry.sameLine, beq_eq_false_iff_ne] at hsame
          rw [print_of_ne (hline ▸ hne)]
          exact ih e [] ((last :: front).reverse :: older) nofun

theorem entries_printAll (prints : List Entry) :
    (new.printAll prints).entries = (prints.splitBy Entry.sameLine).map Entry.join := by
  cases prints with
  | nil => rfl
  | cons e prints => exact entries_printAll_loop prints e [] [] nofun

/-! ## Neighbours -/

/-- A transcript that prints and deliveries left.  Of a delivery it matters only that it takes
    entries from the front: however a writer fails, what it did not take stays. -/
inductive Recorded : Transcript → Prop where
  | new : Recorded .new
  | print {t : Transcript} : Recorded t → ∀ text l, Recorded (t.print text l)
  | deliver {t u : Transcript} : Recorded t → u.entries <:+ t.entries → Recorded u

/-- Neighbours among the entries stand on different lines. -/
def Apart (t : Transcript) : Prop :=
  t.entries.IsChain fun e f => e.location.line ≠ f.location.line

theorem apart_iff {newest : List Entry} :
    Apart ⟨newest⟩ ↔ newest.IsChain fun e f => f.location.line ≠ e.location.line :=
  List.isChain_reverse

/-- A print changes no place, or it stands on another line than the newest entry. -/
theorem Apart.print (ht : t.Apart) (text : String) (l : Location) : (t.print text l).Apart := by
  obtain ⟨newest⟩ := t
  rw [apart_iff] at ht
  cases newest with
  | nil => exact apart_iff.mpr (List.isChain_singleton _)
  | cons e es =>
      by_cases h : e.location.line = l.line
      · rw [print_of_eq h, apart_iff]
        exact List.isChain_cons.mpr (List.isChain_cons.mp ht)
      · rw [print_of_ne h, apart_iff]
        exact List.isChain_cons_cons.mpr ⟨h, ht⟩

theorem Recorded.apart (h : t.Recorded) : t.Apart := by
  induction h with
  | new => exact List.isChain_nil
  | print _ text l ih => exact ih.print text l
  | deliver _ hleft ih => exact List.IsChain.suffix ih hleft

theorem History.recorded_after (uses : List Use) : ∀ {h : History}, h.transcript.Recorded →
    (h.after uses).transcript.Recorded := by
  induction uses with
  | nil => exact id
  | cons u uses ih =>
      intro h hrecorded
      refine ih (h := h.step u) ?_
      cases u with
      | print text l => exact hrecorded.print text l
      | deliver b => exact hrecorded.deliver ⟨_, entries_deliver h.transcript b⟩

/-- However prints and deliveries follow each other, neighbours among the entries stand on different
    lines of the source.  Prints alone are recorded as their longest runs on one line, each as one
    entry with all its texts, empty ones as well, and the place of its first print. -/
theorem entries_are_runs :
    (∀ t : Transcript, t.Recorded →
      t.entries.IsChain fun e f => e.location.line ≠ f.location.line) ∧
    (∀ uses : List Use, (History.new.after uses).transcript.Recorded) ∧
    ∀ prints : List Entry,
      (new.printAll prints).entries = (prints.splitBy Entry.sameLine).map Entry.join :=
  ⟨fun _ h => h.apart, fun uses => History.recorded_after uses .new, entries_printAll⟩

/-- A writer refuses the second of two entries, another print is joined to it, and one follows on
    the line of the first. -/
theorem entries_are_runs_refused :
    let uses : List Use := [.print "" ⟨1, 5⟩, .print "a" ⟨1, 9⟩, .print "b" ⟨2, 5⟩,
      .deliver (some 1), .print "c" ⟨2, 9⟩, .print "" ⟨1, 5⟩]
    let t := (History.new.after uses).transcript
    let prints : List Entry := [⟨"", ⟨1, 5⟩⟩, ⟨"a", ⟨1, 9⟩⟩, ⟨"b", ⟨2, 5⟩⟩, ⟨"", ⟨1, 5⟩⟩]
    t.Recorded ∧ t.entries = [⟨"bc", ⟨2, 5⟩⟩, ⟨"", ⟨1, 5⟩⟩] ∧
      (t.entries.IsChain fun e f => e.location.line ≠ f.location.line) ∧
      (new.printAll prints).entries = [⟨"a", ⟨1, 5⟩⟩, ⟨"b", ⟨2, 5⟩⟩, ⟨"", ⟨1, 5⟩⟩] := by
  intro uses t prints
  obtain ⟨hapart, hrecorded, hruns⟩ := entries_are_runs
  have ht : t.Recorded := hrecorded uses
  exact ⟨ht, rfl, hapart t ht, (hruns prints).trans rfl⟩

end Transcript
end PocketC
