/-
  PocketC.Proofs.Output.Delivery

  What is printed is delivered once and in order.  Prints and deliveries may come in any
  order, and every delivery may break off at any entry: what the writers took so far,
  followed by what is still recorded, is always everything that was printed.

  The step lemma is that of one delivery (`deliver_text`): it cuts the recorded entries in
  two, writes the front part and keeps the other.  That a later print may be joined to an
  entry that was kept does not matter, since both sides are texts one after the other.
-/

import PocketC.Output.Transcript

namespace PocketC

/-! ## Where a delivery breaks off -/

/-- How many writes a writer has to accept for these entries; an empty text needs none. -/
def Entry.writes (es : List Entry) : Nat := es.countP (·.text ≠ "")

theorem Entry.writes_cons_of_eq {e : Entry} (h : e.text = "") (es : List Entry) :
    Entry.writes (e :: es) = Entry.writes es :=
  List.countP_cons_of_neg (by simpa using h)

theorem Entry.writes_cons_of_ne {e : Entry} (h : e.text ≠ "") (es : List Entry) :
    Entry.writes (e :: es) = Entry.writes es + 1 :=
  List.countP_cons_of_pos (by simpa using h)

namespace Budget

theorem deliver_cons_none {b : Budget} {e : Entry} (h : b.spend e.text = none) (es : List Entry) :
    b.deliver (e :: es) = ([], e :: es) := by
  rw [deliver, h]

theorem deliver_cons_some {b b' : Budget} {e : Entry} (h : b.spend e.text = some b')
    (es : List Entry) :
    b.deliver (e :: es) = (e :: (b'.deliver es).1, (b'.deliver es).2) := by
  rw [deliver, h]

/-- A writer takes everything if it accepts a write for every entry that needs one; else it breaks
    off at an entry that needs one, when all its writes are spent. -/
theorem deliver_left (b : Budget) (es : List Entry) :
    match (b.deliver es).2 with
    | [] => ∀ n, b = some n → Entry.writes es ≤ n
    | refused :: _ => refused.text ≠ "" ∧ b = some (Entry.writes (b.deliver es).1) := by
  -- every entry that needs a write takes one off the budget of those behind it
  induction es generalizing b with
  | nil => exact fun n _ => Nat.zero_le n
  | cons e es ih =>
      by_cases he : e.text = ""
      · rw [deliver_cons_some (if_pos he), Entry.writes_cons_of_eq he, Entry.writes_cons_of_eq he]
        exact ih b
      · rw [Entry.writes_cons_of_ne he]
        match b with
        | none =>
            have hspend : Budget.spend none e.text = some none := if_neg he
            have hrest := ih none
            rw [deliver_cons_some hspend]
            dsimp only
            split
            · exact nofun
            · rename_i hleft
              rw [hleft] at hrest
              cases hrest.2
        | some (n + 1) =>
            have hspend : Budget.spend (some (n + 1)) e.text = some (some n) := if_neg he
            have hrest := ih (some n)
            rw [deliver_cons_some hspend, Entry.writes_cons_of_ne he]
            dsimp only
            split
            · rename_i hleft
              rw [hleft] at hrest
              rintro _ ⟨⟩
              exact Nat.succ_le_succ (hrest n rfl)
            · rename_i hleft
              rw [hleft] at hrest
              exact ⟨hrest.1, congrArg (Option.map (· + 1)) hrest.2⟩
        | some 0 =>
            have hspend : Budget.spend (some 0) e.text = none := if_neg he
            rw [deliver_cons_none hspend]
            exact ⟨he, rfl⟩

end Budget

namespace Transcript

variable (t : Transcript) (b : Budget)

/-- What a writer took, and the entries that stay recorded. -/
theorem entries_deliver : (b.deliver t.entries).1 ++ (t.deliver b).left.entries = t.entries := by
  have hleft : (t.deliver b).left.entries = (b.deliver t.entries).2 := List.reverse_reverse _
  rw [hleft]
  exact b.deliver_append t.entries

/-- A delivery loses nothing. -/
theorem deliver_text : (t.deliver b).written ++ (t.deliver b).left.text = t.text := by
  have hwritten : (t.deliver b).written = textOf (b.deliver t.entries).1 := rfl
  rw [hwritten, text, ← textOf_append, entries_deliver, text]

/-! ## Histories -/

/-- What is done with a transcript. -/
inductive Use where
  | print (text : String) (l : Location)
  | deliver (b : Budget)

/-- What is printed by it. -/
def Use.printed : Use → String
  | .print text _ => text
  | .deliver _ => ""

/-- A transcript, and everything that writers took from it. -/
structure History where
  written : String
  transcript : Transcript

namespace History

/-- A transcript that was not used yet. -/
def new : History := ⟨"", .new⟩

/-- After one more use. -/
def step (h : History) : Use → History
  | .print text l => { h with transcript := h.transcript.print text l }
  | .deliver b =>
    let d := h.transcript.deliver b
    ⟨h.written ++ d.written, d.left⟩

/-- After some more uses. -/
def after (h : History) (uses : List Use) : History := uses.foldl step h

/-- Everything that was ever printed. -/
def output (h : History) : String := h.written ++ h.transcript.text

/-- One use adds to the output what it prints. -/
theorem output_step (h : History) (u : Use) : (h.step u).output = h.output ++ u.printed := by
  cases u with
  | print text l =>
      show h.written ++ (h.transcript.print text l).text = h.written ++ h.transcript.text ++ text
      rw [text_print, String.append_assoc]
  | deliver b =>
      -- what the writer took moves to the other side of the cut
      show h.written ++ (h.transcript.deliver b).written ++ (h.transcript.deliver b).left.text =
        h.written ++ h.transcript.text ++ ""
      rw [String.append_assoc, deliver_text, String.append_empty]

/-- Any uses add to the output what they print, one after the other. -/
theorem output_after (h : History) (uses : List Use) :
    (h.after uses).output = h.output ++ String.join (uses.map Use.printed) := by
  induction uses generalizing h with
  | nil => exact String.append_empty.symm
  | cons u uses ih =>
      have hrest : (h.after (u :: uses)).output = _ := ih (h.step u)
      rw [hrest, output_step, List.map_cons, String.join_cons, String.append_assoc]

end History

/-- However prints and deliveries follow each other, everything printed was taken by a writer or is
    still recorded, once and in order.  A delivery takes the entries from the front on: all of them
    if the writer accepts enough writes, and else those in front of the first that it refused,
    which stays recorded with all behind it. -/
theorem printed_text_delivered_once :
    (∀ uses : List Use, (History.new.after uses).written ++ (History.new.after uses).transcript.text
      = String.join (uses.map Use.printed)) ∧
    ∀ (t : Transcript) (b : Budget), ∃ taken : List Entry,
      (t.deliver b).written = textOf taken ∧ t.entries = taken ++ (t.deliver b).left.entries ∧
      match (t.deliver b).ok with
      | true => (t.deliver b).left = .new ∧ ∀ n, b = some n → Entry.writes t.entries ≤ n
      | false => ∃ refused behind, (t.deliver b).left.entries = refused :: behind ∧
        refused.text ≠ "" ∧ b = some (Entry.writes taken) := by
  refine ⟨fun uses => ?_, fun t b => ⟨(b.deliver t.entries).1, rfl, ?_, ?_⟩⟩
  · exact (History.new.output_after uses).trans String.empty_append
  · exact (entries_deliver t b).symm
  · have hleft := b.deliver_left t.entries
    have hok : (t.deliver b).ok = (b.deliver t.entries).2.isEmpty := rfl
    have hentries : (t.deliver b).left = ⟨(b.deliver t.entries).2.reverse⟩ := rfl
    rw [hok, hentries]
    cases h : (b.deliver t.entries).2 with
    | nil =>
        rw [h] at hleft
        exact ⟨rfl, hleft⟩
    | cons refused behind =>
        rw [h] at hleft
        exact ⟨refused, behind, List.reverse_reverse _, hleft⟩

/-- A print is joined to an entry that was refused; the next writer takes both, and the empty entry
    behind them, with one write. -/
example :
    let h := History.new.after [.print "a" ⟨1, 1⟩, .deliver (some 0), .print "b" ⟨1, 9⟩,
      .print "" ⟨2, 1⟩, .print "c" ⟨3, 1⟩, .deliver (some 1)]
    h.written = "ab" ∧ h.transcript.entries = [⟨"c", ⟨3, 1⟩⟩] := by
  decide

end Transcript
end PocketC
