/-
  PocketC.Proofs.Grammar.Prompt.Lists

  Prompt readings with a bound: one reading for each bound, the next larger one made of
  it.  Two of them end alike whatever their bounds are, if these are at least the number
  of tokens left.  The lists of the grammar are such readings.
-/

import PocketC.Proofs.Grammar.Prompt.Basic

namespace PocketC

theorem Parser.next_of_length_le_zero {p : Parser} (h : p.cursor.length ≤ 0) :
    p.next = .endOfInput := by
  unfold Parser.next
  rw [Cursor.peek_of_length_le h]
  rfl

namespace Parse
namespace Prompt

variable {α : Type}

/-! ## Bounds -/

/-- Readings `x` and `y` that are made for each bound from those for the next smaller one.  Where
    no tokens are left a larger bound makes no difference, and elsewhere there is a token
    to be read. -/
theorem bounded {ι : Type} (b b' : Nat) (loops : ι → Nat) (L : ι → Rows α)
    (x y : Nat → ι → Parse α)
    (hend : ∀ n i (p p' : Parser), p.openLoops = loops i → p.cursor.length ≤ 0 → p.Alike p' →
      p'.cursor.length ≤ b' → y (n + 1) i p' = y n i p')
    (hzero : ∀ i, Prompt (loops i) 0 b' (L i) (x 0 i) (y 0 i))
    (hstep : ∀ n n', (∀ i, Prompt (loops i) (min n b) (min n' b') (L i) (x n i) (y n' i)) →
      ∀ i, Prompt (loops i) (min (n + 1) b) (min (n' + 1) b') (L i) (x (n + 1) i) (y (n' + 1) i)) :
    ∀ n n' i, Prompt (loops i) (min n b) (min n' b') (L i) (x n i) (y n' i) := by
  intro n
  induction n with
  | zero =>
      intro n' i
      refine ⟨fun p hp hlen => ?_, (hzero i).some⟩
      rw [Nat.zero_min] at hlen
      refine (((hzero i).reads p hp hlen).congr rfl fun p' hp' hlen' => ?_).le (Nat.min_le_right ..)
      -- no token is left for the first reading, and the bound of the second makes no difference
      induction n' with
      | zero => rfl
      | succ n' ih => exact (hend n' i p p' hp hlen hp' hlen').trans ih
  | succ n ih =>
      intro n' i
      cases n' with
      | succ n' => exact hstep n n' (ih n') i
      | zero =>
          -- the second reading has no room, and is compared as if its bound were one larger
          have hone := hstep n 0 (ih 0) i
          refine ⟨fun p hp hlen => ?_, hone.some⟩
          rw [Nat.zero_min]
          refine ((hone.reads p hp hlen).le (Nat.zero_le _)).congr rfl fun p' hp' hlen' => ?_
          exact (hend 0 i p' p' (hp'.openLoops.trans hp) hlen' (.refl p')
            (Nat.le_trans hlen' (Nat.zero_le _))).symm

/-! ## Lists -/

section
variable {L : Rows α} {x y : Parse α} {loops size room : Nat}
  (hitem : Prompt loops size room L x y) (hne : ∀ a w, L a w → w ≠ [])
include hitem hne

/-- With no tokens left there is no item to be read. -/
theorem error_of_end {p p' : Parser} (hp : p.openLoops = loops) (hlen : p.cursor.length ≤ 0)
    (hp' : p.Alike p') (hlen' : p'.cursor.length ≤ room) : ∃ e, y p' = .error e p' := by
  have hread := hitem.reads p hp (Nat.le_trans hlen (Nat.zero_le _))
  unfold PromptAt at hread
  generalize x p = r at hread
  cases hread with
  | ok w front inside row again =>
      rw [front, Parser.length_prepend] at hlen
      exact absurd (List.length_eq_zero_iff.mp (by omega)) (hne _ w row)
  | unexpected w front inside viable again =>
      rw [front, Parser.length_prepend] at hlen
      cases List.length_eq_zero_iff.mp (by omega : w.length = 0)
      cases front
      exact ⟨_, again p' hp' hlen'⟩
  | blamed w t front inside about read again =>
      rw [front, Parser.length_prepend, List.length_append] at hlen
      exact absurd hlen (by simp)

theorem sequence (n n' : Nat) : Prompt loops (min n size) (min n' room) (.Separated L)
    (sequence x n) (sequence y n') := by
  refine bounded size room (fun (_ : Unit) => loops) (fun _ => .Separated L)
    (fun n _ => Parse.sequence x n) (fun n _ => Parse.sequence y n) ?_ ?_ ?_ n n' ()
  · intro n _ p p' hp hlen hp' hlen'
    obtain ⟨e, he⟩ := hitem.error_of_end hne hp hlen hp' hlen'
    have hfail : ∀ n, Parse.sequence y n p' = .error e p' := by
      intro n
      cases n <;> rw [Parse.sequence, bind_apply, he]
    rw [hfail, hfail]
  · intro _
    rw [Parse.sequence, Parse.sequence]
    refine (hitem.le (Nat.zero_le _) (Nat.le_refl _)).bind fun a w ha => .pure ?_
    rw [List.append_nil]
    exact .one ha
  · intro n n' ih _
    have hrest := ih ()
    rw [Parse.sequence, Parse.sequence]
    refine (hitem.le (Nat.min_le_right ..) (Nat.min_le_right ..)).bind fun a w ha => ?_
    have hpos : 0 < w.length := List.length_pos_iff.mpr (hne a w ha)
    refine .accept (by decide) (fun comma hc => ?_) (.pure ?_)
    · refine (hrest.le (by omega) (by omega)).bind fun as v has => .pure ?_
      rw [List.append_nil]
      exact .more ha hc has
    · rw [List.append_nil]
      exact .one ha

theorem listUntil (stop : Kind) (n n' : Nat) :
    Prompt loops (min n size) (min n' room) (fun as w => as = [] ∧ w = [] ∨ L.Separated as w)
      (listUntil stop x n) (listUntil stop y n') := by
  refine .sees (.pure (.inl ⟨rfl, rfl⟩)) ?_
  exact (hitem.sequence hne n n').mono fun as w has => .inr has

theorem manyUntil (stop : Kind) (n n' : Nat) :
    Prompt loops (min n size) (min n' room) (.Repeated L)
      (manyUntil stop x n) (manyUntil stop y n') := by
  have hone : Prompt loops 0 room (.Repeated L) (do return [← x]) (do return [← y]) := by
    refine (hitem.le (Nat.zero_le _) (Nat.le_refl _)).bind fun a w ha => .pure ?_
    exact .cons ha .nil
  refine bounded size room (fun (_ : Unit) => loops) (fun _ => .Repeated L)
    (fun n _ => Parse.manyUntil stop x n) (fun n _ => Parse.manyUntil stop y n) ?_ ?_ ?_ n n' ()
  · intro n _ p p' hp hlen hp' hlen'
    obtain ⟨e, he⟩ := hitem.error_of_end hne hp hlen hp' hlen'
    have hsame : ∀ n, Parse.manyUntil stop y n p' =
        if p'.cursor.sees stop 0 then .ok [] p' else .error e p' := by
      intro n
      cases n <;> rw [Parse.manyUntil, bind_ok (sees_eq stop 0 p')] <;> split <;>
        first | rfl | rw [bind_apply, he]
    rw [hsame, hsame]
  · intro _
    rw [Parse.manyUntil, Parse.manyUntil]
    exact .sees (.pure .nil) hone
  · intro n n' ih _
    have hrest := ih ()
    rw [Parse.manyUntil, Parse.manyUntil]
    refine .sees (.pure .nil) ?_
    refine (hitem.le (Nat.min_le_right ..) (Nat.min_le_right ..)).bind fun a w ha => ?_
    have hpos : 0 < w.length := List.length_pos_iff.mpr (hne a w ha)
    refine (hrest.le (by omega) (by omega)).bind fun as v has => .pure ?_
    rw [List.append_nil]
    exact .cons ha has

end

end Prompt
end Parse
end PocketC
