/-
  PocketC.Proofs.Grammar.Prompt.Basic

  Prompt readings.  A reading is prompt if it decides by the next token alone, whatever is
  behind it: what it has read is a row of its language, what it has read when it meets
  an unexpected token is the front of one, and it ends the same way in every parser
  that goes on with the same token behind what it has read.

  That is a statement about two readings at once, since the same reading has another
  bound where another number of tokens is left.  `size` is how many tokens may be left
  for the first of them, and `room` is how many for the second.
-/

import PocketC.Proofs.Grammar.Forms

namespace PocketC

/-! ## Parsers that go on alike -/

namespace Parser

/-- The parser `q'` goes on as `q` does, as far as the next token tells. -/
structure Alike (q q' : Parser) : Prop where
  openLoops : q'.openLoops = q.openLoops
  token : q'.cursor.peek 0 = q.cursor.peek 0

theorem Alike.refl (q : Parser) : q.Alike q := ⟨rfl, rfl⟩

theorem Alike.next {q q' : Parser} (h : q.Alike q') : q'.next = q.next :=
  congrArg Token.kind h.token

theorem Alike.prepend {q q' : Parser} (h : q.Alike q') (w : List Token) :
    (q.prepend w).Alike (q'.prepend w) := by
  cases w with
  | nil => exact h
  | cons t ts => exact ⟨h.openLoops, rfl⟩

/-- Behind the same tokens, at least one, nothing else is asked of the next token. -/
theorem alike_prepend_concat {q q' : Parser} (h : q'.openLoops = q.openLoops) (v : List Token)
    (t : Token) : (q.prepend (v ++ [t])).Alike (q'.prepend (v ++ [t])) := by
  cases v with
  | nil => exact ⟨h, rfl⟩
  | cons u us => exact ⟨h, rfl⟩

end Parser

/-- Whether another kind of token had to stand where the reading stopped. -/
def Misfit.isUnexpected : Misfit → Bool
  | .unexpected .. => true
  | _ => false

/-- The row does not reach the end of the input. -/
def Inside (w : List Token) : Prop := ∀ t ∈ w, t.kind ≠ .endOfInput

theorem inside_nil : Inside [] := nofun

theorem inside_singleton {t : Token} (h : t.kind ≠ .endOfInput) : Inside [t] := by
  intro u hu
  rw [List.mem_singleton.mp hu]
  exact h

theorem Inside.append {v w : List Token} (hv : Inside v) (hw : Inside w) : Inside (v ++ w) :=
  fun t ht => (List.mem_append.mp ht).elim (hv t) (hw t)

/-- The error is about this token. -/
def ParseError.About (e : ParseError) (t : Token) : Prop :=
  e.location = t.location ∧ match e.cause with
    | .unexpected _ found _ => t.kind = found
    | .jumpOutsideLoop keyword => t.kind = keyword
    | .unreadableLiteral kind text => t.kind = kind ∧ t.text = text

namespace Parse

variable {α β : Type} {loops size room : Nat} {L L' : Rows α} {M : Rows β}
  {x x' y y' : Parse α} {f g : α → Parse β} {p : Parser}

/-! ## Prompt endings -/

/-- How a prompt reading of `p` ends, and how `y` ends where there are no more than `room` tokens
    and what is read here is in front. -/
inductive PromptEnd (room : Nat) (L : Rows α) (y : Parse α) (p : Parser) :
    EStateM.Result ParseError Parser α → Prop where
  | ok {a : α} {q : Parser} (w : List Token) (front : p = q.prepend w)
      (inside : Inside w) (row : L a w)
      (again : ∀ q' : Parser, q.Alike q' → (q'.prepend w).cursor.length ≤ room →
        y (q'.prepend w) = .ok a q') : PromptEnd room L y p (.ok a q)
  | unexpected {k : Kind} {q : Parser} (w : List Token) (front : p = q.prepend w)
      (inside : Inside w) (viable : ∃ a v, L a (w ++ v))
      (again : ∀ q' : Parser, q.Alike q' → (q'.prepend w).cursor.length ≤ room →
        y (q'.prepend w) = .error (q'.cursor.mismatch k) q') :
      PromptEnd room L y p (.error (q.cursor.mismatch k) q)
  | blamed {e : ParseError} {q : Parser} (w : List Token) (t : Token)
      (front : p = q.prepend (w ++ [t])) (inside : Inside (w ++ [t]))
      (about : e.About t) (read : e.cause.isUnexpected = false)
      (again : ∀ q' : Parser, q'.openLoops = q.openLoops →
        (q'.prepend (w ++ [t])).cursor.length ≤ room → y (q'.prepend (w ++ [t])) = .error e q') :
      PromptEnd room L y p (.error e q)

/-- Reading `p` by `x` is prompt, and `y` ends alike. -/
def PromptAt (room : Nat) (L : Rows α) (x y : Parse α) (p : Parser) : Prop :=
  PromptEnd room L y p (x p)

namespace PromptAt

/-- With room enough, the second reading ends as the first one does. -/
theorem eq (h : PromptAt room L x y p) (hlen : p.cursor.length ≤ room) : y p = x p := by
  unfold PromptAt at h
  generalize x p = r at h
  cases h with
  | @ok a q w front inside row again =>
      subst front
      exact again q (.refl q) hlen
  | @unexpected k q w front inside viable again =>
      subst front
      exact again q (.refl q) hlen
  | @blamed e q w t front inside about read again =>
      subst front
      exact again q rfl hlen

theorem pure {a : α} (h : L a []) : PromptAt room L (pure a) (pure a) p :=
  PromptEnd.ok [] rfl inside_nil h fun _ _ _ => rfl

theorem unexpected (k : Kind) (h : ∃ a w, L a w) :
    PromptAt room L (unexpected k) (unexpected k) p :=
  PromptEnd.unexpected [] rfl inside_nil h fun _ _ _ => rfl

theorem mono (h : PromptAt room L x y p) (hL : ∀ a w, L a w → L' a w) :
    PromptAt room L' x y p := by
  unfold PromptAt at *
  generalize x p = r at h
  cases h with
  | ok w front inside row again => exact .ok w front inside (hL _ _ row) again
  | unexpected w front inside viable again =>
      obtain ⟨a, v, hv⟩ := viable
      exact .unexpected w front inside ⟨a, v, hL _ _ hv⟩ again
  | blamed w t front inside about read again => exact .blamed w t front inside about read again

theorem le {room' : Nat} (h : PromptAt room L x y p) (hle : room' ≤ room) :
    PromptAt room' L x y p := by
  unfold PromptAt at *
  generalize x p = r at h
  cases h with
  | ok w front inside row again =>
      exact .ok w front inside row fun q' hq hlen => again q' hq (Nat.le_trans hlen hle)
  | unexpected w front inside viable again =>
      exact .unexpected w front inside viable fun q' hq hlen => again q' hq (Nat.le_trans hlen hle)
  | blamed w t front inside about read again =>
      exact .blamed w t front inside about read fun q' hq hlen =>
        again q' hq (Nat.le_trans hlen hle)

/-- Only what the readings do where the next token is that of `p` matters. -/
theorem congr (h : PromptAt room L x' y' p) (hx : x p = x' p)
    (hy : ∀ p', p.Alike p' → p'.cursor.length ≤ room → y p' = y' p') :
    PromptAt room L x y p := by
  unfold PromptAt at *
  rw [hx]
  generalize x' p = r at h
  cases h with
  | ok w front inside row again =>
      refine .ok w front inside row fun q' hq hlen => ?_
      rw [hy _ (front ▸ hq.prepend w) hlen]
      exact again q' hq hlen
  | unexpected w front inside viable again =>
      refine .unexpected w front inside viable fun q' hq hlen => ?_
      rw [hy _ (front ▸ hq.prepend w) hlen]
      exact again q' hq hlen
  | blamed w t front inside about read again =>
      refine .blamed w t front inside about read fun q' hq hlen => ?_
      rw [hy _ (front ▸ Parser.alike_prepend_concat hq w t) hlen]
      exact again q' hq hlen

/-- Only what the readings do where a token of that kind is next matters. -/
theorem congrNext (h : PromptAt room L x' y' p) (hx : ∀ q : Parser, q.next = p.next → x q = x' q)
    (hy : ∀ q : Parser, q.next = p.next → y q = y' q) : PromptAt room L x y p :=
  h.congr (hx p rfl) fun q hq _ => hy q hq.next

/-- The second reading is prompt behind what the first has read, if it can be completed there. -/
theorem bind (hx : PromptAt room L x y p)
    (hf : ∀ a q w, x p = .ok a q → p = q.prepend w → L a w →
      PromptAt (room - w.length) (fun b v => M b (w ++ v)) (f a) (g a) q)
    (hM : ∀ a w, L a w → ∃ b v, M b (w ++ v)) : PromptAt room M (x >>= f) (y >>= g) p := by
  unfold PromptAt at *
  rw [bind_apply]
  generalize hxp : x p = r at hx
  cases hx with
  | @ok a q w front inside row again =>
      have hsecond := hf a q w hxp front row
      -- both rows are in front of what the second reading leaves
      have hroom : ∀ {q' : Parser} {v : List Token},
          (q'.prepend (w ++ v)).cursor.length ≤ room →
          (q'.prepend v).cursor.length ≤ room - w.length := by
        intro q' v h
        simp only [Parser.length_prepend, List.length_append] at h ⊢
        omega
      dsimp only
      generalize hfq : f a q = r at hsecond
      cases hsecond with
      | @ok b q' v front' inside' row' again' =>
          refine .ok (w ++ v) (by simp [front, front']) (inside.append inside') row' ?_
          intro s hs hlen
          rw [← Parser.prepend_prepend] at hlen ⊢
          rw [bind_ok (again _ (front' ▸ hs.prepend v) hlen)]
          exact again' s hs (hroom (by simpa using hlen))
      | @unexpected k q' v front' inside' viable again' =>
          obtain ⟨b, u, hu⟩ := viable
          refine .unexpected (w ++ v) (by simp [front, front']) (inside.append inside')
            ⟨b, u, by rw [List.append_assoc]; exact hu⟩ ?_
          intro s hs hlen
          rw [← Parser.prepend_prepend] at hlen ⊢
          rw [bind_ok (again _ (front' ▸ hs.prepend v) hlen)]
          exact again' s hs (hroom (by simpa using hlen))
      | @blamed e q' v t front' inside' about read again' =>
          refine .blamed (w ++ v) t (by simp [front, front']) ?_ about read ?_
          · rw [List.append_assoc]
            exact inside.append inside'
          intro s hs hlen
          rw [List.append_assoc, ← Parser.prepend_prepend] at hlen ⊢
          rw [bind_ok (again _ (front' ▸ Parser.alike_prepend_concat hs v t) hlen)]
          exact again' s hs (hroom (by simpa using hlen))
  | @unexpected k q w front inside viable again =>
      -- the front is completed first for `x`, and then for what is behind it
      obtain ⟨a, v, hv⟩ := viable
      obtain ⟨b, u, hu⟩ := hM a _ hv
      refine .unexpected w front inside ⟨b, v ++ u, by rw [← List.append_assoc]; exact hu⟩ ?_
      intro s hs hlen
      rw [bind_apply, again s hs hlen]
  | @blamed e q w t front inside about read again =>
      refine .blamed w t front inside about read ?_
      intro s hs hlen
      rw [bind_apply, again s hs hlen]

theorem token {k : Kind} (hk : k ≠ .endOfInput) :
    PromptAt room (fun t w => t.kind = k ∧ w = [t]) (expect k) (expect k) p := by
  unfold PromptAt
  by_cases hp : p.next = k
  · have hfront := Parser.eq_prepend_of_next (p := p) (by rwa [hp])
    have hread : Parse.expect k p = .ok (p.cursor.peek 0) { p with cursor := p.cursor.skip } := by
      rw [hfront]
      exact expect_prepend [] hp
    rw [hread]
    have hinside : (p.cursor.peek 0).kind ≠ .endOfInput := fun h => hk (hp.symm.trans h)
    exact .ok [p.cursor.peek 0] hfront (inside_singleton hinside) ⟨hp, rfl⟩
      fun q' _ _ => expect_prepend [] hp
  · rw [expect_of_ne hp]
    refine .unexpected [] rfl inside_nil ⟨⟨k, none, .start⟩, [_], rfl, rfl⟩ fun q' hq _ => ?_
    apply expect_of_ne
    rw [Parser.prepend_nil, hq.next]
    exact hp

/-- What is read begins with the next token. -/
theorem first {P : Token → Prop} (h : PromptAt room L x y p) (hne : ∀ a w, L a w → w ≠ [])
    (hp : P (p.cursor.peek 0)) (hsome : ∃ a t w, P t ∧ L a (t :: w)) :
    PromptAt room (fun a w => L a w ∧ ∃ t ts, w = t :: ts ∧ P t) x y p := by
  unfold PromptAt at *
  generalize x p = r at h
  cases h with
  | ok w front inside row again =>
      refine .ok w front inside ⟨row, ?_⟩ again
      cases w with
      | nil => exact absurd rfl (hne _ _ row)
      | cons t ts =>
          rw [front] at hp
          exact ⟨t, ts, rfl, hp⟩
  | unexpected w front inside viable again =>
      refine .unexpected w front inside ?_ again
      -- if nothing was read, the completion has to begin with such a token
      cases w with
      | nil =>
          obtain ⟨a, t, v, ht, hv⟩ := hsome
          exact ⟨a, t :: v, hv, t, v, rfl, ht⟩
      | cons t ts =>
          obtain ⟨a, v, hv⟩ := viable
          rw [front] at hp
          exact ⟨a, v, hv, t, ts ++ v, rfl, hp⟩
  | blamed w t front inside about read again => exact .blamed w t front inside about read again

/-- A step that sees the next token and nothing else. -/
theorem look {look : Parse α} (see : Token → α)
    (hlook : ∀ p, look p = .ok (see (p.cursor.peek 0)) p)
    (h : PromptAt room M (f (see (p.cursor.peek 0))) (g (see (p.cursor.peek 0))) p) :
    PromptAt room M (look >>= f) (look >>= g) p := by
  refine h.congr (bind_ok (hlook p)) fun p' hp' _ => ?_
  rw [bind_ok (hlook p'), hp'.token]

end PromptAt

/-! ## Prompt readings -/

/-- The readings are prompt wherever so many loops are open and no more than `size` tokens are
    left, and there is something to be read. -/
structure Prompt (loops size room : Nat) (L : Rows α) (x y : Parse α) : Prop where
  reads : ∀ p : Parser, p.openLoops = loops → p.cursor.length ≤ size → PromptAt room L x y p
  some : ∃ a w, L a w

namespace Prompt

theorem pure {a : α} (h : L a []) : Prompt loops size room L (pure a) (pure a) where
  reads _ _ _ := .pure h
  some := ⟨a, [], h⟩

theorem mono (h : Prompt loops size room L x y) (hL : ∀ a w, L a w → L' a w) :
    Prompt loops size room L' x y where
  reads p hp hlen := (h.reads p hp hlen).mono hL
  some := by
    obtain ⟨a, w, hw⟩ := h.some
    exact ⟨a, w, hL a w hw⟩

theorem le {size' room' : Nat} (h : Prompt loops size room L x y) (hsize : size' ≤ size)
    (hroom : room' ≤ room) : Prompt loops size' room' L x y where
  reads p hp hlen := (h.reads p hp (Nat.le_trans hlen hsize)).le hroom
  some := h.some

/-- Behind what the first reading has read, there is so much less to read. -/
theorem bind (hx : Prompt loops size room L x y)
    (hf : ∀ a w, L a w → Prompt loops (size - w.length) (room - w.length)
      (fun b v => M b (w ++ v)) (f a) (g a)) :
    Prompt loops size room M (x >>= f) (y >>= g) where
  reads p hp hlen := by
    refine (hx.reads p hp hlen).bind ?_ fun a w hw => (hf a w hw).some
    rintro a q w - rfl hw
    rw [Parser.length_prepend] at hlen
    exact (hf a w hw).reads q hp (by omega)
  some := by
    obtain ⟨a, w, hw⟩ := hx.some
    obtain ⟨b, v, hv⟩ := (hf a w hw).some
    exact ⟨b, w ++ v, hv⟩

/-- Behind a token of kind `k`. -/
theorem expect {k : Kind} {f g : Token → Parse α} (hk : k ≠ .endOfInput)
    (hf : ∀ t : Token, t.kind = k →
      Prompt loops (size - 1) (room - 1) (fun a w => L a (t :: w)) (f t) (g t)) :
    Prompt loops size room L (expect k >>= f) (expect k >>= g) := by
  have htoken : Prompt loops size room (fun t w => t.kind = k ∧ w = [t]) (Parse.expect k)
      (Parse.expect k) := ⟨fun _ _ _ => .token hk, ⟨k, none, .start⟩, [_], rfl, rfl⟩
  refine htoken.bind ?_
  rintro t _ ⟨ht, rfl⟩
  exact hf t ht

/-- A choice between two readings by the kind of the next token. -/
theorem byNext {k : Kind} {x₁ x₂ y₁ y₂ : Parse α} (h₁ : Prompt loops size room L x₁ y₁)
    (h₂ : Prompt loops size room L x₂ y₂) (hx₁ : ∀ p : Parser, p.next = k → x p = x₁ p)
    (hx₂ : ∀ p : Parser, p.next ≠ k → x p = x₂ p) (hy₁ : ∀ p : Parser, p.next = k → y p = y₁ p)
    (hy₂ : ∀ p : Parser, p.next ≠ k → y p = y₂ p) : Prompt loops size room L x y where
  reads p hp hlen := by
    by_cases hnext : p.next = k
    · exact (h₁.reads p hp hlen).congrNext (fun q hq => hx₁ q (hq.trans hnext))
        fun q hq => hy₁ q (hq.trans hnext)
    · exact (h₂.reads p hp hlen).congrNext (fun q hq => hx₂ q (hq ▸ hnext))
        fun q hq => hy₂ q (hq ▸ hnext)
  some := h₁.some

/-- A choice by the next token, which is read if it is of kind `k`. -/
theorem accept {k : Kind} {f g : Bool → Parse α} (hk : k ≠ .endOfInput)
    (htaken : ∀ t : Token, t.kind = k →
      Prompt loops (size - 1) (room - 1) (fun a w => L a (t :: w)) (f true) (g true))
    (hleft : Prompt loops size room L (f false) (g false)) :
    Prompt loops size room L (accept k >>= f) (accept k >>= g) := by
  have htrue : ∀ (h : Bool → Parse α) (p : Parser), p.next = k →
      (Parse.accept k >>= h) p = (Parse.expect k >>= fun _ => h true) p := by
    intro h p hp
    have hfront := Parser.eq_prepend_of_next (p := p) (by rwa [hp])
    rw [hfront, bind_ok (accept_prepend [] hp), bind_ok (expect_prepend [] hp)]
  have hread := Prompt.expect (f := fun _ => f true) (g := fun _ => g true) hk htaken
  exact hread.byNext hleft (htrue f) (fun _ hp => bind_ok (accept_of_ne hp)) (htrue g)
    fun _ hp => bind_ok (accept_of_ne hp)

/-- A choice by the next token that leaves it. -/
theorem sees {k : Kind} {f g : Bool → Parse α} (hseen : Prompt loops size room L (f true) (g true))
    (hnot : Prompt loops size room L (f false) (g false)) :
    Prompt loops size room L (sees k 0 >>= f) (sees k 0 >>= g) where
  reads p hp hlen := by
    refine .look (fun t => t.kind == k) (fun _ => rfl) ?_
    cases (p.cursor.peek 0).kind == k with
    | true => exact hseen.reads p hp hlen
    | false => exact hnot.reads p hp hlen
  some := hnot.some

/-- A reading inside of a loop opens the loop and closes it again. -/
theorem insideLoop (h : Prompt (loops + 1) size room L x y) :
    Prompt loops size room L (insideLoop x) (insideLoop y) where
  reads p hp hlen := by
    have hinner := h.reads { p with openLoops := p.openLoops + 1 } (congrArg (· + 1) hp) hlen
    obtain ⟨s, n⟩ := p
    unfold PromptAt at *
    unfold Parse.insideLoop
    dsimp only at hinner ⊢
    generalize x ⟨s, n + 1⟩ = r at hinner
    cases hinner with
    | @ok a q w front inside row again =>
        obtain ⟨d, m⟩ := q
        cases front
        refine .ok w rfl inside row fun q' hq hlen => ?_
        obtain ⟨d', m'⟩ := q'
        cases hq.openLoops
        exact insideLoop_prepend (again ⟨d', n + 1⟩ ⟨rfl, hq.token⟩ hlen)
    | @unexpected k q w front inside viable again =>
        obtain ⟨d, m⟩ := q
        cases front
        refine .unexpected (k := k) (q := ⟨d, n⟩) w rfl inside viable fun q' hq hlen => ?_
        obtain ⟨d', m'⟩ := q'
        cases hq.openLoops
        exact insideLoop_prepend (again ⟨d', n + 1⟩ ⟨rfl, hq.token⟩ hlen)
    | @blamed e q w t front inside about read again =>
        obtain ⟨d, m⟩ := q
        cases front
        refine .blamed w t rfl inside about read fun q' hq hlen => ?_
        obtain ⟨d', m'⟩ := q'
        cases hq
        exact insideLoop_prepend (again ⟨d', n + 1⟩ rfl hlen)
  some := h.some

end Prompt

end Parse
end PocketC
