/-
  PocketC.Proofs.Grammar.EndlessRow

  A row of tokens as an endless stream.  What can be done to a row while it is read is a
  `Reader`, and three of them are compared: the `Endless` stream itself, which knows no
  end and only counts how many of its tokens are listed, the `Cursor`, which holds the
  listed tokens that are left, and the `Index` into the whole list, which one of the two
  ways to move on leaves at the end of the list and the other takes past it.  The places
  differ, but each reader shows as the next one, and readers that show as each other
  answer alike, whatever they are asked and in whatever order.
-/

import Mathlib.Data.Stream.Init
import PocketC.Grammar.Cursor

namespace PocketC

/-! ## Readers -/

/-- What can be asked of a row of tokens. -/
inductive Request where
  | peek (offset : Nat)
  | sees (k : Kind) (offset : Nat)
  | take (k : Kind)
  | takeIf (k : Kind)
  | length
  | atEnd
  | restText

inductive Answer where
  | token (t : Token)
  | truth (b : Bool)
  | taken (t : Token)
  | refused (e : ParseError)
  | count (n : Nat)
  | text (s : String)

/-- A way to read a row of tokens.  A state of type `σ` is what is known of the row. -/
structure Reader (σ : Type) where
  peek (s : σ) (offset : Nat) : Token
  sees (s : σ) (k : Kind) (offset : Nat) : Bool
  take (s : σ) (k : Kind) : Except ParseError (Token × σ)
  takeIf (s : σ) (k : Kind) : Bool × σ
  length (s : σ) : Nat
  atEnd (s : σ) : Bool
  restText (s : σ) : String

namespace Reader

variable {σ τ υ : Type}

/-- The answer to a request, and the state after it. -/
def ask (o : Reader σ) (s : σ) : Request → Answer × σ
  | .peek offset => (.token (o.peek s offset), s)
  | .sees k offset => (.truth (o.sees s k offset), s)
  | .take k =>
    match o.take s k with
    | .ok (t, s') => (.taken t, s')
    | .error e => (.refused e, s)
  | .takeIf k => (.truth (o.takeIf s k).1, (o.takeIf s k).2)
  | .length => (.count (o.length s), s)
  | .atEnd => (.truth (o.atEnd s), s)
  | .restText => (.text (o.restText s), s)

/-- The state after some requests. -/
def after (o : Reader σ) (s : σ) (rs : List Request) : σ :=
  rs.foldl (fun s r => (o.ask s r).2) s

/-- The answers to some requests. -/
def answers (o : Reader σ) : σ → List Request → List Answer
  | _, [] => []
  | s, r :: rs => (o.ask s r).1 :: o.answers (o.ask s r).2 rs

/-- What a request removes from the listed tokens: the token that is moved over, unless all listed
    ones are read already. -/
def removed (o : Reader σ) (s : σ) (r : Request) : List Token :=
  if o.atEnd s then []
  else
    match r, (o.ask s r).1 with
    | .take _, .taken t => [t]
    | .takeIf _, .truth true => [o.peek s 0]
    | _, _ => []

def removedAll (o : Reader σ) : σ → List Request → List Token
  | _, [] => []
  | s, r :: rs => o.removed s r ++ o.removedAll (o.ask s r).2 rs

/-! ## One reader shown as another -/

/-- Every state of the reader `o` can be seen as one of `p` that answers alike, and stays so. -/
def Shows (o : Reader σ) (p : Reader τ) (view : σ → τ) : Prop :=
  ∀ s r, p.ask (view s) r = Prod.map id view (o.ask s r)

variable {o : Reader σ} {p : Reader τ} {q : Reader υ} {view : σ → τ} {view' : τ → υ}

theorem Shows.trans (h : o.Shows p view) (h' : p.Shows q view') : o.Shows q (view' ∘ view) :=
  fun s r => by rw [Function.comp_apply, h', h]; rfl

namespace Shows

variable (h : o.Shows p view)

include h

theorem answer (s : σ) (r : Request) : (p.ask (view s) r).1 = (o.ask s r).1 := by
  rw [h]; rfl

theorem state (s : σ) (r : Request) : (p.ask (view s) r).2 = view (o.ask s r).2 := by
  rw [h]; rfl

theorem after (rs : List Request) (s : σ) : p.after (view s) rs = view (o.after s rs) := by
  induction rs generalizing s with
  | nil => rfl
  | cons r rs ih =>
      have := ih (o.ask s r).2
      rwa [← h.state] at this

theorem answers (rs : List Request) (s : σ) : p.answers (view s) rs = o.answers s rs := by
  induction rs generalizing s with
  | nil => rfl
  | cons r rs ih => rw [Reader.answers, Reader.answers, h.answer, h.state, ih]

theorem peek (s : σ) (offset : Nat) : p.peek (view s) offset = o.peek s offset :=
  Answer.token.inj (h.answer s (.peek offset))

theorem atEnd (s : σ) : p.atEnd (view s) = o.atEnd s :=
  Answer.truth.inj (h.answer s .atEnd)

theorem removed (s : σ) (r : Request) : p.removed (view s) r = o.removed s r := by
  unfold Reader.removed
  rw [h.answer, h.peek, h.atEnd]

theorem removedAll (rs : List Request) (s : σ) :
    p.removedAll (view s) rs = o.removedAll s rs := by
  induction rs generalizing s with
  | nil => rfl
  | cons r rs ih => rw [Reader.removedAll, Reader.removedAll, h.removed, h.state, ih]

end Shows
end Reader

/-! ## The endless stream -/

/-- The place of the last token of a list, and the beginning of a text if there is none. -/
def Token.lastPlace (ts : List Token) : Location := (ts.getLast?.map (·.location)).getD .start

/-- A stream of tokens without an end, and how many of them are listed. -/
structure Endless where
  tokens : Stream' Token
  listed : Nat

namespace Endless

/-- The tokens of a list, and behind them the end of the input, again and again. -/
def ofTokens (ts : List Token) : Endless :=
  ⟨ts ++ₛ Stream'.const (.endAt (Token.lastPlace ts)), ts.length⟩

def head (e : Endless) : Token := e.tokens.head

/-- The stream without its head, whether that is listed or not. -/
def behind (e : Endless) : Endless := ⟨e.tokens.tail, e.listed - 1⟩

/-- The listed tokens. -/
def rest (e : Endless) : List Token := e.tokens.take e.listed

/-- Reading takes the head away, and nothing else changes the stream. -/
def reader : Reader Endless where
  peek e offset := e.tokens.get offset
  sees e k offset := (e.tokens.get offset).kind == k
  take e k :=
    if e.head.kind = k then .ok (e.head, e.behind)
    else .error ⟨.unexpected k e.head.kind e.rest, e.head.location⟩
  takeIf e k := if e.head.kind = k then (true, e.behind) else (false, e)
  length e := e.listed
  atEnd e := e.listed == 0
  restText e := Token.describeAll e.rest

variable {e : Endless} {k : Kind} {l : Location}

theorem ask_take_of_eq (h : e.head.kind = k) :
    reader.ask e (.take k) = (.taken e.head, e.behind) := by
  simp [Reader.ask, reader, h]

theorem ask_take_of_ne (h : e.head.kind ≠ k) :
    reader.ask e (.take k) =
      (.refused ⟨.unexpected k e.head.kind e.rest, e.head.location⟩, e) := by
  simp [Reader.ask, reader, h]

theorem ask_takeIf_of_eq (h : e.head.kind = k) :
    reader.ask e (.takeIf k) = (.truth true, e.behind) := by
  simp [Reader.ask, reader, h]

theorem ask_takeIf_of_ne (h : e.head.kind ≠ k) :
    reader.ask e (.takeIf k) = (.truth false, e) := by
  simp [Reader.ask, reader, h]

/-- A request leaves the stream as it is, or takes its head away. -/
theorem ask_snd (e : Endless) (r : Request) :
    (reader.ask e r).2 = e ∨ (reader.ask e r).2 = e.behind := by
  cases r with
  | take k =>
      by_cases h : e.head.kind = k
      · exact .inr (by rw [ask_take_of_eq h])
      · exact .inl (by rw [ask_take_of_ne h])
  | takeIf k =>
      by_cases h : e.head.kind = k
      · exact .inr (by rw [ask_takeIf_of_eq h])
      · exact .inl (by rw [ask_takeIf_of_ne h])
  | peek _ | sees _ _ | length | atEnd | restText => exact .inl rfl

/-- Behind the listed tokens is the end of the input at `l`, again and again. -/
def EndsAt (e : Endless) (l : Location) : Prop :=
  e.tokens.drop e.listed = Stream'.const (.endAt l)

/-- Where nothing is listed, the stream is the same behind its head. -/
theorem EndsAt.behind_eq (h : e.EndsAt l) (hlisted : e.listed = 0) : e.behind = e := by
  obtain ⟨tokens, listed⟩ := e
  obtain rfl : listed = 0 := hlisted
  obtain rfl : tokens = Stream'.const (.endAt l) := h
  exact congrArg (Endless.mk · 0) (Stream'.tail_const _)

theorem EndsAt.behind (h : e.EndsAt l) : e.behind.EndsAt l := by
  cases hlisted : e.listed with
  | zero => rwa [h.behind_eq hlisted]
  | succ n =>
      rw [EndsAt, hlisted] at h
      rw [EndsAt, Endless.behind, hlisted]
      exact h

theorem EndsAt.after (rs : List Request) (h : e.EndsAt l) : (reader.after e rs).EndsAt l := by
  induction rs generalizing e with
  | nil => exact h
  | cons r rs ih =>
      refine ih (e := (reader.ask e r).2) ?_
      rcases ask_snd e r with hr | hr <;> rw [hr]
      · exact h
      · exact h.behind

end Endless

/-! ## What reading a row is -/

section

variable {σ : Type} {o : Reader σ} {rest : σ → List Token} {view : σ → Endless} {start : σ}
  {ts : List Token}

end

/-! ## The tokens that are left -/

namespace Cursor

def reader : Reader Cursor := ⟨peek, sees, take, takeIf, length, atEnd, restText⟩

end Cursor

/-! ## The whole list and a place in it -/

/-- All tokens of a row, and the place of the next one among them, which may be behind the last. -/
structure Indexed where
  tokens : List Token
  position : Nat
  endLocation : Location

namespace Indexed

variable (s : Indexed)

def ofTokens (ts : List Token) : Indexed := ⟨ts, 0, Token.lastPlace ts⟩

def rest : List Token := s.tokens.drop s.position

def peek (offset : Nat) : Token :=
  s.tokens[s.position + offset]?.getD (.endAt s.endLocation)

def sees (k : Kind) (offset : Nat) : Bool := (s.peek offset).kind == k

/-- The next token, which has to be of kind `k`.  The place stays at the end of the list. -/
def take (k : Kind) : Except ParseError (Token × Indexed) :=
  if (s.peek 0).kind = k then
    .ok (s.peek 0,
      if s.position < s.tokens.length then { s with position := s.position + 1 } else s)
  else .error ⟨.unexpected k (s.peek 0).kind (s.tokens.drop (min s.position s.tokens.length)),
    (s.peek 0).location⟩

/-- Moves on if the next token is of kind `k`, also at the end of the list. -/
def takeIf (k : Kind) : Bool × Indexed :=
  if s.sees k 0 then (true, { s with position := s.position + 1 }) else (false, s)

def length : Nat := s.tokens.length - s.position

def atEnd : Bool := s.length == 0

def restText : String :=
  Token.describeAll (s.tokens.drop (min s.position s.tokens.length))

def reader : Reader Indexed := ⟨peek, sees, take, takeIf, length, atEnd, restText⟩

/-- The tokens behind the place. -/
def cursor : Cursor := ⟨s.tokens.drop s.position, s.endLocation⟩

end Indexed

/-- At the end of a list one way to move on stays in place, and the other does not. -/
example :
    let row := Indexed.ofTokens [⟨.semicolon, none, .start⟩]
    (Indexed.reader.after row [.take .semicolon, .take .endOfInput]).position = 1 ∧
      (Indexed.reader.after row [.take .semicolon, .takeIf .endOfInput]).position = 2 :=
  ⟨rfl, rfl⟩

end PocketC
