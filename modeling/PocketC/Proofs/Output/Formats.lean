/-
  PocketC.Proofs.Output.Formats

  The language of formats, apart from any way of reading them:

    format  ::= segment*
    segment ::= character | "{{" | "}}" | "{}" | "{" digit+ "}"

  where a character is none of the two braces.  A text splits into segments in at most one way,
  and it is expanded exactly if it does and every argument that its segments ask for is there
  and can be printed.  Otherwise some first segments are expanded and the rest of the format
  begins with the mistake that is reported.
-/

import PocketC.Proofs.Output.Printed
import PocketC.Run.Stmt

namespace PocketC
namespace Format

/-! ## The language -/

/-- How a segment is written. -/
inductive Segment.Written : Segment → List Char → Prop where
  | char {c : Char} : c ≠ '{' → c ≠ '}' → Written (.char c) [c]
  | opening : Written (.char '{') ['{', '{']
  | closing : Written (.char '}') ['}', '}']
  | next : Written .next ['{', '}']
  | numbered {ds : List Char} : ds ≠ [] → (∀ d ∈ ds, Text.isDigit d = true) →
      Written (.numbered ds) ('{' :: ds ++ ['}'])

/-- The text splits into these segments. -/
inductive Splits : List Segment → List Char → Prop where
  | nil : Splits [] []
  | cons {s : Segment} {ss : List Segment} {w cs : List Char} : s.Written w → Splits ss cs →
      Splits (s :: ss) (w ++ cs)

/-- The number of the argument that a segment asks for behind so many segments `{}`. -/
def Segment.index (used : Nat) : Segment → Option Nat
  | .next => some used
  | .numbered ds => some (Text.digitsValue ds)
  | _ => none

/-- How many of the segments are `{}`. -/
def taken (ss : List Segment) : Nat := ss.count .next

/-- What a segment stands for behind so many segments `{}`: a character, or the text of an argument
    that can be printed. -/
inductive Segment.StandsFor (args : List Value) (used : Nat) : Segment → List Char → Prop where
  | char (c : Char) : StandsFor args used (.char c) [c]
  | argument {s : Segment} {i : Nat} {v : Value} : s.index used = some i → args[i]? = some v →
      v.Printable → StandsFor args used s v.text.toList

/-- What segments stand for, one behind the other. -/
inductive StandFor (args : List Value) : (used : Nat) → List Segment → List Char → Prop where
  | nil {used : Nat} : StandFor args used [] []
  | cons {used : Nat} {s : Segment} {ss : List Segment} {t u : List Char} :
      s.StandsFor args used t → StandFor args (used + taken [s]) ss u →
      StandFor args used (s :: ss) (t ++ u)

/-! ## Mistakes -/

/-- No segment is written at the front of the text, and why not. -/
inductive Malformed : List Char → FormatError → Prop where
  | unmatched {cs : List Char} : cs.head? ≠ some '}' → Malformed ('}' :: cs) .unmatched
  | unterminated {ds : List Char} : (∀ d ∈ ds, Text.isDigit d = true) →
      Malformed ('{' :: ds) .unterminated
  | unexpected {ds cs : List Char} {c : Char} : (∀ d ∈ ds, Text.isDigit d = true) →
      Text.isDigit c = false → c ≠ '}' → (ds = [] → c ≠ '{') →
      Malformed ('{' :: ds ++ c :: cs) (.unexpected c)

/-- What is wrong with the front of a text, behind so many segments `{}`: a segment stands there of
    which the argument is missing or cannot be printed, or no segment at all. -/
inductive Offends (args : List Value) (used : Nat) : List Char → FaultCause → Prop where
  | malformed {rest : List Char} {e : FormatError} : Malformed rest e →
      Offends args used rest (.badFormat e)
  | missing {s : Segment} {w rest : List Char} {i : Nat} : s.Written w → s.index used = some i →
      args.length ≤ i → (∀ ds, s = .numbered ds → i < indexLimit) →
      Offends args used (w ++ rest) (.badFormat (.missingArgument i args.length))
  | tooLarge {ds w rest : List Char} : Segment.Written (.numbered ds) w →
      indexLimit ≤ Text.digitsValue ds →
      Offends args used (w ++ rest) (.badFormat (.indexTooLarge ds))
  | unprintable {s : Segment} {w rest : List Char} {i : Nat} {v part : Value} : s.Written w →
      s.index used = some i → args[i]? = some v → v.leaves.find? Value.isHole = some part →
      Offends args used (w ++ rest) (.wrongType .printable part.typeName)

/-! ## Reading segments -/

/-- The digits of a placeholder are gathered. -/
theorem placeholder_append {es : List Char} (hes : ∀ d ∈ es, Text.isDigit d = true)
    (ds cs : List Char) : placeholder ds (es ++ cs) = placeholder (ds ++ es) cs := by
  induction es generalizing ds with
  | nil => rw [List.nil_append, List.append_nil]
  | cons e es ih =>
    have he : Text.isDigit e = true := hes e List.mem_cons_self
    have hbrace : e ≠ '}' := by
      rintro rfl
      exact absurd he (by decide)
    have htail := ih (fun d hd => hes d (List.mem_cons_of_mem _ hd)) (ds ++ [e])
    simp [placeholder, hbrace, he, htail]

theorem segments_placeholder {cs : List Char} (h : cs.head? ≠ some '{') :
    segments ('{' :: cs) = placeholder [] cs := by
  cases cs with
  | nil => rfl
  | cons c cs =>
    have hc : c ≠ '{' := fun hc => h (congrArg some hc)
    rw [segments]
    rintro _ ⟨rfl, _⟩
    exact hc rfl

theorem head?_ne_of_digits {ds : List Char} (h : ∀ d ∈ ds, Text.isDigit d = true) (cs : List Char)
    {c : Char} (hc : Text.isDigit c = false) (hcs : ds = [] → cs.head? ≠ some c) :
    (ds ++ cs).head? ≠ some c := by
  cases ds with
  | nil => exact hcs rfl
  | cons d ds =>
    intro hd
    cases hd
    rw [h c List.mem_cons_self] at hc
    cases hc

/-- A segment that is written is read. -/
theorem segments_written {s : Segment} {w : List Char} (h : s.Written w) (cs : List Char) :
    segments (w ++ cs) = s :: segments cs := by
  cases h with
  | @char c hopen hclose =>
    show segments (c :: cs) = _
    rw [segments] <;> simp_all
  | opening => simp [segments]
  | closing => simp [segments]
  | next =>
    show segments ('{' :: '}' :: cs) = _
    rw [segments_placeholder (by simp)]
    simp [placeholder, placeholderOf]
  | @numbered ds hne hds =>
    have hhead := head?_ne_of_digits hds ('}' :: cs) (c := '{') (by decide) (by simp)
    have hassoc : '{' :: ds ++ ['}'] ++ cs = '{' :: (ds ++ '}' :: cs) := by simp
    rw [hassoc, segments_placeholder hhead, placeholder_append hds]
    simp [placeholder, placeholderOf, hne]

theorem segments_splits {ss : List Segment} {w : List Char} (h : Splits ss w) (cs : List Char) :
    segments (w ++ cs) = ss ++ segments cs := by
  induction h with
  | nil => rfl
  | cons hs _ ih => rw [List.append_assoc, segments_written hs, ih, List.cons_append]

/-- A text splits into segments in at most one way. -/
theorem splits_unique {ss ts : List Segment} {w : List Char} (hs : Splits ss w)
    (ht : Splits ts w) : ss = ts := by
  have hss := segments_splits hs []
  have hts := segments_splits ht []
  rw [hss] at hts
  simpa [segments] using hts

/-- A mistake is read as what it is. -/
theorem segments_malformed {cs : List Char} {e : FormatError} (h : Malformed cs e) :
    segments cs = [.malformed e] := by
  cases h with
  | @unmatched cs hhead =>
    cases cs with
    | nil => simp [segments]
    | cons c cs =>
      have hc : c ≠ '}' := fun hc => hhead (congrArg some hc)
      rw [segments]
      rintro _ ⟨rfl, _⟩
      exact hc rfl
  | @unterminated ds hds =>
    have hhead := head?_ne_of_digits hds [] (c := '{') (by decide) (by simp)
    have hread := placeholder_append hds [] []
    rw [List.append_nil] at hhead hread
    rw [segments_placeholder hhead, hread, placeholder]
  | @unexpected ds cs c hds hc hbrace hfirst =>
    have hhead := head?_ne_of_digits hds (c :: cs) (c := '{') (by decide)
      fun hnil h => hfirst hnil (Option.some.inj h)
    rw [List.cons_append, segments_placeholder hhead, placeholder_append hds]
    simp [placeholder, hbrace, hc]

/-- Every text but the empty one begins with a segment or a mistake. -/
theorem front_cases (c : Char) (cs : List Char) :
    (∃ s w rest, Segment.Written s w ∧ c :: cs = w ++ rest) ∨ ∃ e, Malformed (c :: cs) e := by
  by_cases hopen : c = '{'
  · subst hopen
    by_cases hhead : cs.head? = some '{'
    · obtain ⟨rest, rfl⟩ := List.head?_eq_some_iff.mp hhead
      exact .inl ⟨_, _, rest, .opening, rfl⟩
    · -- the digits of a placeholder, and what is behind them
      obtain ⟨ds, back, hds, hback, rfl⟩ : ∃ ds back : List Char,
          (∀ d ∈ ds, Text.isDigit d = true) ∧
          (∀ c rest, back = c :: rest → Text.isDigit c = false) ∧ cs = ds ++ back := by
        refine ⟨cs.takeWhile Text.isDigit, cs.dropWhile Text.isDigit, ?_, ?_, ?_⟩
        · exact List.all_eq_true.mp List.all_takeWhile
        · intro c rest hc
          have hdrop := List.head?_dropWhile_not Text.isDigit cs
          rw [hc] at hdrop
          exact hdrop
        · exact List.takeWhile_append_dropWhile.symm
      cases back with
      | nil =>
        rw [List.append_nil]
        exact .inr ⟨_, .unterminated hds⟩
      | cons c rest =>
        have hc : Text.isDigit c = false := hback c rest rfl
        by_cases hclose : c = '}'
        · subst hclose
          by_cases hnil : ds = []
          · subst hnil
            exact .inl ⟨_, _, rest, .next, rfl⟩
          · exact .inl ⟨_, _, rest, .numbered hnil hds, by simp⟩
        · right
          refine ⟨_, .unexpected hds hc hclose ?_⟩
          rintro rfl rfl
          exact hhead rfl
  · by_cases hclose : c = '}'
    · subst hclose
      by_cases hhead : cs.head? = some '}'
      · obtain ⟨rest, rfl⟩ := List.head?_eq_some_iff.mp hhead
        exact .inl ⟨_, _, rest, .closing, rfl⟩
      · exact .inr ⟨_, .unmatched hhead⟩
    · exact .inl ⟨_, _, cs, .char hopen hclose, rfl⟩

/-- A text is malformed if it is not empty and no segment is written at its front. -/
theorem malformed_iff (rest : List Char) : (∃ e, Malformed rest e) ↔
    rest ≠ [] ∧ ∀ s w back, Segment.Written s w → rest ≠ w ++ back := by
  constructor
  · rintro ⟨e, he⟩
    constructor
    · rintro rfl
      cases he
    · rintro s w back hs rfl
      -- a segment that is written is not read as a mistake
      have hread := segments_malformed he
      rw [segments_written hs] at hread
      obtain ⟨rfl, _⟩ := List.cons.inj hread
      cases hs
  · rintro ⟨hne, hnone⟩
    obtain ⟨c, cs, rfl⟩ := List.exists_cons_of_ne_nil hne
    rcases front_cases c cs with ⟨s, w, back, hs, h⟩ | h
    · exact absurd h (hnone s w back hs)
    · exact h

/-! ## Expanding segments -/

section
variable {args : List Value} {used : Nat}

/-- Where the argument of a segment is looked for. -/
theorem expandFrom_index {s : Segment} {i : Nat} (hs : s.index used = some i)
    (hi : ∀ ds, s = .numbered ds → i < indexLimit) (ss : List Segment) :
    expandFrom args used (s :: ss) = (do
      let front ← argument args i
      let others ← expandFrom args (used + taken [s]) ss
      return front ++ others) := by
  cases s with
  | next =>
    cases hs
    rfl
  | numbered ds =>
    cases hs
    have hindex : indexOf ds = .ok (Text.digitsValue ds) := if_pos (hi ds rfl)
    rw [expandFrom, hindex]
    rfl
  | _ => cases hs

theorem expandFrom_standsFor (hargs : args.length ≤ indexLimit) {s : Segment} {t : List Char}
    (h : s.StandsFor args used t) (ss : List Segment) :
    expandFrom args used (s :: ss) = (expandFrom args (used + taken [s]) ss).map (t ++ ·) := by
  cases h with
  | char c =>
    rw [expandFrom]
    show _ = (expandFrom args used ss).map _
    cases expandFrom args used ss <;> rfl
  | @argument _ i v hindex hv hprintable =>
    have hlt : i < args.length := (List.getElem?_eq_some_iff.mp hv).1
    have hargument : argument args i = .ok v.text.toList := by
      rw [argument, hv]
      exact printed_of_printable hprintable
    rw [expandFrom_index hindex (fun _ _ => by omega), hargument]
    cases expandFrom args (used + taken [s]) ss <;> rfl

theorem taken_append (ss ts : List Segment) : taken (ss ++ ts) = taken ss + taken ts :=
  List.count_append

theorem expandFrom_standFor (hargs : args.length ≤ indexLimit) {ss : List Segment}
    {t : List Char} (h : StandFor args used ss t) (more : List Segment) :
    expandFrom args used (ss ++ more) = (expandFrom args (used + taken ss) more).map (t ++ ·) := by
  induction h with
  | @nil used =>
    show expandFrom args used more = (expandFrom args used more).map _
    cases expandFrom args used more <;> rfl
  | @cons used s ss t u hs _ ih =>
    have hcount : used + taken (s :: ss) = used + taken [s] + taken ss := by
      rw [← List.singleton_append, taken_append, Nat.add_assoc]
    rw [List.cons_append, expandFrom_standsFor hargs hs, ih, hcount]
    cases expandFrom args (used + taken [s] + taken ss) more with
    | ok v => simp [Except.map]
    | error e => rfl

theorem expandFrom_offends (hargs : args.length ≤ indexLimit) {rest : List Char}
    {cause : FaultCause} (h : Offends args used rest cause) :
    ∃ e, expandFrom args used (segments rest) = .error e ∧ Exec.faultOf e = cause := by
  cases h with
  | malformed he =>
    rw [segments_malformed he]
    exact ⟨_, rfl, rfl⟩
  | @missing s w rest i hs hindex hi hlimit =>
    have hnone : argument args i = .error (.format (.missingArgument i args.length)) := by
      rw [argument, List.getElem?_eq_none hi]
    rw [segments_written hs, expandFrom_index hindex hlimit, hnone]
    exact ⟨_, rfl, rfl⟩
  | @tooLarge ds w rest hs hlimit =>
    have hlarge : indexOf ds = .error (.format (.indexTooLarge ds)) :=
      if_neg (Nat.not_lt_of_le hlimit)
    rw [segments_written hs, expandFrom, hlarge]
    exact ⟨_, rfl, rfl⟩
  | @unprintable s w rest i v part hs hindex hv hpart =>
    have hlt : i < args.length := (List.getElem?_eq_some_iff.mp hv).1
    have hhole : argument args i = .error (.unprintable part) := by
      rw [argument, hv]
      exact printed_of_hole hpart
    rw [segments_written hs, expandFrom_index hindex (fun _ _ => by omega), hhole]
    exact ⟨_, rfl, rfl⟩

/-- A segment at the front stands for something, or something is wrong with it. -/
theorem stands_or_offends (args : List Value) (used : Nat) {s : Segment} {w : List Char}
    (hs : s.Written w) (rest : List Char) :
    (∃ t, s.StandsFor args used t) ∨ ∃ cause, Offends args used (w ++ rest) cause := by
  cases hindex : s.index used with
  | none =>
    cases hs with
    | char | opening | closing => exact .inl ⟨_, .char _⟩
    | next | numbered => cases hindex
  | some i =>
    cases hv : args[i]? with
    | some v =>
      cases hpart : v.leaves.find? Value.isHole with
      | none => exact .inl ⟨_, .argument hindex hv (Value.printable_iff.mpr hpart)⟩
      | some part => exact .inr ⟨_, .unprintable hs hindex hv hpart⟩
    | none =>
      have hmissing : args.length ≤ i := List.getElem?_eq_none_iff.mp hv
      by_cases hlimit : ∀ ds, s = .numbered ds → i < indexLimit
      · exact .inr ⟨_, .missing hs hindex hmissing hlimit⟩
      · -- only the number of a segment may be too large
        simp only [Classical.not_forall, Nat.not_lt] at hlimit
        obtain ⟨ds, rfl, hlarge⟩ := hlimit
        cases hindex
        exact .inr ⟨_, .tooLarge hs hlarge⟩

/-- Some first segments of a text stand for something, and these are all of it or something is
    wrong behind them. -/
theorem exists_front (args : List Value) (used : Nat) (cs : List Char) :
    ∃ front w rest t, Splits front w ∧ cs = w ++ rest ∧ StandFor args used front t ∧
      (rest = [] ∨ ∃ cause, Offends args (used + taken front) rest cause) := by
  induction hn : cs.length using Nat.strongRecOn generalizing cs used with
  | ind n ih =>
    subst hn
    cases cs with
    | nil => exact ⟨[], [], [], [], .nil, rfl, .nil, .inl rfl⟩
    | cons c cs =>
      rcases front_cases c cs with ⟨s, w, rest, hs, hcs⟩ | ⟨e, he⟩
      · rcases stands_or_offends args used hs rest with ⟨t, ht⟩ | ⟨cause, h⟩
        · -- the first segment is one of the front, and the rest is shorter
          have hlength : rest.length < (c :: cs).length := by
            have hw : 0 < w.length := by cases hs <;> simp
            rw [hcs, List.length_append]
            omega
          obtain ⟨front, v, back, u, hfront, rfl, hu, hback⟩ :=
            ih rest.length hlength (used + taken [s]) rest rfl
          refine ⟨s :: front, w ++ v, back, t ++ u, .cons hs hfront, ?_, .cons ht hu, ?_⟩
          · rw [hcs, List.append_assoc]
          · rw [← List.singleton_append, taken_append, ← Nat.add_assoc]
            exact hback
        · rw [hcs]
          exact ⟨[], [], w ++ rest, [], .nil, rfl, .nil, .inr ⟨cause, h⟩⟩
      · exact ⟨[], [], c :: cs, [], .nil, rfl, .nil, .inr ⟨_, .malformed he⟩⟩

end

/-! ## Formats -/

section
variable {format : String} {args : List Value}

theorem formatted_of_splits (hargs : args.length ≤ indexLimit) {ss : List Segment} {t : List Char}
    (hss : Splits ss format.toList) (ht : StandFor args 0 ss t) :
    Exec.formatted (.string format :: args) = .ok (String.ofList t) := by
  have hsegments := segments_splits hss []
  have hexpand := expandFrom_standFor hargs ht []
  simp only [List.append_nil, segments] at hsegments hexpand
  rw [Exec.formatted, expand, hsegments, hexpand, expandFrom]
  simp [Except.map]

theorem formatted_of_offends (hargs : args.length ≤ indexLimit) {front : List Segment}
    {w rest t : List Char} {cause : FaultCause} (hfront : Splits front w)
    (hformat : format.toList = w ++ rest) (ht : StandFor args 0 front t)
    (h : Offends args (taken front) rest cause) :
    Exec.formatted (.string format :: args) = .error cause := by
  have hexpand := expandFrom_standFor hargs ht (segments rest)
  obtain ⟨e, he, hcause⟩ := expandFrom_offends hargs h
  rw [Nat.zero_add, he] at hexpand
  rw [Exec.formatted, expand, hformat, segments_splits hfront, hexpand, ← hcause]
  rfl

/-- There are no other ways to end, and the text that a format begins with tells which it is. -/
theorem formatted_cases (format : String) (hargs : args.length ≤ indexLimit) :
    (∃ ss t, Splits ss format.toList ∧ StandFor args 0 ss t ∧
      Exec.formatted (.string format :: args) = .ok (String.ofList t)) ∨
    ∃ front w rest t cause, Splits front w ∧ format.toList = w ++ rest ∧ StandFor args 0 front t ∧
      Offends args (taken front) rest cause ∧
      Exec.formatted (.string format :: args) = .error cause := by
  obtain ⟨front, w, rest, t, hfront, hformat, ht, hrest⟩ := exists_front args 0 format.toList
  rw [Nat.zero_add] at hrest
  rcases hrest with rfl | ⟨cause, h⟩
  · rw [List.append_nil] at hformat
    rw [← hformat] at hfront
    exact .inl ⟨front, t, hfront, ht, formatted_of_splits hargs hfront ht⟩
  · have hcause := formatted_of_offends hargs hfront hformat ht h
    exact .inr ⟨front, w, rest, t, cause, hfront, hformat, ht, h, hcause⟩

end

/-- A format is expanded exactly if it splits into segments of which every one stands for
    something, and it is expanded to what they stand for, one behind the other.  It splits in one
    way at most.  Otherwise the fault is that of the first segment with which something is wrong:
    its argument cannot be printed, it is missing, or what stands there is no segment at all.  No
    more arguments can be given than an address space of 64 bits has room for. -/
theorem formats_expand_exactly (format : String) (args : List Value)
    (hargs : args.length ≤ indexLimit) :
    (∀ t, Exec.formatted (.string format :: args) = .ok t ↔
      ∃ ss, Splits ss format.toList ∧ StandFor args 0 ss t.toList) ∧
    (∀ cause, Exec.formatted (.string format :: args) = .error cause ↔
      ∃ front w rest t, Splits front w ∧ format.toList = w ++ rest ∧ StandFor args 0 front t ∧
        Offends args (taken front) rest cause) ∧
    (∀ ss ts w, Splits ss w → Splits ts w → ss = ts) ∧
    ∀ rest, (∃ e, Malformed rest e) ↔
      rest ≠ [] ∧ ∀ s w back, Segment.Written s w → rest ≠ w ++ back := by
  have hcases := formatted_cases format hargs
  refine ⟨fun t => ⟨fun ht => ?_, ?_⟩, fun cause => ⟨fun hcause => ?_, ?_⟩,
    fun ss ts w => splits_unique, malformed_iff⟩
  · rcases hcases with ⟨ss, u, hss, hu, hok⟩ | ⟨_, _, _, _, _, _, _, _, _, herror⟩
    · rw [hok] at ht
      cases ht
      rw [String.toList_ofList]
      exact ⟨ss, hss, hu⟩
    · rw [herror] at ht
      cases ht
  · rintro ⟨ss, hss, ht⟩
    rw [formatted_of_splits hargs hss ht, String.ofList_toList]
  · rcases hcases with ⟨_, _, _, _, hok⟩ | ⟨front, w, rest, t, _, hw, hformat, ht, h, herror⟩
    · rw [hok] at hcause
      cases hcause
    · rw [herror] at hcause
      cases hcause
      exact ⟨front, w, rest, t, hw, hformat, ht, h⟩
  · rintro ⟨front, w, rest, t, hw, hformat, ht, h⟩
    exact formatted_of_offends hargs hw hformat ht h

/-- The format `{1}{{{}}}`, in which the same row of braces ends a placeholder and is printed, and
    the format `{}{00}{2}}`, of which the third placeholder is the first mistake. -/
theorem formats_expand_exactly_braces :
    let args : List Value := [.int 5, .array [.char 'a', .array [.string "b", .int (-1)]]]
    let format := "\x7b1\x7d\x7b\x7b\x7b\x7d\x7d\x7d"
    let mistaken := "\x7b\x7d\x7b00\x7d\x7b2\x7d\x7d"
    let fault : FaultCause := .badFormat (.missingArgument 2 2)
    args.length ≤ indexLimit ∧
    Exec.formatted (.string format :: args) = .ok "[a, [b, -1]]\x7b5\x7d" ∧
    (∃ ss, Splits ss format.toList ∧ StandFor args 0 ss "[a, [b, -1]]\x7b5\x7d".toList) ∧
    Exec.formatted (.string mistaken :: args) = .error fault ∧
    ∃ front w rest t, Splits front w ∧ mistaken.toList = w ++ rest ∧ StandFor args 0 front t ∧
      Offends args (taken front) rest fault := by
  intro args format mistaken fault
  have hargs : args.length ≤ indexLimit := by decide
  have hok : Exec.formatted (.string format :: args) = .ok "[a, [b, -1]]\x7b5\x7d" := by
    simp only [args, format]
    rfl
  have herror : Exec.formatted (.string mistaken :: args) = .error fault := by
    simp only [args, mistaken, fault]
    rfl
  obtain ⟨hsplits, _⟩ := formats_expand_exactly format args hargs
  obtain ⟨_, hoffends, _⟩ := formats_expand_exactly mistaken args hargs
  exact ⟨hargs, hok, (hsplits _).mp hok, herror, (hoffends _).mp herror⟩

end Format
end PocketC
