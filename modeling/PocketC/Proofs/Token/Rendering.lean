/-
  PocketC.Proofs.Token.Rendering

  Tokens written with any blanks between them are scanned again.

  A rendering is the source texts of tokens with a run of blanks in front and one behind
  each of them, of which only the last may be empty.  What is behind a token in a rendering
  is nothing or begins with a blank, and that is all that its scan depends on
  (`WellFormed.munched`), so a rendering splits into its tokens.
-/

import PocketC.Proofs.Print.Lexemes

namespace PocketC

namespace Token

/-! ## Renderings -/

/-- The source texts of the tokens, each with its run of blanks behind it, behind a first run. -/
def render (lead : List Char) : List (Token × List Char) → List Char
  | [] => lead
  | (t, gap) :: pieces => lead ++ t.source ++ render gap pieces

/-- All runs are of blanks, and no two tokens are without a blank between them. -/
structure Spaced (lead : List Char) (pieces : List (Token × List Char)) : Prop where
  lead : ∀ c ∈ lead, Text.isBlank c = true
  gaps : ∀ p ∈ pieces, ∀ c ∈ p.2, Text.isBlank c = true
  apart : ∀ p ∈ pieces.dropLast, p.2 ≠ []

/-- Scanning the text gives the tokens between the two ends of the input, wherever they were
    before. -/
def ScansAs (cs : List Char) (ts : List Token) : Prop :=
  ∃ us l, scan (String.ofList cs) = .ok (first :: us ++ [endAt l]) ∧
    us.map unplaced = ts.map unplaced

namespace Spaced

variable {lead gap : List Char} {t : Token} {pieces : List (Token × List Char)}

theorem tail (h : Spaced lead ((t, gap) :: pieces)) : Spaced gap pieces where
  lead := h.gaps (t, gap) List.mem_cons_self
  gaps := (List.forall_mem_cons.mp h.gaps).2
  apart p hp := by
    cases pieces with
    | nil => cases hp
    | cons q pieces => exact h.apart p (List.mem_cons_of_mem _ hp)

/-- What is behind a token is nothing or begins with a blank. -/
theorem head_behind (h : Spaced lead ((t, gap) :: pieces)) :
    (render gap pieces).head?.all Text.isBlank = true := by
  have hgap : gap.head?.all Text.isBlank = true := by
    rw [Option.all_eq_true]
    exact fun c hc => h.tail.lead c (List.mem_of_mem_head? hc)
  cases pieces with
  | nil => exact hgap
  | cons p pieces =>
      cases gap with
      | nil => exact absurd rfl (h.apart (t, []) List.mem_cons_self)
      | cons c gap => exact hgap

end Spaced

/-- A rendering splits into its tokens. -/
theorem splits_render {lead : List Char} {pieces : List (Token × List Char)}
    (hspaced : Spaced lead pieces) (hwell : ∀ p ∈ pieces, p.1.WellFormed) (l : Location) :
    ∃ us l', Splits l (render lead pieces) us l' [] ∧
      us.map unplaced = (pieces.map Prod.fst).map unplaced := by
  induction pieces generalizing lead l with
  | nil =>
      have hblanks : Splits l (lead ++ []) [] (l.after lead) [] := .blanks hspaced.lead
      rw [List.append_nil] at hblanks
      exact ⟨[], l.after lead, hblanks, rfl⟩
  | cons p pieces ih =>
      obtain ⟨t, gap⟩ := p
      obtain ⟨ht, hpieces⟩ := List.forall_mem_cons.mp hwell
      obtain ⟨us, l', hsplits, hus⟩ := ih hspaced.tail hpieces ((l.after lead).after t.source)
      have hmunched := ht.munched hspaced.head_behind
      refine ⟨_, l', .token hspaced.lead hmunched hsplits, ?_⟩
      rw [List.map_cons, hus, ht.keeps]
      rfl

theorem scansAs_render {lead : List Char} {pieces : List (Token × List Char)}
    (hspaced : Spaced lead pieces) (hwell : ∀ p ∈ pieces, p.1.WellFormed) :
    ScansAs (render lead pieces) (pieces.map Prod.fst) := by
  obtain ⟨us, l, hsplits, hus⟩ := splits_render hspaced hwell .start
  refine ⟨us, l, ?_, hus⟩
  rw [scan, String.toList_ofList, scanFrom_of_splits hsplits rfl]
  rfl

/-- Rendering tokens and scanning them gives the tokens back: the well-formed tokens `ts` with any
    runs of blanks in front, between and behind them are scanned as `ts`.  So the tokens of any
    source text stay the same when it is rendered with other blanks. -/
theorem scan_render :
    (∀ lead pieces, Spaced lead pieces → (∀ p ∈ pieces, p.1.WellFormed) →
      ScansAs (render lead pieces) (pieces.map Prod.fst)) ∧
    ∀ source ts, scan source = .ok ts → ∃ us l, ts = first :: us ++ [endAt l] ∧
      (∀ t ∈ us, t.WellFormed) ∧
      ∀ lead pieces, pieces.map Prod.fst = us → Spaced lead pieces →
        ScansAs (render lead pieces) us := by
  refine ⟨fun lead pieces => scansAs_render, fun source ts hscan => ?_⟩
  obtain ⟨us, l, hts, hsplits⟩ := splits_of_scan hscan
  have hwell := wellFormed_of_splits hsplits
  refine ⟨us, l, hts, hwell, ?_⟩
  rintro lead pieces rfl hspaced
  exact scansAs_render hspaced fun p hp => hwell p.1 (List.mem_map_of_mem hp)

/-- A name that begins like a keyword, a string that ends in an escaped backslash behind an escaped
    quote, and `==` in front of `=`, with blanks of other scripts between them; and the tokens of
    `a<=b`, pulled apart. -/
theorem scan_render_blanks :
    ScansAs
        (render ['\t'] [(⟨.identifier, some "iffy", .start⟩, ['\u0085']),
          (⟨.stringLiteral, some "\\\"\\\\", .start⟩, ['\u3000', '\n']),
          (⟨.equal, none, .start⟩, ['\r']), (⟨.assign, none, .start⟩, [])])
        [⟨.identifier, some "iffy", .start⟩, ⟨.stringLiteral, some "\\\"\\\\", .start⟩,
          ⟨.equal, none, .start⟩, ⟨.assign, none, .start⟩] ∧
      ∃ a op b l, scan "a<=b" = .ok (first :: [a, op, b] ++ [endAt l]) ∧
        ScansAs (render [] [(a, ['\n']), (op, [' ', '\u2028']), (b, [])]) [a, op, b] := by
  have hblank : ∀ {w : List Char}, w.all Text.isBlank = true → ∀ c ∈ w, Text.isBlank c = true :=
    List.all_eq_true.mp
  refine ⟨scan_render.1 _ _ ⟨hblank rfl, fun p hp => hblank ?_, by decide⟩ ?_, ?_⟩
  · revert p
    decide
  · simp only [List.forall_mem_cons]
    refine ⟨.name (by decide) (List.all_eq_true.mp rfl) (by decide), .string ?_, .mark rfl,
      .mark rfl, nofun⟩
    exact .escaped (by decide) (.escaped (by decide) .nil)
  · have hscan : scan "a<=b" = .ok (first :: [⟨.identifier, some "a", ⟨1, 1⟩⟩,
        ⟨.lessEq, none, ⟨1, 2⟩⟩, ⟨.identifier, some "b", ⟨1, 4⟩⟩] ++ [endAt ⟨1, 5⟩]) := rfl
    obtain ⟨us, l, hts, -, hrender⟩ := scan_render.2 _ _ hscan
    obtain ⟨hus, -⟩ := List.append_inj' (List.cons.inj hts).2 rfl
    subst hus
    refine ⟨_, _, _, _, hscan, hrender [] _ rfl ⟨nofun, fun p hp => hblank ?_, by decide⟩⟩
    revert p
    decide

end Token

end PocketC
