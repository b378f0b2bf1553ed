/-
  PocketC.Proofs.Print.RoundTrip

  Printing a program that was read, and reading it again, gives the same program up to
  places.
-/

import PocketC.Proofs.Grammar.Prompt.Program
import PocketC.Proofs.Print.Stmt
import PocketC.Run.Session

namespace PocketC

open Stmt (IsName)
open Token (mark name inParens separated)

variable {w : List Token}

/-! ## Functions -/

theorem Parameter.prints {p : Param} (h : Parameter p w) (hw : ∀ t ∈ w, t.IsLexeme) :
    Prints Parameter id p (Stmt.param p) := by
  cases h with
  | @plain type n ht hn =>
      have htype : IsName type.text := (hw type (by simp)).isNameChar ht
      rw [Stmt.param, Stmt.elementType_of_isName htype, Stmt.brackets,
        Stmt.isArrayType_of_isName htype, if_neg Bool.false_ne_true]
      refine .name ((hw type (by simp)).name ht) fun type' ht' htext => ?_
      refine .name ((hw n (by simp)).name hn) fun n' hn' hname => ?_
      exact .nil (.plain ht' hn') (by rw [htext, hname])
  | @array type n _ _ ht hn =>
      rw [Stmt.param, Stmt.elementType_array, Stmt.brackets, if_pos (Stmt.isArrayType_array _)]
      refine .name ((hw type (by simp)).name ht) fun type' ht' htext => ?_
      refine .name ((hw n (by simp)).name hn) fun n' hn' hname => ?_
      refine .mark rfl fun opening ho => .mark rfl fun closing hc => ?_
      exact .nil (.array ht' hn' ho hc) (by rw [htext, hname])

theorem Parameters.prints {ps : List Param} (h : Parameters ps w) (hw : ∀ t ∈ w, t.IsLexeme) :
    Prints Parameters id ps (separated (ps.map Stmt.param)) := by
  cases h with
  | none => exact .nil .none rfl
  -- an empty list of parameters is printed as one, however it was written
  | void => exact .nil .none rfl
  | some h =>
      have hall := h.forall_mem hw fun p v hp hv => hp.prints hv
      refine (Prints.separated h.ne_nil hall).imp fun ps' v hv hsame => ⟨ps', .some hv, ?_⟩
      simpa using hsame

/-- A signature and a row behind it. -/
theorem Prints.signature {α β : Type} {L : Rows α} {sight : α → β} {a : α} {ts : List Token}
    {result n : Token} {ps : List Param} {v : List Token} (hresult : result.kind = .identifier)
    (hn : n.kind = .identifier) (hps : Parameters ps v) (hresult' : result.IsLexeme)
    (hn' : n.IsLexeme) (hv : ∀ t ∈ v, t.IsLexeme)
    (h : ∀ result' n' opening closing u, result'.kind = .identifier → result'.text = result.text →
      n'.kind = .identifier → n'.text = n.text → opening.kind = .openParen → Parameters ps u →
      closing.kind = .closeParen →
      Prints (fun b w => L b (result' :: n' :: opening :: u ++ closing :: w)) sight a ts) :
    Prints L sight a (Stmt.signature n.text result.text ps ++ ts) := by
  refine .name (hresult'.name hresult) fun result' hr htext => ?_
  refine .name (hn'.name hn) fun n' hn' hname => ?_
  refine .inParens (hps.prints hv) fun opening closing ps' u ho hc hu hsame => ?_
  cases hsame
  exact h result' n' opening closing u hr htext hn' hname ho hu hc

/-! ## Programs -/

theorem TopLevel.prints {s : Stmt} (h : TopLevel s w) (hw : ∀ t ∈ w, t.IsLexeme) :
    Prints TopLevel Stmt.unplaced s s.tokens := by
  cases h with
  | @declaration semi s w h =>
      have hsimple : Simple 0 s w := .other (.declaration h)
      rw [hsimple.tokens.1]
      refine (h.prints fun t ht => hw t (by simp [ht])).append fun s' v hv hsame => ?_
      exact .mark rfl fun semi hs => .nil (.declaration hv hs) hsame
  | @signature result n _ _ _ ps v hr hn _ params =>
      refine .signature hr hn params (hw result (by simp)) (hw n (by simp))
        (fun t ht => hw t (by simp [ht])) ?_
      intro result' n' opening closing u hr hresult hn hname ho hu hc
      refine .mark rfl fun semi hs => .nil (.signature hr hn ho hu hc hs) ?_
      simp only [Stmt.unplaced, hresult, hname]
  | @function result n _ _ _ _ ps ss v u hr hn _ params _ _ body _ =>
      have hbody := body.prints fun t ht => hw t (by simp [ht])
      have htokens : Stmt.tokens (.group [.declareFun n.text result.text ps result.location,
          .defineFun n.text result.text ps ss result.location]) =
          Stmt.signature n.text result.text ps ++
            mark .openBrace :: (Stmt.tokensAll ss ++ [mark .closeBrace]) :=
        List.append_nil _
      rw [htokens]
      refine .signature hr hn params (hw result (by simp)) (hw n (by simp))
        (fun t ht => hw t (by simp [ht])) ?_
      intro result' n' opening closing u hr hresult hn hname ho hu hc
      refine .mark rfl fun start hstart => ?_
      refine Prints.append hbody fun ss' v hv hsame => .mark rfl fun stop hstop => ?_
      have hall := TopLevel.function hr hn ho hu hc hstart hv hstop
      refine .nil (by simpa using hall) ?_
      simp only [Stmt.unplaced, Stmt.unplacedAll, hresult, hname, hsame]

theorem prints_nodes {ss : List Stmt} (h : Rows.Repeated TopLevel ss w)
    (hw : ∀ t ∈ w, t.IsLexeme) :
    Prints (.Repeated TopLevel) Stmt.unplacedAll ss (Stmt.tokensAll ss) := by
  induction h with
  | nil => exact .nil .nil rfl
  | cons first _ ih =>
      refine (first.prints fun t ht => hw t (by simp [ht])).append fun s v hv hsame => ?_
      refine (ih fun t ht => hw t (by simp [ht])).imp fun ss w hw hsames => ⟨_, .cons hv hw, ?_⟩
      rw [Stmt.unplacedAll, Stmt.unplacedAll, hsame, hsames]

/-! ## Source texts -/

/-- Reading a source text is scanning it and reading its tokens. -/
theorem readProgram_eq_ok {source : String} {p : Program} {j : Journal} :
    (readProgram source j).1 = .ok p ↔
      ∃ ts q, Token.scan source = .ok ts ∧ (Parser.ofCursor (.ofTokens ts)).parse = (.ok p, q) := by
  rw [readProgram, readTokens]
  cases Token.scan source with
  | error e => simp
  | ok ts =>
      dsimp only
      rw [readNext]
      cases hparse : (Parser.ofCursor (.ofTokens ts)).parse with
      | mk r q => cases r <;> simp [hparse]

/-- The tokens of a program that was read are lexemes between the two ends of the input. -/
theorem lexemes_of_scan {source : String} {ts : List Token} {p : Program} {q : Parser}
    (hscan : Token.scan source = .ok ts)
    (hparse : (Parser.ofCursor (.ofTokens ts)).parse = (.ok p, q)) :
    ∃ w, (∀ t ∈ w, t.IsLexeme) ∧ Rows.Repeated TopLevel p.nodes w := by
  obtain ⟨us, l, rfl, hsplits⟩ := Token.splits_of_scan hscan
  obtain ⟨first, w, r, hfirst, hfront, hinside, hrow⟩ := parse_sound rfl hparse
  refine ⟨w, fun t ht => Token.isLexeme_of_splits hsplits t ?_, hrow⟩
  have hrest : Token.first :: us ++ [.endAt l] = first :: w ++ r.cursor.rest :=
    congrArg (fun p => p.cursor.rest) hfront
  have hmem : t ∈ us ++ [.endAt l] := by
    have hbehind : us ++ [.endAt l] = w ++ r.cursor.rest := (List.cons.inj hrest).2
    rw [hbehind]
    exact List.mem_append_left _ ht
  rcases List.mem_append.mp hmem with hmem | hmem
  · exact hmem
  · rw [List.mem_singleton.mp hmem] at ht
    exact absurd rfl (hinside _ ht)

/-- Every program that was read from a source text is read again from the text that is printed for
    it, up to places. -/
theorem print_round_trip {source : String} {j j' : Journal} {p : Program}
    (h : readProgram source j = (.ok p, j')) (k : Journal) :
    ∃ p' k', readProgram p.print k = (.ok p', k') ∧ p'.unplaced = p.unplaced := by
  obtain ⟨ts, q, hscan, hparse⟩ := readProgram_eq_ok.mp (congrArg Prod.fst h)
  obtain ⟨w, hw, hrow⟩ := lexemes_of_scan hscan hparse
  have hprints := prints_nodes hrow hw
  -- the printed text is scanned as tokens `us`, which are the printed ones up to places
  obtain ⟨us, l, hsplits, hus⟩ := Token.splits_write hprints.lexemes .start
  obtain ⟨ss, hss, hsame⟩ := hprints.readBack us (hus.trans hprints.unplaced)
  have hfirst : Token.first.kind = .startOfInput := rfl
  have hlast : (Token.endAt l).kind = .endOfInput := rfl
  obtain ⟨q', hagain⟩ := parse_complete hfirst hss hlast
  have hscanned : Token.scan p.print = .ok (.first :: us ++ [.endAt l]) := by
    rw [Token.scan, Program.print, String.toList_ofList, Token.scanFrom_of_splits hsplits rfl]
    rfl
  have hread : (readProgram p.print k).1 = .ok ⟨ss⟩ :=
    readProgram_eq_ok.mpr ⟨_, q', hscanned, hagain⟩
  refine ⟨⟨ss⟩, (readProgram p.print k).2, Prod.ext hread rfl, ?_⟩
  rw [Program.unplaced, Program.unplaced, ← Stmt.unplacedAll_eq_map, hsame,
    Stmt.unplacedAll_eq_map]

/-- A function with an `else` that belongs to the inner of two conditionals, a declaration as a
    branch, and an array literal as a statement. -/
theorem print_round_trip_nested_conditionals :
    let source := "int f(void){if(a)if(b)int c;else({1});return-(1+2);}"
    let printed :=
      "int f ( ) { if ( a ) if ( b ) { int c ; } else ( { 1 } ) ; return - ( 1 + 2 ) ; } "
    ∃ p j, readProgram source (.new none) = (.ok p, j) ∧ p.print.toList = printed.toList ∧
      ∃ p' k, readProgram p.print (.new none) = (.ok p', k) ∧ p'.unplaced = p.unplaced := by
  intro source printed
  have hprint : (readProgram source (.new none)).1.toOption.map (·.print.toList) =
      some printed.toList := by
    decide +kernel
  cases hread : readProgram source (.new none) with
  | mk r j =>
      rw [hread] at hprint
      cases r with
      | ok p => exact ⟨p, j, rfl, Option.some.inj hprint, print_round_trip hread _⟩
      | error e => cases hprint

end PocketC
