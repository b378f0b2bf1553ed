/-
  PocketC.Proofs.Grammar.Prompt.Program

  Reading the nodes of a program is prompt.
-/

import PocketC.Proofs.Grammar.Prompt.Stmt

namespace PocketC
namespace Grammar

open Parse

variable {loops : Nat}

/-! ## Lists behind their first item -/

theorem prompt_sequenceAfter {α : Type} {L : Rows α} {x y : Parse α} {size room : Nat}
    (hitem : Prompt loops size room L x y) (hne : ∀ a w, L a w → w ≠ []) {a : α}
    {u : List Token} (ha : L a u) (n n' : Nat) :
    Prompt loops (min n size) (min n' room) (fun as w => L.Separated as (u ++ w))
      (sequenceAfter x n a) (sequenceAfter y n' a) := by
  have hlast : L.Separated [a] (u ++ []) := by
    rw [List.append_nil]
    exact .one ha
  refine Prompt.bounded size room (fun (_ : Unit) => loops)
    (fun _ as w => L.Separated as (u ++ w)) (fun n _ => sequenceAfter x n a)
    (fun n _ => sequenceAfter y n a) ?_ ?_ ?_ n n' ()
  · intro n _ p p' _ hlen hp' _
    have hcomma : p'.next ≠ .comma := by
      rw [hp'.next, Parser.next_of_length_le_zero hlen]
      decide
    have hnone : ∀ n, sequenceAfter y n a p' = .ok [a] p' := by
      intro n
      cases n with
      | zero => rfl
      | succ n =>
          rw [sequenceAfter, bind_ok (accept_of_ne hcomma)]
          rfl
    rw [hnone, hnone]
  · exact fun _ => .pure hlast
  · intro n n' _ _
    refine .accept (by decide) (fun comma hc => ?_) (.pure hlast)
    have hrest := hitem.sequence hne n n'
    refine (hrest.le (by omega) (by omega)).bind fun as w has => .pure ?_
    rw [List.append_nil]
    exact .more ha hc has

/-! ## Functions -/

theorem prompt_paramAfter {type : Token} (ht : type.kind = .identifier) (size room : Nat) :
    Prompt loops size room (fun p w => Parameter p (type :: w)) (paramAfter type)
      (paramAfter type) := by
  refine .expect (by decide) fun name hn => .accept (by decide) (fun opening ho => ?_) ?_
  · exact .expect (by decide) fun closing hc => .pure (.array ht hn ho hc)
  · exact .pure (.plain ht hn)

theorem prompt_param (size room : Nat) : Prompt loops size room Parameter param param := by
  rw [param_eq]
  exact .expect (by decide) fun type ht => prompt_paramAfter ht _ _

theorem prompt_paramsAfter {type : Token} (ht : type.kind = .identifier) (b b' : Nat) :
    Prompt loops b b' (fun ps w => Parameters ps (type :: w)) (paramsAfter b type)
      (paramsAfter b' type) := by
  have hmore : Prompt loops b b' (fun ps w => Parameters ps (type :: w))
      (paramAfter type >>= sequenceAfter param b) (paramAfter type >>= sequenceAfter param b') := by
    refine (prompt_paramAfter ht b b').bind fun first v hv => ?_
    have hparam : Prompt loops b b' Parameter param param := prompt_param b b'
    have hrest := prompt_sequenceAfter hparam (fun _ _ h => h.ne_nil) hv b b'
    exact (hrest.le (by omega) (by omega)).mono fun ps w hps => .some hps
  unfold paramsAfter
  by_cases hvoid : type.text = "void"
  · simp only [if_pos hvoid]
    exact .sees (.pure (.void ht hvoid)) hmore
  · simp only [if_neg hvoid]
    exact hmore

theorem prompt_params (b b' : Nat) : Prompt loops b b' Parameters (params b) (params b') := by
  rw [params_eq, params_eq]
  refine .sees (.pure .none) (.expect (by decide) fun type ht => ?_)
  exact (prompt_paramsAfter ht b b').le (by omega) (by omega)

theorem prompt_functionAfter {type name opening : Token} (ht : type.kind = .identifier)
    (hn : name.kind = .identifier) (ho : opening.kind = .openParen) (b b' : Nat) :
    Prompt 0 b b' (fun s w => TopLevel s (type :: name :: opening :: w)) (functionAfter b type name)
      (functionAfter b' type name) := by
  refine (prompt_params b b').bind fun ps v hv => ?_
  refine .expect (by decide) fun closing hc => .sees ?_ ?_
  · have hbraces : Prompt 0 b b' (fun ss w => ∃ start stop u, start.kind = .openBrace ∧
        stop.kind = .closeBrace ∧ Forms 0 (.statements ss) u ∧ w = start :: u ++ [stop])
        (braces (statement b) b) (braces (statement b') b') := by
      refine .expect (by decide) fun start hstart => ?_
      have hbody := prompt_bracesAfter (prompt_statement b b') 0 (Nat.le_refl _) (Nat.le_refl _)
      refine (hbody.le (by omega) (by omega)).mono ?_
      rintro ss _ ⟨stop, u, hstop, hu, rfl⟩
      exact ⟨start, stop, u, hstart, hstop, hu, rfl⟩
    refine (hbraces.le (by omega) (by omega)).bind ?_
    rintro ss _ ⟨start, stop, u, hstart, hstop, hu, rfl⟩
    refine .pure ?_
    have hall := TopLevel.function ht hn ho hv hc hstart hu hstop
    simpa using hall
  · refine .expect (by decide) fun semi hs => .pure ?_
    exact .signature ht hn ho hv hc hs

theorem prompt_topLevel (b b' : Nat) : Prompt 0 b b' TopLevel (topLevel b) (topLevel b') := by
  rw [topLevel_eq, topLevel_eq]
  refine .expect (by decide) fun type ht => .expect (by decide) fun name hn => ?_
  refine .accept (by decide) (fun opening ho => ?_) ?_
  · exact (prompt_functionAfter ht hn ho b b').le (by omega) (by omega)
  · refine ((prompt_declaratorAfter type.text hn b b').le (by omega) (by omega)).bind ?_
    intro first u hu
    have hone : Prompt 0 b b' (Declarator type.text) (declarator type.text b)
        (declarator type.text b') := prompt_declarator type.text b b'
    have hrest := prompt_sequenceAfter hone (fun _ _ h => h.ne_nil) hu b b'
    refine (hrest.le (by omega) (by omega)).bind fun groups w hgroups => ?_
    refine .expect (by decide) fun semi hs => .pure ?_
    have hall := TopLevel.declaration (.intro ht hgroups) hs
    simpa using hall

/-- Reading the nodes of a program is prompt. -/
theorem prompt_nodes (b b' : Nat) :
    Prompt 0 b b' (.Repeated TopLevel) (manyUntil .endOfInput (topLevel b) b)
      (manyUntil .endOfInput (topLevel b') b') := by
  have hmany := (prompt_topLevel b b').manyUntil (fun _ _ h => h.ne_nil) .endOfInput b b'
  exact hmany.le (by omega) (by omega)

end Grammar

/-- A program that was read is formed of the tokens that were read, between the two ends of the
    input. -/
theorem parse_sound {p q : Parser} {program : Program} (hp : p.openLoops = 0)
    (h : p.parse = (.ok program, q)) :
    ∃ first w r, first.kind = .startOfInput ∧ p = Parser.prepend r (first :: w) ∧ Inside w ∧
      Rows.Repeated TopLevel program.nodes w := by
  have hread : Grammar.program p = .ok program q := by
    rw [Parser.parse] at h
    cases hread : Grammar.program p <;> rw [hread] at h <;> cases h
    rfl
  rw [Grammar.program] at hread
  obtain ⟨first, p', hfirst, hrest⟩ := Parse.bind_eq_ok.mp hread
  obtain ⟨hkind, rfl⟩ := Parse.expect_eq_ok (by decide) hfirst
  obtain ⟨_, _, ⟨rfl, rfl⟩, hrest⟩ := Parse.bind_eq_ok.mp hrest
  obtain ⟨nodes, r, hnodes, hrest⟩ := Parse.bind_eq_ok.mp hrest
  obtain ⟨_, _, _, hpure⟩ := Parse.bind_eq_ok.mp hrest
  cases hpure
  have hend := (Grammar.prompt_nodes _ 0).reads p' hp (Nat.le_refl _)
  unfold Parse.PromptAt at hend
  rw [hnodes] at hend
  cases hend with
  | ok w front inside row again =>
      exact ⟨first, w, r, hkind, by rw [front, Parser.prepend_prepend]; rfl, inside, row⟩

end PocketC
