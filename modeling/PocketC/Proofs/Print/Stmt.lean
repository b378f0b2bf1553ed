/-
  PocketC.Proofs.Print.Stmt

  Printed declarations and statements are read back.  As for expressions there is one
  lemma for each form, and the whole is by induction on how the row of tokens is formed
  that the statement was read from.
-/

import PocketC.Proofs.Grammar.Acceptance
import PocketC.Proofs.Print.Expr

namespace PocketC

open Token (mark name inParens separated)

namespace Stmt

/-! ## Types -/

/-- The name of a type has no brackets. -/
def IsName (type : String) : Prop := ∀ c ∈ type.toList, isNameChar c = true

theorem isArrayType_array (type : String) : isArrayType (type ++ "[]") = true := by
  rw [isArrayType, List.isSuffixOf_iff_suffix, String.toList_append]
  exact List.suffix_append ..

theorem elementType_array (type : String) : elementType (type ++ "[]") = type := by
  rw [elementType, if_pos (isArrayType_array type), String.toList_append]
  simp

theorem isArrayType_of_isName {type : String} (h : IsName type) : isArrayType type = false := by
  rw [Bool.eq_false_iff]
  intro harray
  rw [isArrayType, List.isSuffixOf_iff_suffix] at harray
  exact absurd (h ']' (harray.subset (by decide))) (by decide)

theorem elementType_of_isName {type : String} (h : IsName type) : elementType type = type := by
  rw [elementType, isArrayType_of_isName h, if_neg Bool.false_ne_true]

end Stmt

open Stmt (IsName)

/-! ## Declarators -/

variable {loops : Nat} {s : Stmt} {w : List Token}

/-- What is seen of what stands behind a declared name. -/
def seenSuffix (suffix : String × Option Expr) : String × Option Expr :=
  (suffix.1, suffix.2.map Expr.unplaced)

theorem Suffix.prints {type : String} {suffix : String × Option Expr} (h : Suffix type suffix w)
    (htype : IsName type) (hw : ∀ t ∈ w, t.IsLexeme) :
    Prints (Suffix type) seenSuffix suffix (Stmt.suffix suffix.1 suffix.2) := by
  cases h with
  | none =>
      rw [Stmt.suffix, Stmt.brackets, Stmt.isArrayType_of_isName htype, if_neg Bool.false_ne_true]
      exact .nil .none rfl
  | unsized =>
      rw [Stmt.suffix, Stmt.brackets, if_pos (Stmt.isArrayType_array type)]
      exact .mark rfl fun opening ho => .mark rfl fun closing hc => .nil (.unsized ho hc) rfl
  | sized _ _ size =>
      have hsize := size.printed fun t ht => hw t (by simp [ht])
      refine .mark rfl fun opening ho => ?_
      refine hsize.operand.append fun e v hv hsame => .mark rfl fun closing hc => ?_
      exact .nil (.sized ho hc hv.ofValue) (by simp [seenSuffix, hsame])

/-- The tokens of one declarator. -/
def declaratorTokens (group : List Stmt) : List Token := separated (Stmt.declarators group)

theorem Declarator.prints {type : String} {group : List Stmt} (h : Declarator type group w)
    (htype : IsName type) (hw : ∀ t ∈ w, t.IsLexeme) :
    Prints (Declarator type) Stmt.unplacedAll group (declaratorTokens group) := by
  cases h with
  | @bare n suffix v hn hsuffix =>
      have hprints := hsuffix.prints htype fun t ht => hw t (by simp [ht])
      refine .name ((hw n (by simp)).name hn) fun n' hn' htext => ?_
      refine hprints.imp fun suffix' v hv hsame => ⟨_, .bare hn' hv, ?_⟩
      obtain ⟨hfirst, hsecond⟩ := Prod.mk.inj hsame
      simp only [Stmt.unplacedAll, Stmt.unplaced, htext, hfirst, hsecond]
  | @initialized n sign suffix e v w hn hsuffix hs value =>
      have hprints := hsuffix.prints htype fun t ht => hw t (by simp [ht])
      have hvalue := value.printed fun t ht => hw t (by simp [ht])
      refine .name ((hw n (by simp)).name hn) fun n' hn' htext => ?_
      refine hprints.append fun suffix' v hv hsame => .mark rfl fun sign hs => ?_
      refine hvalue.operand.imp fun e' w hw hsame' => ⟨_, .initialized hn' hv hs hw.ofValue, ?_⟩
      obtain ⟨hfirst, hsecond⟩ := Prod.mk.inj hsame
      simp only [Stmt.unplacedAll, Stmt.unplaced, Expr.unplaced, htext, hfirst, hsecond, hsame']

/-- A declarator begins with the declaration of a variable. -/
theorem Declarator.front {type : String} {group : List Stmt} (h : Declarator type group w) :
    ∃ suffix n l rest, group = .declareVar n suffix.1 suffix.2 l :: rest ∧
      ∃ v, Suffix type suffix v := by
  cases h with
  | bare _ hsuffix => exact ⟨_, _, _, _, rfl, _, hsuffix⟩
  | initialized _ hsuffix => exact ⟨_, _, _, _, rfl, _, hsuffix⟩

theorem front_of_separated {type : String} {groups : List (List Stmt)}
    (h : Rows.Separated (Declarator type) groups w) :
    ∃ suffix n l rest, groups.flatten = .declareVar n suffix.1 suffix.2 l :: rest ∧
      ∃ v, Suffix type suffix v := by
  cases h with
  | one last =>
      obtain ⟨suffix, n, l, rest, rfl, hsuffix⟩ := last.front
      exact ⟨suffix, n, l, rest ++ [], rfl, hsuffix⟩
  | more first =>
      obtain ⟨suffix, n, l, rest, rfl, hsuffix⟩ := first.front
      exact ⟨suffix, n, l, _, rfl, hsuffix⟩

/-- What is behind a declarator begins another one. -/
theorem declarators_append {type : String} {group ss : List Stmt} (h : Declarator type group w)
    (hss : ∀ e rest, ss ≠ .expression e :: rest) :
    Stmt.declarators (group ++ ss) = declaratorTokens group :: Stmt.declarators ss := by
  cases h with
  | initialized => rfl
  | bare =>
      -- an assignment right behind it would be taken for its initial value
      cases ss with
      | nil => rfl
      | cons s ss =>
          cases s with
          | expression e => exact absurd rfl (hss e ss)
          | _ => rfl

theorem declarators_flatten {type : String} {groups : List (List Stmt)}
    (h : Rows.Separated (Declarator type) groups w) :
    Stmt.declarators groups.flatten = groups.map declaratorTokens := by
  induction h with
  | one last =>
      rw [List.flatten_cons, declarators_append last (by simp)]
      rfl
  | more first _ others ih =>
      obtain ⟨_, _, _, _, hfront, -⟩ := front_of_separated others
      rw [List.flatten_cons, declarators_append first (by simp [hfront]), ih, List.map_cons]

theorem elementType_of_suffix {type : String} {suffix : String × Option Expr}
    (h : Suffix type suffix w) (htype : IsName type) : Stmt.elementType suffix.1 = type := by
  cases h with
  | none => exact Stmt.elementType_of_isName htype
  | _ => exact Stmt.elementType_array type

theorem chain_flatten {type : String} {groups : List (List Stmt)} (htype : IsName type)
    (h : Rows.Separated (Declarator type) groups w) :
    Stmt.chain groups.flatten = name type :: separated (groups.map declaratorTokens) := by
  obtain ⟨suffix, n, l, rest, hfront, v, hsuffix⟩ := front_of_separated h
  rw [← declarators_flatten h, hfront, Stmt.chain, elementType_of_suffix hsuffix htype]

/-! ## Declarations -/

theorem Variables.prints (h : Variables s w) (hw : ∀ t ∈ w, t.IsLexeme) :
    Prints Variables Stmt.unplaced s s.clause := by
  cases h with
  | @intro type groups w ht hgroups =>
      have hlex : type.IsLexeme := hw type List.mem_cons_self
      have htype : IsName type.text := hlex.isNameChar ht
      have hall := hgroups.forall_mem (fun t ht => hw t (by simp [ht])) fun group v hgroup hv =>
        hgroup.prints htype hv
      rw [Stmt.clause, chain_flatten htype hgroups]
      refine .name (hlex.name ht) fun type' ht' htext => ?_
      refine (Prints.separated hgroups.ne_nil hall).imp fun groups' v hv hsame => ?_
      rw [← htext] at hv
      refine ⟨_, .intro ht' hv, ?_⟩
      rw [Stmt.unplaced, Stmt.unplaced, Stmt.unplacedAll_flatten, hsame, Stmt.unplacedAll_flatten]

theorem VariablesOrExpression.prints (h : VariablesOrExpression s w) (hw : ∀ t ∈ w, t.IsLexeme) :
    Prints VariablesOrExpression Stmt.unplaced s s.clause := by
  cases h with
  | declaration h => exact (h.prints hw).mono fun _ _ hv => .declaration hv
  | expression h =>
      have hprints := Expr.prints_inParens (h.printed hw).expression
      refine hprints.imp fun e v hv hsame => ⟨.expression e, .expression hv.ofValue, ?_⟩
      simp only [Stmt.unplaced, hsame]

/-! ## Simple statements -/

theorem Simple.prints (h : Simple loops s w) (hw : ∀ t ∈ w, t.IsLexeme) :
    Prints (Simple loops) Stmt.unplaced s s.clause := by
  cases h with
  | leave _ hopen => exact .mark rfl fun t ht => .nil (.leave ht hopen) rfl
  | next _ hopen => exact .mark rfl fun t ht => .nil (.next ht hopen) rfl
  | done => exact .mark rfl fun t ht => .nil (.done ht) rfl
  | value _ h =>
      have hprinted := h.printed fun t ht => hw t (by simp [ht])
      refine .mark rfl fun t ht => hprinted.expression.imp fun e v hv hsame => ⟨_, .value ht hv, ?_⟩
      simp [Stmt.unplaced, hsame]
  | @intrinsic n _ _ es _ hn _ _ args =>
      have hes : ∀ e ∈ es, e.Printed := args.printed fun t ht => hw t (by simp [ht])
      have hlex := hw n (by simp)
      have hprinted := Token.isLexeme_unplaced.mpr hlex
      rw [hlex.unplaced_eq (.inr hn), hn] at hprinted
      refine .cons hprinted rfl fun n' hn' => .mark rfl fun opening ho => ?_
      refine (Expr.prints_operands hes).append fun es' v hv hsame => .mark rfl fun closing hc => ?_
      have hkind : n'.kind = .intrinsic := congrArg Token.kind hn'
      have htext : n'.text = n.text := congrArg (fun t => t.kept.getD "") hn'
      exact .nil (.intrinsic hkind ho hc hv) (by simp only [Stmt.unplaced, htext, hsame])
  | other h => exact (h.prints hw).mono fun _ _ hv => .other hv

/-- A simple statement is printed with a `;`, and does not begin with a brace. -/
theorem Simple.tokens (h : Simple loops s w) :
    s.tokens = s.clause ++ [mark .semicolon] ∧
      ∃ t ts, s.clause = t :: ts ∧ t.kind ≠ .openBrace := by
  cases h with
  | other h =>
      cases h with
      | expression h => exact ⟨rfl, _, _, rfl, nofun⟩
      | declaration h =>
          cases h with
          | intro ht hgroups =>
              obtain ⟨suffix, n, l, rest, hfront, -⟩ := front_of_separated hgroups
              rw [hfront]
              exact ⟨rfl, _, _, rfl, nofun⟩
  | _ => exact ⟨rfl, _, _, rfl, nofun⟩

/-! ## What is not seen of a statement -/

namespace Stmt

theorem isGroup_unplaced (s : Stmt) : s.unplaced.isGroup = s.isGroup := by
  cases s <;> rfl

theorem openEnded_unplaced (s : Stmt) : s.unplaced.openEnded = s.openEnded := by
  fun_induction openEnded s with
  | case1 => rfl
  | case2 c yes no l hno ih =>
      rw [unplaced, openEnded, ih]
      exact fun h => hno (unplaced_eq_group_nil.mp h)
  | case3 _ _ _ ih => exact ih
  | case4 _ _ _ _ _ ih => exact ih
  | case5 s hnoElse helse hwhile hfor =>
      cases s with
      | ifElse c yes no l => exact absurd rfl (helse c yes no l)
      | whileLoop c body l => exact absurd rfl (hwhile c body l)
      | forLoop init c step body l => exact absurd rfl (hfor init c step body l)
      | _ => rfl

theorem enclosed_of_isGroup {s : Stmt} (h : s.isGroup = false) (l : Location) :
    s.enclosed l = s := by
  cases s with
  | group => cases h
  | _ => rfl

end Stmt

/-! ## Statements -/

/-- The statements of the form are read back, with so many loops around them. -/
def Form.Printed (loops : Nat) : Form → Prop
  | .statement s => Prints (fun s w => Forms loops (.statement s) w) Stmt.unplaced s s.tokens
  | .statements ss =>
      Prints (fun ss w => Forms loops (.statements ss) w) Stmt.unplacedAll ss (Stmt.tokensAll ss)
  | .branch s => Prints (fun s w => Forms loops (.branch s) w) Stmt.unplaced s s.tokens

theorem prints_block {ss : List Stmt} {l : Location} (h : (Form.statements ss).Printed loops) :
    (Form.statement (.block ss l)).Printed loops := by
  refine .mark rfl fun opening ho => ?_
  refine Prints.append h fun ss' v hv hsame => .mark rfl fun closing hc => ?_
  exact .nil (.block ho hc hv) (by rw [Stmt.unplaced, hsame, Stmt.unplaced])

theorem prints_cons {ss : List Stmt} (h : (Form.statement s).Printed loops)
    (hss : (Form.statements ss).Printed loops) : (Form.statements (s :: ss)).Printed loops := by
  refine Prints.append h fun s' v hv hsame => ?_
  refine Prints.imp hss fun ss' w hw hsames => ⟨_, .cons hv hw, ?_⟩
  rw [Stmt.unplacedAll, Stmt.unplacedAll, hsame, hsames]

/-- A statement that is no declaration is a branch as it is. -/
theorem prints_branch (h : (Form.statement s).Printed loops) (hs : s.isGroup = false) :
    (Form.branch s).Printed loops := by
  refine Prints.imp h fun s' v hv hsame => ⟨s', ?_, hsame⟩
  obtain ⟨t, ts, rfl⟩ := hv.exists_cons
  have hgroup : s'.isGroup = false := by
    rw [← s'.isGroup_unplaced, hsame, s.isGroup_unplaced, hs]
  have hbranch := Forms.branch hv
  rwa [Stmt.enclosed_of_isGroup hgroup] at hbranch

theorem prints_enclosed (h : (Form.statement s).Printed loops) (l : Location) :
    (Form.branch (s.enclosed l)).Printed loops := by
  -- a declaration is printed with the braces of the block that it gets
  cases hs : s.isGroup with
  | false =>
      rw [Stmt.enclosed_of_isGroup hs]
      exact prints_branch h hs
  | true =>
      cases s with
      | group ss => exact prints_branch (prints_block (prints_cons h (.nil .nil rfl))) rfl
      | _ => cases hs

theorem Stmt.tokens_ifElse {no : Stmt} (h : no.isGroup = false) (c : Expr) (yes : Stmt)
    (l : Location) : (ifElse c yes no l).tokens =
      mark .kwIf :: inParens c.tokens ++ (yes.tokens ++ mark .kwElse :: no.tokens) := by
  cases no with
  | group => cases h
  | _ => rfl

section
variable {c : Expr} {yes no body : Stmt} {l : Location} (hc : c.Printed)
include hc

theorem prints_ifThen (hyes : (Form.branch yes).Printed loops) :
    (Form.statement (.ifElse c yes (.group []) l)).Printed loops := by
  refine .mark rfl fun keyword hk => ?_
  refine .inParens hc.expression fun opening closing c v ho hc hv hsame => ?_
  refine Prints.imp hyes fun yes w hw hsame' => ⟨_, .ifThen hk ho hc hv hw, ?_⟩
  simp only [Stmt.unplaced, hsame, hsame']

theorem prints_ifElse (hyes : (Form.branch yes).Printed loops) (hclosed : yes.openEnded = false)
    (hno : (Form.branch no).Printed loops) (hgroup : no.isGroup = false) :
    (Form.statement (.ifElse c yes no l)).Printed loops := by
  rw [Form.Printed, Stmt.tokens_ifElse hgroup]
  refine .mark rfl fun keyword hk => ?_
  refine .inParens hc.expression fun opening closing c u ho hc hu hsame => ?_
  refine Prints.append hyes fun yes' v hv hsame₁ => .mark rfl fun other hother => ?_
  refine Prints.imp hno fun no' w hw hsame₂ => ?_
  -- the branch that is read again is closed as the first one was, so it leaves the `else`
  have hclosed' : yes'.openEnded = false := by
    rw [← yes'.openEnded_unplaced, hsame₁, Stmt.openEnded_unplaced, hclosed]
  have hall := Forms.ifElse hk ho hc hu hv hclosed' hother hw
  refine ⟨_, by simpa using hall, ?_⟩
  simp only [Stmt.unplaced, hsame, hsame₁, hsame₂]

theorem prints_whileLoop (hbody : (Form.statement body).Printed (loops + 1)) :
    (Form.statement (.whileLoop c body l)).Printed loops := by
  refine .mark rfl fun keyword hk => ?_
  refine .inParens hc.expression fun opening closing c v ho hc hv hsame => ?_
  refine Prints.imp hbody fun body w hw hsame' => ⟨_, .whileLoop hk ho hc hv hw, ?_⟩
  simp only [Stmt.unplaced, hsame, hsame']

theorem prints_forLoop {init : Stmt} {step : Expr}
    (hinit : Prints VariablesOrExpression Stmt.unplaced init init.clause) (hstep : step.Printed)
    (hbody : (Form.statement body).Printed (loops + 1)) :
    (Form.statement (.forLoop init c step body l)).Printed loops := by
  refine .mark rfl fun keyword hk => .mark rfl fun opening ho => ?_
  refine hinit.append fun init t ht hsame₁ => .mark rfl fun semi hs => ?_
  refine hc.expression.append fun c u hu hsame₂ => .mark rfl fun semi' hs' => ?_
  refine hstep.expression.append fun step v hv hsame₃ => .mark rfl fun closing hc => ?_
  refine Prints.imp hbody fun body w hw hsame₄ => ?_
  have hall := Forms.forLoop hk ho ht hs hu hs' hv hc hw
  refine ⟨_, by simpa using hall, ?_⟩
  simp only [Stmt.unplaced, hsame₁, hsame₂, hsame₃, hsame₄]

end

theorem prints_simple (h : Simple loops s w) (hw : ∀ t ∈ w, t.IsLexeme) :
    (Form.statement s).Printed loops := by
  have hclause := h.prints hw
  -- the first token tells a simple statement from a block, so it is kept in sight
  obtain ⟨htokens, t, ts, hfront, hkind⟩ := h.tokens
  rw [hfront] at htokens hclause
  rw [Form.Printed, htokens]
  refine hclause.head.append ?_
  rintro s' _ ⟨hs', u, us, rfl, hu⟩ hsame
  exact .mark rfl fun semi hs => .nil (.simple hs' (hu ▸ hkind) hs) hsame

/-- What lexemes are formed as is read back when it is printed. -/
theorem Forms.prints {form : Form} (h : Forms loops form w) (hw : ∀ t ∈ w, t.IsLexeme) :
    form.Printed loops := by
  induction h with
  | block _ _ _ ih => exact prints_block (ih fun t ht => hw t (by simp [ht]))
  | ifThen _ _ _ test _ ih =>
      have htest := test.printed fun t ht => hw t (by simp [ht])
      exact prints_ifThen htest (ih fun t ht => hw t (by simp [ht]))
  | ifElse _ _ _ test _ hclosed _ second ihyes ihno =>
      have htest := test.printed fun t ht => hw t (by simp [ht])
      have hyes := ihyes fun t ht => hw t (by simp [ht])
      have hno := ihno fun t ht => hw t (by simp [ht])
      exact prints_ifElse htest hyes hclosed hno second.isGroup_branch
  | whileLoop _ _ _ test _ ih =>
      have htest := test.printed fun t ht => hw t (by simp [ht])
      exact prints_whileLoop htest (ih fun t ht => hw t (by simp [ht]))
  | forLoop _ _ first _ test _ next _ _ ih =>
      have hinit := first.prints fun t ht => hw t (by simp [ht])
      have htest := test.printed fun t ht => hw t (by simp [ht])
      have hstep := next.printed fun t ht => hw t (by simp [ht])
      exact prints_forLoop htest hinit hstep (ih fun t ht => hw t (by simp [ht]))
  | simple h _ _ => exact prints_simple h fun t ht => hw t (List.mem_append_left _ ht)
  | nil => exact .nil .nil rfl
  | cons _ _ ihfirst ihothers =>
      exact prints_cons (ihfirst fun t ht => hw t (by simp [ht]))
        (ihothers fun t ht => hw t (by simp [ht]))
  | branch _ ih => exact prints_enclosed (ih hw) _

end PocketC
