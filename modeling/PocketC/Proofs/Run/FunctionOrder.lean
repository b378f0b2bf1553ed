/-
  PocketC.Proofs.Run.FunctionOrder

  The order of functions does not matter.  Programs with the same nodes run in the same way
  if the nodes of variables are in the same order, wherever those of functions stand among
  them, as long as no function is defined twice and no variable is initialized by a call.

  The nodes of functions never stop a run, and what they bind in the end depends on which
  nodes there are alone.  Only the results and parameters of declarations that no body
  belongs to may differ, and no call can tell those apart.  The nodes of variables look at
  no function.  So both runs bind the same before they call `main`, or they stop at the same
  node.
-/

import PocketC.Proofs.Grammar.Sessions
import PocketC.Proofs.Run.GlobalScope
import PocketC.Proofs.Run.SideBySide
import PocketC.Proofs.Tree.Equality
import PocketC.Proofs.Tree.Scopes

namespace PocketC

open ScopeTree

/-! ## Nodes -/

/-- There is no call in the expression. -/
def Expr.CallFree (e : Expr) : Prop := ∀ name args l, ¬ e.Has (.call name args l)

theorem Expr.CallFree.part {e a : Expr} (he : e.CallFree) (ha : a ∈ e.parts) : a.CallFree :=
  fun name args l h => he name args l (Relation.ReflTransGen.head ha h)

theorem Expr.CallFree.ofParts {e : Expr} (he : ∀ name args l, e ≠ .call name args l)
    (hparts : ∀ a ∈ e.parts, a.CallFree) : e.CallFree := by
  intro name args l h
  rcases Relation.ReflTransGen.cases_head h with hself | ⟨a, ha, h⟩
  · exact he name args l hself
  · exact hparts a ha name args l h

namespace Stmt

/-- Whether the node declares a function. -/
def isFunction : Stmt → Bool
  | .declareFun .. => true
  | .group (.declareFun .. :: _) => true
  | _ => false

/-- There is no call in the statement. -/
def CallFree (s : Stmt) : Prop := ∀ r, s.Has r → ∀ e ∈ r.expressions, e.CallFree

theorem CallFree.part {s t : Stmt} (hs : s.CallFree) (ht : t ∈ s.parts) : t.CallFree :=
  fun r hr => hs r (Relation.ReflTransGen.head ht hr)

theorem CallFree.ofParts {s : Stmt} (hs : ∀ e ∈ s.expressions, e.CallFree)
    (hparts : ∀ t ∈ s.parts, t.CallFree) : s.CallFree := by
  intro r hr
  rcases Relation.ReflTransGen.cases_head hr with rfl | ⟨t, ht, hr⟩
  · exact hs
  · exact hparts t ht r hr

/-- The statements but for those that declare functions. -/
def variableNodes (ss : List Stmt) : List Stmt := ss.filter fun s => !s.isFunction

theorem variableNodes_cons_function {s : Stmt} {ss : List Stmt} (hs : s.isFunction = true) :
    variableNodes (s :: ss) = variableNodes ss := by
  simp [variableNodes, hs]

theorem variableNodes_cons_variable {s : Stmt} {ss : List Stmt} (hs : s.isFunction = false) :
    variableNodes (s :: ss) = s :: variableNodes ss := by
  simp [variableNodes, hs]

theorem declaresAll_eq_flatMap (ss : List Stmt) : declaresAll ss = ss.flatMap declares := by
  induction ss with
  | nil => rfl
  | cons s ss ih => simp [declaresAll, ih]

@[simp]
theorem declaresAll_append (ss ts : List Stmt) :
    declaresAll (ss ++ ts) = declaresAll ss ++ declaresAll ts := by
  simp [declaresAll_eq_flatMap]

@[simp]
theorem definitionsAll_append (ss ts : List Stmt) :
    definitionsAll (ss ++ ts) = definitionsAll ss ++ definitionsAll ts := by
  simp [definitionsAll_eq_flatMap]

/-- Declarations of variables declare no function. -/
theorem declares_of_plain {ss : List Stmt} (h : ∀ s ∈ ss, s.Plain) (name : String) (arity : Nat) :
    Symbol.fn name arity ∉ declaresAll ss := by
  rw [declaresAll_eq_flatMap, List.mem_flatMap]
  rintro ⟨s, hs, hdeclares⟩
  have hplain := h s hs
  cases s with
  | declareVar => cases List.mem_singleton.mp hdeclares
  | expression => cases hdeclares
  | _ => cases hplain

/-- No two definitions have the same name and number of parameters. -/
def DefinedOnce (ss : List Stmt) : Prop :=
  ((definitionsAll ss).map fun c => (c.name, c.params.length)).Nodup

theorem DefinedOnce.fresh {ss ts : List Stmt} {s : Stmt} (h : DefinedOnce (ss ++ s :: ts)) :
    ∀ c ∈ s.definitions, ∀ d ∈ definitionsAll ss,
      ¬ (d.name = c.name ∧ d.params.length = c.params.length) := by
  rw [DefinedOnce, definitionsAll_append, List.map_append, List.nodup_append] at h
  rintro c hc d hd ⟨hname, harity⟩
  have hc' : c ∈ definitionsAll (s :: ts) := List.mem_append_left _ hc
  refine h.2.2 _ (List.mem_map_of_mem hd) _ (List.mem_map_of_mem hc') ?_
  rw [hname, harity]

theorem isFunction_of_plain {ss : List Stmt} (h : ∀ s ∈ ss, s.Plain) :
    (group ss).isFunction = false := by
  cases ss with
  | nil => rfl
  | cons s ss =>
      have hplain := h s List.mem_cons_self
      cases s with
      | declareVar | expression => rfl
      | _ => cases hplain

end Stmt

/-! ## The functions that nodes bind -/

namespace FunctionMap

/-- The functions `T` are what the nodes `ss` bind. -/
structure Describes (T : FunctionMap) (ss : List Stmt) : Prop where
  declared : ∀ name arity, (T name arity).isSome ↔ Symbol.fn name arity ∈ Stmt.declaresAll ss
  defined : ∀ c ∈ Stmt.definitionsAll ss, ∃ result,
    T c.name c.params.length = some ⟨result, c.params, some c.body⟩
  written : ∀ name arity f body, T name arity = some f → f.body = some body →
    f.params.length = arity ∧ ⟨name, f.params, body⟩ ∈ Stmt.definitionsAll ss

variable {T T' : FunctionMap} {ss ss' : List Stmt}

theorem set_self (T : FunctionMap) (name : String) (arity : Nat) (f : Function) :
    T.set name arity f name arity = some f :=
  if_pos ⟨rfl, rfl⟩

theorem describes_nil : Describes (fun _ _ => none) [] where
  declared _ _ := by simp [Stmt.declaresAll, Stmt.declaresAll]
  defined _ hc := by cases hc
  written _ _ _ _ h := by cases h

/-- Only which functions the nodes declare and define matters. -/
theorem Describes.congr (h : T.Describes ss)
    (hdeclares : ∀ name arity, Symbol.fn name arity ∈ Stmt.declaresAll ss' ↔
      Symbol.fn name arity ∈ Stmt.declaresAll ss)
    (hdefinitions : ∀ c, c ∈ Stmt.definitionsAll ss' ↔ c ∈ Stmt.definitionsAll ss) :
    T.Describes ss' where
  declared name arity := by rw [hdeclares, h.declared]
  defined c hc := h.defined c ((hdefinitions c).mp hc)
  written name arity f body hf hbody := by
    rw [hdefinitions]
    exact h.written name arity f body hf hbody

/-- In any order the nodes bind the same functions. -/
theorem Describes.perm (h : T.Describes ss) (hperm : ss'.Perm ss) : T.Describes ss' := by
  refine h.congr (fun name arity => ?_) fun c => ?_
  · rw [Stmt.declaresAll_eq_flatMap, Stmt.declaresAll_eq_flatMap]
    exact (hperm.flatMap_right _).mem_iff
  · rw [Stmt.definitionsAll_eq_flatMap, Stmt.definitionsAll_eq_flatMap]
    exact (hperm.flatMap_right _).mem_iff

/-- The functions that some nodes bind are the same, as far as a call can tell. -/
theorem Describes.serves (h : T.Describes ss) (h' : T'.Describes ss) (name : String)
    (arity : Nat) : Option.Rel (Function.Serves Eq) (T name arity) (T' name arity) := by
  have hsome : (T name arity).isSome ↔ (T' name arity).isSome := by
    rw [h.declared, h'.declared]
  cases hf : T name arity with
  | none =>
      have hf' : T' name arity = none := by simpa [hf] using hsome
      rw [hf']
      exact .none
  | some f =>
      obtain ⟨f', hf'⟩ : ∃ f', T' name arity = some f' := by
        simpa [hf, Option.isSome_iff_exists] using hsome
      rw [hf']
      refine .some ?_
      unfold Function.Serves
      cases hbody : f.body with
      | some body =>
          obtain ⟨rfl, hc⟩ := h.written name arity f body hf hbody
          obtain ⟨result, hsame⟩ := h'.defined _ hc
          rw [hf'] at hsame
          cases hsame
          exact .some ⟨rfl, .refl (fun _ => rfl) body⟩
      | none =>
          cases hbody' : f'.body with
          | none => exact .none
          | some body' =>
              -- a body that one of them has belongs to a definition, and so both have it
              obtain ⟨rfl, hc⟩ := h'.written name arity f' body' hf' hbody'
              obtain ⟨result, hsame⟩ := h.defined _ hc
              rw [hf] at hsame
              cases hsame
              cases hbody

/-- A function that no node defines has no body. -/
theorem Describes.body_of_fresh (h : T.Describes ss) {name : String} {arity : Nat} {f : Function}
    (hf : T name arity = some f)
    (hfresh : ∀ c ∈ Stmt.definitionsAll ss, ¬ (c.name = name ∧ c.params.length = arity)) :
    f.body = none := by
  cases hbody : f.body with
  | none => rfl
  | some body =>
      obtain ⟨harity, hc⟩ := h.written name arity f body hf hbody
      exact absurd ⟨rfl, harity⟩ (hfresh _ hc)

/-! ### One node more -/

/-- The functions and one more, unless there is one with its name and number of parameters. -/
def declare (T : FunctionMap) (name result : String) (params : List Param) : FunctionMap :=
  if (T name params.length).isSome then T
  else T.set name params.length (.declared result params)

theorem Describes.group (h : T.Describes ss) {body : List Stmt} (hbody : ∀ s ∈ body, s.Plain) :
    T.Describes (ss ++ [.group body]) := by
  refine h.congr (fun name arity => ?_) fun c => ?_
  · have hnone := Stmt.declares_of_plain hbody name arity
    simp [Stmt.declaresAll, Stmt.declares, hnone]
  · simp [Stmt.definitionsAll, Stmt.definitions_of_plain hbody]

theorem Describes.declare (h : T.Describes ss) (name result : String) (params : List Param)
    (l : Location) :
    (T.declare name result params).Describes (ss ++ [.declareFun name result params l]) := by
  have hdefinitions : Stmt.definitionsAll (ss ++ [.declareFun name result params l]) =
      Stmt.definitionsAll ss := by
    simp [Stmt.definitionsAll, Stmt.definitions]
  have hdeclares : Stmt.declaresAll (ss ++ [.declareFun name result params l]) =
      Stmt.declaresAll ss ++ [.fn name params.length] := by
    simp [Stmt.declaresAll, Stmt.declares]
  unfold FunctionMap.declare
  split
  · -- the function was declared before
    rename_i hbound
    have hmem := (h.declared name params.length).mp hbound
    refine h.congr (fun name' arity' => ?_) fun c => by rw [hdefinitions]
    rw [hdeclares, List.mem_append, List.mem_singleton, or_iff_left_of_imp]
    rintro ⟨⟩
    exact hmem
  · rename_i hfree
    refine ⟨fun name' arity' => ?_, fun c hc => ?_, fun name' arity' f body hf hbody => ?_⟩
    · rw [hdeclares, List.mem_append, List.mem_singleton, ← h.declared, FunctionMap.set]
      by_cases hsame : name' = name ∧ arity' = params.length
      · simp [hsame]
      · rw [if_neg hsame, Symbol.fn.injEq, or_iff_left hsame]
    · rw [hdefinitions] at hc
      obtain ⟨result', hT⟩ := h.defined c hc
      refine ⟨result', ?_⟩
      rw [FunctionMap.set, if_neg, hT]
      rintro ⟨hname, harity⟩
      rw [← hname, ← harity, hT] at hfree
      exact hfree rfl
    · rw [hdefinitions]
      rw [FunctionMap.set] at hf
      split at hf
      · cases hf
        cases hbody
      · exact h.written name' arity' f body hf hbody

theorem Describes.define (h : T.Describes ss) {name : String} {params : List Param} {f : Function}
    (hf : T name params.length = some f) (result : String) {body : List Stmt} (l : Location)
    (hinner : Stmt.definitionsAll body = [])
    (hfresh : ∀ c ∈ Stmt.definitionsAll ss, ¬ (c.name = name ∧ c.params.length = params.length)) :
    (T.set name params.length ⟨f.result, params, some body⟩).Describes
      (ss ++ [.defineFun name result params body l]) := by
  have hdefinitions : Stmt.definitionsAll (ss ++ [.defineFun name result params body l]) =
      Stmt.definitionsAll ss ++ [⟨name, params, body⟩] := by
    simp [Stmt.definitionsAll, Stmt.definitions, hinner]
  have hdeclares : Stmt.declaresAll (ss ++ [.defineFun name result params body l]) =
      Stmt.declaresAll ss := by
    simp [Stmt.declaresAll, Stmt.declares]
  -- nothing that was defined before is replaced, by `hfresh`
  refine ⟨fun name' arity' => ?_, fun c hc => ?_, fun name' arity' g body' hg hbody => ?_⟩
  · rw [hdeclares, ← h.declared, FunctionMap.set]
    split
    · rename_i hsame
      rw [hsame.1, hsame.2, hf]
      simp
    · rfl
  · rw [hdefinitions, List.mem_append, List.mem_singleton] at hc
    rcases hc with hc | rfl
    · obtain ⟨result', hT⟩ := h.defined c hc
      exact ⟨result', by rw [FunctionMap.set, if_neg (hfresh c hc), hT]⟩
    · exact ⟨f.result, set_self T name params.length _⟩
  · rw [hdefinitions, List.mem_append, List.mem_singleton]
    rw [FunctionMap.set] at hg
    split at hg
    · rename_i hsame
      obtain ⟨rfl, rfl⟩ := hsame
      cases hg
      cases hbody
      exact ⟨rfl, .inr rfl⟩
    · obtain ⟨harity, hmem⟩ := h.written name' arity' g body' hg hbody
      exact ⟨harity, .inl hmem⟩

end FunctionMap

/-! ## Running the nodes -/

theorem Exec.run_function {limits : Limits} {fuel : Nat} {name result : String}
    {params : List Param} {body : List Stmt} {l : Location} {m q r : Machine}
    (hdeclare : runFunDeclaration name result params l m = .ok () q)
    (hdefine : runFunDefinition name params body l q = .ok () r) :
    run limits fuel (enter limits fuel)
      (.group [.declareFun name result params l, .defineFun name result params body l]) m =
      .ok .done r := by
  have hfirst : run limits fuel (enter limits fuel) (.declareFun name result params l) m =
      .ok .done q := by
    rw [run, bind_ok hdeclare]
    rfl
  have hsecond : run limits fuel (enter limits fuel) (.defineFun name result params body l) q =
      .ok .done r := by
    rw [run, bind_ok hdefine]
    rfl
  rw [run, runAll, bind_ok hfirst]
  dsimp only
  rw [runAll, bind_ok hsecond]
  rfl

namespace Machine

open Exec

variable {T : FunctionMap} {m m' : Machine} {limits : Limits} {fuel : Nat}

namespace Shares

theorem runFunDeclaration (h : Shares T m m') (name result : String) (params : List Param)
    (l : Location) : ∃ q, Exec.runFunDeclaration name result params l m' = .ok () q ∧
      Shares (T.declare name result params) m q := by
  unfold FunctionMap.declare
  have hbound := h.functions name params.length
  rcases runFunDeclaration_cases h.right.wellFormed name result params l with
    ⟨u, hu, hok⟩ | ⟨hsome, hok⟩
  · obtain ⟨hfree, hsets⟩ := h.right.declares hu
    have hnone : T name params.length = none := by simpa [hfree] using hbound.symm
    rw [if_neg (by simp [hnone])]
    exact ⟨_, hok, h.setFunction hsets⟩
  · rw [h.right.current, hbound, Option.isSome_map] at hsome
    rw [if_pos hsome]
    exact ⟨_, hok, h.log _⟩

theorem runFunDefinition (h : Shares T m m') {name : String} {params : List Param} {f : Function}
    (hf : T name params.length = some f) (hbody : f.body = none) (body : List Stmt)
    (l : Location) : ∃ q, Exec.runFunDefinition name params body l m' = .ok () q ∧
      Shares (T.set name params.length ⟨f.result, params, some body⟩) m q := by
  have hbound : m'.scopes.lookup m'.current (.fn name params.length) = some (.fn f) := by
    rw [h.right.lookup, h.functions, hf]
    rfl
  have hdefine : f.define params body = some ⟨f.result, params, some body⟩ := by
    rw [Function.define, hbody]
  obtain ⟨u, hu, hrebind⟩ := rebind_of_lookup h.right.wellFormed hbound
    (.fn ⟨f.result, params, some body⟩)
  refine ⟨_, ?_, h.setFunction (h.right.rebinds hu).2⟩
  rw [Exec.runFunDefinition, bind_ok (resolve_eq h.right.wellFormed _), hbound]
  dsimp only
  rw [hdefine]
  exact hrebind

/-- The node of a function never stops a run. -/
theorem runFunction (h : Shares T m m') {done : List Stmt} (hT : T.Describes done) {s : Stmt}
    (hnode : s.Node) (hs : s.isFunction = true)
    (hfresh : ∀ c ∈ s.definitions, ∀ d ∈ Stmt.definitionsAll done,
      ¬ (d.name = c.name ∧ d.params.length = c.params.length)) :
    ∃ T' q, run limits fuel (enter limits fuel) s m' = .ok .done q ∧ Shares T' m q ∧
      T'.Describes (done ++ [s]) := by
  cases hnode with
  | declarations hplain =>
      rw [Stmt.isFunction_of_plain hplain] at hs
      cases hs
  | signature name result params l =>
      obtain ⟨q, hq, hshares⟩ := h.runFunDeclaration name result params l
      refine ⟨_, q, ?_, hshares, hT.declare name result params l⟩
      rw [run, bind_ok hq]
      rfl
  | @function name result params body l hbody =>
      have hinner := Stmt.definitionsAll_of_contained hbody
      obtain ⟨q, hq, hshares⟩ := h.runFunDeclaration name result params l
      have hT' := hT.declare name result params l
      have hmem : Symbol.fn name params.length ∈
          Stmt.declaresAll (done ++ [.declareFun name result params l]) := by
        simp [Stmt.declaresAll, Stmt.declares]
      obtain ⟨f, hf⟩ := Option.isSome_iff_exists.mp ((hT'.declared _ _).mpr hmem)
      have hfresh' : ∀ d ∈ Stmt.definitionsAll (done ++ [.declareFun name result params l]),
          ¬ (d.name = name ∧ d.params.length = params.length) := by
        intro d hd
        refine hfresh ⟨name, params, body⟩ ?_ d ?_
        · simp [Stmt.definitionsAll, Stmt.definitions]
        · simpa [Stmt.definitionsAll, Stmt.definitions] using hd
      have hnone : f.body = none := hT'.body_of_fresh hf hfresh'
      obtain ⟨r, hr, hshares'⟩ := hshares.runFunDefinition hf hnone body l
      have hdefined := hT'.define hf result l hinner hfresh'
      refine ⟨_, r, run_function hq hr, hshares', hdefined.congr ?_ ?_⟩
      · simp [Stmt.declaresAll, Stmt.declares]
      · simp [Stmt.definitionsAll, Stmt.definitions]

end Shares
end Machine

namespace Exec

open Machine

variable {T : FunctionMap} {m m' : Machine} {limits : Limits} {fuel : Nat} {enter : Enter}

/-- Without calls there is nothing to enter. -/
theorem sharing_calls : (sharing T limits).Calls Expr.CallFree enter enter where
  parts _ he _ ha := he.part ha
  call name args _ l _ he := absurd .refl (he name args l)

theorem sharing_run (T : FunctionMap) (limits : Limits) (fuel : Nat) (enter : Enter) {s : Stmt}
    (hs : s.Plain) (hfree : s.CallFree) :
    (sharing T limits).Holds (run limits fuel enter s) (run limits fuel enter s) Eq := by
  have hexpressions := hfree s .refl
  cases s with
  | declareVar name type size l =>
      rw [run]
      refine (sharing T limits).bindEq ?_ fun _ => (sharing T limits).pure rfl
      refine (sharing T limits).runVarDeclaration sharing_calls name type
        (Expr.Alike.option_refl (fun _ => rfl) size) (fun e he => hexpressions e ?_) rfl
      exact Option.mem_toList.mpr he
  | expression e =>
      rw [run]
      have he := hexpressions e List.mem_cons_self
      refine (sharing T limits).bindEq ?_ fun _ => (sharing T limits).pure rfl
      exact (sharing T limits).eval sharing_calls (.refl (fun _ => rfl) e) he
  | _ => cases hs

theorem sharing_runAll (T : FunctionMap) (limits : Limits) (fuel : Nat) (enter : Enter) :
    ∀ {ss : List Stmt}, (∀ s ∈ ss, s.Plain) → (∀ s ∈ ss, s.CallFree) →
    (sharing T limits).Holds (runAll limits fuel enter ss) (runAll limits fuel enter ss) Eq
  | [], _, _ => (sharing T limits).pure rfl
  | s :: ss, hplain, hfree => by
      obtain ⟨hs, hss⟩ := List.forall_mem_cons.mp hplain
      obtain ⟨hsfree, hssfree⟩ := List.forall_mem_cons.mp hfree
      rw [runAll]
      refine (sharing T limits).bindEq (sharing_run T limits fuel enter hs hsfree) fun flow => ?_
      cases flow with
      | done => exact sharing_runAll T limits fuel enter hss hssfree
      | jump j => exact (sharing T limits).pure rfl
      | returned v => exact (sharing T limits).pure rfl

/-- How nodes end without those of functions and with them: they bind the same variables and, with
    them, the functions of `ss`, or they stop for the same reason and printed the same text. -/
inductive BindAlike (ss : List Stmt) : EStateM.Result Stop Machine Unit →
    EStateM.Result Stop Machine Unit → Prop where
  | ok {T : FunctionMap} {q q' : Machine} : Shares T q q' → T.Describes ss →
      BindAlike ss (.ok () q) (.ok () q')
  | error (stop : Stop) {q q' : Machine} : q.transcript.text = q'.transcript.text →
      BindAlike ss (.error stop q) (.error stop q')

/-- Behind variables that both run in the same way they go on alike, or both stopped there. -/
theorem BindAlike.behind {ss : List Stmt} {α : Type} {x : Exec α} {k k' : Exec Unit}
    (hx : (sharing T limits).Holds x x Eq) (h : Shares T m m')
    (hk : ∀ q q', Shares T q q' → BindAlike ss (k q) (k' q')) :
    BindAlike ss ((x >>= fun _ => k) m) ((x >>= fun _ => k') m') := by
  have hends := hx m m' h
  rw [bind_apply, bind_apply]
  generalize x m = r at hends ⊢
  generalize x m' = r' at hends ⊢
  cases hends with
  | ok _ hq => exact hk _ _ hq
  | error hstop hq =>
      cases hstop
      exact .error _ hq.text

theorem bindNodes_alike {ss done : List Stmt} (h : Shares T m m') (hT : T.Describes done)
    (hnodes : ∀ s ∈ ss, s.Node) (hfree : ∀ s ∈ ss, s.isFunction = false → s.CallFree)
    (honce : Stmt.DefinedOnce (done ++ ss)) :
    BindAlike (done ++ ss) (bindNodes limits fuel (Stmt.variableNodes ss) m)
      (bindNodes limits fuel ss m') := by
  -- `done` are the nodes before, and `T` is what those of functions among them bound
  induction ss generalizing done T m m' with
  | nil =>
      rw [List.append_nil]
      exact .ok h hT
  | cons s ss ih =>
      obtain ⟨hnode, hnodes⟩ := List.forall_mem_cons.mp hnodes
      obtain ⟨hsfree, hfree⟩ := List.forall_mem_cons.mp hfree
      have hrest : ∀ {T : FunctionMap} {q q' : Machine}, Shares T q q' →
          T.Describes (done ++ [s]) → BindAlike (done ++ s :: ss)
            (bindNodes limits fuel (Stmt.variableNodes ss) q) (bindNodes limits fuel ss q') := by
        intro T q q' hq hdescribes
        rw [List.append_cons] at honce ⊢
        exact ih hq hdescribes hnodes hfree honce
      rw [bindNodes]
      cases hs : s.isFunction with
      | true =>
          -- one run alone binds the function, and no variable of it changes
          obtain ⟨T', q, hrun, hshares, hdescribes⟩ := h.runFunction hT hnode hs honce.fresh
          rw [Stmt.variableNodes_cons_function hs, bind_ok hrun]
          exact hrest hshares hdescribes
      | false =>
          rw [Stmt.variableNodes_cons_variable hs, bindNodes]
          cases hnode with
          | signature | function => cases hs
          | @declarations body hplain =>
              have hbody := sharing_runAll T limits fuel (enter limits fuel) hplain
                fun r hr => (hsfree hs).part hr
              rw [run]
              exact BindAlike.behind hbody h fun q q' hq => hrest hq (hT.group hplain)

end Exec

/-! ## Programs with the same nodes -/

namespace Machine

variable {T T' : FunctionMap} {m q q' : Machine} {ss : List Stmt}

/-- What some nodes bind is the same in any order, as far as a run behind them can tell. -/
theorem Shares.beside (h : Shares T m q) (h' : Shares T' m q') (hT : T.Describes ss)
    (hT' : T'.Describes ss) : q.Beside (Function.Serves Eq) q' where
  scopes := by
    refine h.right.alike h'.right fun y => ?_
    cases y with
    | var name =>
        rw [← h.sameVariables, ← h'.sameVariables]
        cases m.scopes.boundAt global (.var name) with
        | none => exact .none
        | some b => exact .some (.refl (fun f => (Function.Alike.refl (fun _ => rfl) f).serves) b)
    | fn name arity =>
        rw [h.functions, h'.functions]
        match T name arity, T' name arity, hT.serves hT' name arity with
        | _, _, .none => exact .none
        | _, _, .some hf => exact .some (.fn hf)
  current := h.right.current.trans h'.right.current.symm
  activeCalls := h.activeCalls.symm.trans h'.activeCalls
  text := h.text.symm.trans h'.text

theorem shares_binding (m : Machine) (n : Nat) :
    Shares (fun _ _ => none) m.reset (m.reset.log (.binding n)) where
  left := m.atGlobal_reset
  right := m.atGlobal_reset.log _
  sameVariables _ := rfl
  functions _ _ := rfl
  activeCalls := rfl
  text := rfl

end Machine

namespace Exec

variable {limits : Limits} {fuel : Nat} {m : Machine} {p p' : Program}

/-- Programs with the same nodes, those of variables in the same order, run in the same way. -/
theorem runProgram_rearranged (hperm : p'.nodes.Perm p.nodes)
    (hvariables : Stmt.variableNodes p'.nodes = Stmt.variableNodes p.nodes)
    (hnodes : ∀ s ∈ p.nodes, s.Node) (hfree : ∀ s ∈ p.nodes, s.isFunction = false → s.CallFree)
    (honce : Stmt.DefinedOnce p.nodes) (limits : Limits) (fuel : Nat) (m : Machine) :
    Ends (Stop.Beside Eq) (fun q q' => q.transcript.text = q'.transcript.text) Eq
      (runProgram limits fuel p m.reset) (runProgram limits fuel p' m.reset) := by
  have honce' : Stmt.DefinedOnce p'.nodes := by
    unfold Stmt.DefinedOnce at honce ⊢
    rw [Stmt.definitionsAll_eq_flatMap] at honce ⊢
    exact (((hperm.flatMap_right _).map _).nodup_iff).mpr honce
  -- each program is compared with its variables alone, and these are the same for both
  have halike : ∀ ns : List Stmt, ns.Perm p.nodes → Stmt.DefinedOnce ns →
      BindAlike ns (bindNodes limits fuel (Stmt.variableNodes ns) m.reset)
        (bindNodes limits fuel ns (m.reset.log (.binding ns.length))) := fun ns hns hdefined =>
    bindNodes_alike (m.shares_binding ns.length) FunctionMap.describes_nil
      (fun s hs => hnodes s (hns.subset hs)) (fun s hs => hfree s (hns.subset hs)) hdefined
  have h := halike p.nodes (.refl _) honce
  have h' := halike p'.nodes hperm honce'
  rw [hvariables] at h'
  have hrun : ∀ p : Program, runProgram limits fuel p m.reset =
      (bindNodes limits fuel p.nodes >>= fun _ => callMain limits fuel)
        (m.reset.log (.binding p.nodes.length)) := fun p => bind_ok rfl
  rw [hrun, hrun, bind_apply, bind_apply]
  generalize bindNodes limits fuel p.nodes _ = r at h ⊢
  generalize bindNodes limits fuel p'.nodes _ = r' at h' ⊢
  generalize bindNodes limits fuel (Stmt.variableNodes p.nodes) m.reset = v at h h'
  cases h with
  | ok hshares hT =>
      cases h' with
      | ok hshares' hT' =>
          have hbeside := hshares.beside hshares' hT (hT'.perm hperm.symm)
          have hmain := (sideBySide limits rfl (Function.serving Eq)).callMain fuel _ _ hbeside
          exact hmain.mono fun _ _ hq => hq.text
  | error stop htext =>
      cases h' with
      | error _ htext' => exact .error (.refl (fun _ => rfl) stop) (htext.symm.trans htext')

end Exec

namespace Program

/-- The nodes of `p'` are those of `p`, at places that `At` relates: those of variables in the same
    order, and those of functions in any order and anywhere among them. -/
def Moved (At : Location → Location → Prop) (p p' : Program) : Prop :=
  ∃ ns, ns.Perm p.nodes ∧ Stmt.variableNodes ns = Stmt.variableNodes p.nodes ∧
    Stmt.AlikeAll At ns p'.nodes

end Program

/-- Where the functions stand among the nodes of a program that was read does not matter, if none
    is defined twice and no variable of the program is initialized or sized by a call: under the
    same limits both programs give the same value, or they stop for the same reason at places that
    stand for each other, or they go on for ever; and what they print is the same text. -/
theorem function_order_does_not_matter {At : Location → Location → Prop} (hstart : At .start .start)
    {p p' : Program} (hp : p.Parsed) (hmoved : p.Moved At p') (honce : Stmt.DefinedOnce p.nodes)
    (hfree : ∀ s ∈ p.nodes, s.isFunction = false → s.CallFree) (limits : Limits) (fuel : Nat)
    (m : Machine) :
    Session.SameRun At (Session.run ⟨p, limits, m⟩ fuel) (Session.run ⟨p', limits, m⟩ fuel) := by
  obtain ⟨ns, hperm, hvariables, halike⟩ := hmoved
  have hrearranged := Exec.runProgram_rearranged hperm hvariables hp.nodes hfree honce limits fuel m
  have hbeside := Session.run_beside hstart (Function.alike At) halike m.beside_reset limits fuel
  exact (Session.sameRun_of_ends hrearranged).ofEq hbeside

/-- Two functions that call each other, one of them also declared with another result and another
    name of its parameter, in two orders around the variable that `main` reads. -/
theorem function_order_does_not_matter_recursion :
    let l := Location.start
    let word (s : String) : Token := ⟨.identifier, some s, l⟩
    let sign (k : Kind) : Token := ⟨k, none, l⟩
    let number (s : String) : Token := ⟨.intLiteral, some s, l⟩
    let function (name other : String) (last : String) : List Token :=
      [word "int", word name, sign .openParen, word "int", word "n", sign .closeParen,
        sign .openBrace, sign .kwIf, sign .openParen, word "n", sign .closeParen, sign .kwReturn,
        word other, sign .openParen, word "n", sign .minus, number "1", sign .closeParen,
        sign .semicolon, sign .kwReturn, number last, sign .semicolon, sign .closeBrace]
    let ts : List Token := [sign .startOfInput, word "char", word "odd", sign .openParen,
        word "int", word "m", sign .closeParen, sign .semicolon, word "int", word "x",
        sign .assign, number "3", sign .semicolon] ++
      function "even" "odd" "1" ++ function "odd" "even" "0" ++
      [word "int", word "main", sign .openParen, sign .closeParen, sign .openBrace, sign .kwReturn,
        word "odd", sign .openParen, word "x", sign .closeParen, sign .semicolon, sign .closeBrace,
        sign .endOfInput]
    let define (name : String) (ps : List Param) (body : List Stmt) : Stmt :=
      .group [.declareFun name "int" ps l, .defineFun name "int" ps body l]
    let recursive (name other : String) (last : Int) : Stmt :=
      define name [⟨"int", "n"⟩] [.ifElse (.var "n" l) (.returnValue (some (.call other
        [.binary .sub (.var "n" l) (.int 1 l) l] l)) l) (.group []) l,
        .returnValue (some (.int last l)) l]
    let odd : Stmt := .declareFun "odd" "char" [⟨"int", "m"⟩] l
    let x : Stmt := .group [.declareVar "x" "int" none l, .expression (.assign "x" (.int 3 l) l)]
    let main : Stmt := define "main" [] [.returnValue (some (.call "odd" [.var "x" l] l)) l]
    let p : Program := ⟨[odd, x, recursive "even" "odd" 1, recursive "odd" "even" 0, main]⟩
    let p' : Program := ⟨[main, recursive "odd" "even" 0, x, odd, recursive "even" "odd" 1]⟩
    let m : Machine := .new (.new none)
    ((Parser.ofCursor (.ofTokens ts)).afterReadings 0).parse.1.toOption = some p ∧ p.Moved Eq p' ∧
      Stmt.DefinedOnce p.nodes ∧
      ((Session.mk p .standard m).run 6).1.toOption = some (.int 1) ∧
      Session.SameRun Eq (Session.run ⟨p, .standard, m⟩ 6) (Session.run ⟨p', .standard, m⟩ 6) := by
  intro l word sign number function ts define recursive odd x main p p' m
  have hread : ((Parser.ofCursor (.ofTokens ts)).afterReadings 0).parse.1.toOption = some p := by
    decide +kernel
  have hparsed : p.Parsed := by
    refine ⟨ts, 0, ?_⟩
    cases h : ((Parser.ofCursor (.ofTokens ts)).afterReadings 0).parse.1 with
    | ok program =>
        rw [h] at hread
        rw [Option.some.inj hread]
    | error e =>
        rw [h] at hread
        cases hread
  have hmoved : p.Moved Eq p' :=
    ⟨p'.nodes, by decide +kernel, rfl, .refl (fun _ => rfl) _⟩
  have honce : Stmt.DefinedOnce p.nodes := by
    unfold Stmt.DefinedOnce
    decide +kernel
  have hx : x.CallFree := by
    have hthree : (Expr.int 3 l).CallFree := .ofParts nofun nofun
    have hassign : (Expr.assign "x" (.int 3 l) l).CallFree :=
      .ofParts nofun (List.forall_mem_singleton.mpr hthree)
    refine .ofParts nofun (List.forall_mem_cons.mpr ⟨.ofParts nofun nofun, ?_⟩)
    exact List.forall_mem_singleton.mpr (.ofParts (List.forall_mem_singleton.mpr hassign) nofun)
  have hfree : ∀ s ∈ p.nodes, s.isFunction = false → s.CallFree := by
    intro s hs hvariable
    have hmem : s ∈ Stmt.variableNodes p.nodes := List.mem_filter.mpr ⟨hs, by rw [hvariable]; rfl⟩
    rw [show Stmt.variableNodes p.nodes = [x] from rfl, List.mem_singleton] at hmem
    rw [hmem]
    exact hx
  exact ⟨hread, hmoved, honce, by decide +kernel,
    function_order_does_not_matter rfl hparsed hmoved honce hfree .standard 6 m⟩

end PocketC
