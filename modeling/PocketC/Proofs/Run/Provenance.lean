/-
  PocketC.Proofs.Run.Provenance

  Where the functions come from that a run calls: every function that is bound during
  a run is one that a definition of the program bound.

  The invariant is a statement about all bindings of all live scopes.  `Functions` says
  which functions may be bound and which definitions may be run; there are two of them,
  one for all programs and one for those that were read from a source text.  A run that
  keeps the bindings among the allowed ones only stops for an allowed reason.
-/

import PocketC.Proofs.Names.Binds
import PocketC.Proofs.Run.NameLogic
import PocketC.Proofs.Run.Steps

namespace PocketC

/-! ## Functions that may be bound -/

/-- The functions that may be bound to a symbol, and the definitions that may be run. -/
structure Functions where
  Fn : Callee → Prop
  Def : Callee → Prop
  fn_of_def {c : Callee} : Def c → Fn c
  definitions {c : Callee} : Fn c → ∀ d ∈ Stmt.definitionsAll c.body, Def d

namespace Functions

/-- Those that some statements define. -/
def definedIn (ss : List Stmt) : Functions where
  Fn c := c ∈ Stmt.definitionsAll ss
  Def c := c ∈ Stmt.definitionsAll ss
  fn_of_def := id
  definitions hc _ hd := Stmt.definitionsAll_body ss hc hd

/-- Those that no jump leaves and that define no others; they are bound right behind their
    declarations, and no other definition is run. -/
def closed : Functions where
  Fn c := Stmt.closed c.body ∧ Stmt.definitionsAll c.body = []
  Def _ := False
  fn_of_def := False.elim
  definitions hc d hd := by
    rw [hc.2] at hd
    cases hd

variable (F : Functions)

/-- What a symbol may be bound to. -/
def Bound : Symbol → Binding → Prop
  | .var _, .var _ => True
  | .fn name _, .fn f => ∀ body, f.body = some body → F.Fn ⟨name, f.params, body⟩
  | _, _ => False

/-- Why a run may stop. -/
def Allows : Stop → Prop
  | .fault f => ∀ name arity, f.cause = .missingDeclaration name arity →
    ∃ c, F.Def c ∧ c.name = name ∧ c.params.length = arity
  | .defect (.jumpEscaped j name) => ∃ c, F.Fn c ∧ c.name = name ∧ Stmt.escapesAny j c.body = true
  | _ => True

variable {F}

theorem bound_define {c : Callee} (hc : F.Fn c) {f g : Function}
    (h : f.define c.params c.body = some g) : F.Bound (.fn c.name c.params.length) (.fn g) := by
  intro body hbody
  unfold Function.define at h
  -- a function that has a body already takes no second one
  split at h
  · cases h
  · cases h
    cases hbody
    exact hc

theorem allows_fault {f : Fault} (h : f.cause.ofDefinition = false) : F.Allows (.fault f) := by
  intro name arity hcause
  rw [hcause] at h
  cases h

end Functions

/-! ## The logic -/

namespace Exec

variable {α β : Type} {F : Functions} {Q : α → Prop}

/-- What a run may end in: all bindings are allowed, `Q` holds of the result, and the reason why
    it stopped is allowed. -/
def Gives (F : Functions) (Q : α → Prop) : EStateM.Result Stop Machine α → Prop
  | .ok a q => q.scopes.Binds F.Bound ∧ Q a
  | .error stop q => q.scopes.Binds F.Bound ∧ F.Allows stop

theorem Gives.bind {x : Exec α} {f : α → Exec β} {R : β → Prop} {m : Machine}
    (hx : Gives F Q (x m))
    (hf : ∀ a q, x m = .ok a q → q.scopes.Binds F.Bound → Q a → Gives F R (f a q)) :
    Gives F R ((x >>= f) m) := by
  cases hxm : x m with
  | ok a q =>
      rw [hxm] at hx
      rw [bind_ok hxm]
      exact hf a q hxm hx.1 hx.2
  | error stop q =>
      rw [hxm] at hx
      rw [bind_error hxm]
      exact hx

/-- Run where all bindings are allowed, `x` ends so. -/
def Keeps (F : Functions) (x : Exec α) (Q : α → Prop) : Prop :=
  ∀ m, m.scopes.Binds F.Bound → Gives F Q (x m)

namespace Keeps

theorem bind {x : Exec α} {f : α → Exec β} {R : β → Prop} (hx : Keeps F x Q)
    (hf : ∀ a, Q a → Keeps F (f a) R) : Keeps F (x >>= f) R := by
  intro m hm
  refine (hx m hm).bind ?_
  intro a q _ hq ha
  exact hf a ha q hq

theorem ofStop {x : Exec α} (stop : Stop) (h : F.Allows stop) (hx : ∀ m, x m = .error stop m) :
    Keeps F x Q := by
  intro m hm
  rw [hx]
  exact ⟨hm, h⟩

theorem currentScope : Keeps F currentScope fun _ => True := by
  intro m hm
  unfold Exec.currentScope
  split
  · exact ⟨hm, trivial⟩
  · exact ⟨hm, trivial⟩

theorem search (y : Symbol) : Keeps F (search y) fun _ => True := by
  refine bind currentScope fun scope _ => ?_
  intro m hm
  dsimp only
  split
  · exact ⟨hm, trivial⟩
  · exact ⟨hm, trivial⟩

theorem resolve (y : Symbol) : Keeps F (resolve y) fun r => ∀ b, r = some b → F.Bound y b :=
  bind (search y) fun _ _ _ hm => ⟨hm, fun _ h => hm.lookup h⟩

theorem declare {y : Symbol} {b : Binding} (hb : F.Bound y b) :
    Keeps F (declare y b) fun _ => True := by
  refine bind currentScope fun scope _ => ?_
  intro m hm
  dsimp only
  split
  · rename_i scopes hscopes
    exact ⟨hm.declare hb hscopes, trivial⟩
  · exact ⟨hm, trivial⟩

theorem rebind {y : Symbol} {b : Binding} (hb : F.Bound y b) :
    Keeps F (rebind y b) fun _ => True := by
  refine bind (search y) fun scope _ => ?_
  intro m hm
  dsimp only
  split
  · rename_i scopes hscopes
    exact ⟨hm.rebind hb hscopes, trivial⟩
  · exact ⟨hm, trivial⟩

theorem openScope (parent : Nat) : Keeps F (openScope parent) fun _ => True := by
  intro m hm
  unfold Exec.openScope
  split
  · exact ⟨hm.nest parent, trivial⟩
  · exact ⟨hm, trivial⟩

theorem closeScope (scope saved : Nat) : Keeps F (closeScope scope saved) fun _ => True := by
  intro m hm
  unfold Exec.closeScope
  split
  · rename_i scopes hscopes
    exact ⟨hm.close hscopes, trivial⟩
  · exact ⟨hm, trivial⟩

theorem afterwards {body : Exec α} {last : Exec Unit} (hbody : Keeps F body Q)
    (hlast : Keeps F last fun _ => True) : Keeps F (afterwards body last) Q := by
  intro m hm
  have h := hbody m hm
  unfold Exec.afterwards
  cases hb : body m with
  | ok a q =>
      rw [hb] at h
      have hpure : Keeps F (pure a) Q := fun _ hq => ⟨hq, h.2⟩
      exact bind hlast (fun _ _ => hpure) q h.1
  | error stop q =>
      rw [hb] at h
      cases stop with
      | fault f =>
          have hfault : Keeps F (fault f.cause f.location) Q := ofStop (.fault f) h.2 fun _ => rfl
          exact bind hlast (fun _ _ => hfault) q h.1
      | defect d => exact h
      | outOfFuel => exact h

theorem inNewScope (parent : Nat) {body : Exec α} (h : Keeps F body Q) :
    Keeps F (inNewScope parent body) Q :=
  bind currentScope fun saved _ => bind (openScope parent) fun scope _ =>
    afterwards h (closeScope scope saved)

theorem inCall {body : Exec α} (h : Keeps F body Q) : Keeps F (inCall body) Q := by
  have hmodify : ∀ f : Machine → Machine, (∀ m, (f m).scopes = m.scopes) →
      Keeps F (modify f) fun _ => True := by
    intro f hf m hm
    refine ⟨?_, trivial⟩
    rw [hf]
    exact hm
  exact bind (hmodify _ fun _ => rfl) fun _ _ => afterwards h (hmodify _ fun _ => rfl)

end Keeps

/-- Keeping the bindings among allowed ones is a logic. -/
def keepsLogic (limits : Limits) (F : Functions) : NameLogic limits where
  Holds := Keeps F
  pure h := fun _ hm => ⟨hm, h⟩
  bind := Keeps.bind
  fault h := .ofStop (.fault _) (Functions.allows_fault h) fun _ => rfl
  Bound := F.Bound
  Fn := F.Fn
  Def := F.Def
  bound_var := fun _ _ => trivial
  bound_declared := fun _ _ _ _ h => by cases h
  bound_define hc _ h := Functions.bound_define (F.fn_of_def hc) h
  fn_of_bound h hbody := h _ hbody
  resolve := Keeps.resolve
  declare := Keeps.declare
  rebind := Keeps.rebind
  definitions := F.definitions
  missingDeclaration {c _ _} hc := by
    refine .ofStop (.fault _) ?_ fun _ => rfl
    rintro name arity ⟨⟩
    exact ⟨c, hc, rfl, rfl⟩
  secondBody _ := .ofStop (.fault _) (by rintro name arity ⟨⟩) fun _ => rfl
  inInnerScope h := Keeps.bind Keeps.currentScope fun parent _ => h.inNewScope parent
  checkDepth name l := by
    intro m hm
    rw [checkDepth_eq]
    split
    · exact ⟨hm, Functions.allows_fault rfl⟩
    · exact ⟨hm, trivial⟩
  log _ := fun _ hm => ⟨hm, trivial⟩
  inCall h := (h.inNewScope ScopeTree.global).inCall
  escaped {c j} hc h := .ofStop (.defect (.jumpEscaped j c.name)) ⟨c, hc, rfl, h⟩ fun _ => rfl
  print _ _ := fun _ hm => ⟨hm, trivial⟩
  outOfFuel := .ofStop .outOfFuel trivial fun _ => rfl

end Exec
end PocketC
