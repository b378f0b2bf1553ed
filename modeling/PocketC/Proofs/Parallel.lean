/-
  PocketC.Proofs.Parallel

  Two computations side by side.  On states that are related, both give results that are
  related, or both stop for related reasons, and the states after them are related again.
  Reading and running are computations of this kind, with a state that every ending keeps.
-/

namespace PocketC

variable {ε σ α β : Type} {E : ε → ε → Prop} {S : σ → σ → Prop}

/-- Both ended with results that `Q` relates, or both stopped for reasons that `E` relates, and `S`
    relates the states after them. -/
inductive Ends (E : ε → ε → Prop) (S : σ → σ → Prop) (Q : α → α → Prop) :
    EStateM.Result ε σ α → EStateM.Result ε σ α → Prop where
  | ok {a a' : α} {s s' : σ} : Q a a' → S s s' → Ends E S Q (.ok a s) (.ok a' s')
  | error {e e' : ε} {s s' : σ} : E e e' → S s s' → Ends E S Q (.error e s) (.error e' s')

/-- Less may be asked of the states after them. -/
theorem Ends.mono {T : σ → σ → Prop} {Q : α → α → Prop} {r r' : EStateM.Result ε σ α}
    (h : Ends E S Q r r') (hT : ∀ s s', S s s' → T s s') : Ends E T Q r r' := by
  cases h with
  | ok ha hs => exact .ok ha (hT _ _ hs)
  | error he hs => exact .error he (hT _ _ hs)

/-- On related states both end alike. -/
def Parallel (E : ε → ε → Prop) (S : σ → σ → Prop) (x y : EStateM ε σ α) (Q : α → α → Prop) :
    Prop :=
  ∀ s s', S s s' → Ends E S Q (x s) (y s')

namespace Parallel

variable {x y : EStateM ε σ α} {f g : α → EStateM ε σ β} {Q : α → α → Prop} {R : β → β → Prop}

theorem pure {a b : α} (h : Q a b) : Parallel E S (pure a) (pure b) Q := fun _ _ hs => .ok h hs

theorem bind (hxy : Parallel E S x y Q) (hfg : ∀ a b, Q a b → Parallel E S (f a) (g b) R) :
    Parallel E S (x >>= f) (y >>= g) R := by
  intro s s' hs
  show Ends E S R (EStateM.bind x f s) (EStateM.bind y g s')
  unfold EStateM.bind
  match x s, y s', hxy s s' hs with
  | _, _, .ok hab hq => exact hfg _ _ hab _ _ hq
  | _, _, .error he hq => exact .error he hq

/-- Two computations whose first parts give the same. -/
theorem bindEq (hxy : Parallel E S x y Eq) (hfg : ∀ a, Parallel E S (f a) (g a) R) :
    Parallel E S (x >>= f) (y >>= g) R := by
  refine hxy.bind ?_
  rintro a _ rfl
  exact hfg a

/-- Computations that look at the state and leave it as it is. -/
theorem ofLook {f f' : σ → α} (hx : ∀ s, x s = .ok (f s) s) (hy : ∀ s, y s = .ok (f' s) s)
    (hf : ∀ s s', S s s' → Q (f s) (f' s')) : Parallel E S x y Q := by
  intro s s' hs
  rw [hx, hy]
  exact .ok (hf s s' hs) hs

end Parallel
end PocketC
