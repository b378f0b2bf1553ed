/-
  PocketC.Proofs.Run.ArraySizes

  How many elements the arrays have that variables hold, at any depth.  The limit is
  checked where an array is declared with a size.  All other arrays are array literals
  that were evaluated, whose elements the program lists, or such as were filled up to the
  length of an array that they were stored over.
-/

import PocketC.Proofs.Run.WrittenParts

namespace PocketC

open Exec

/-! ## Arrays inside of values -/

/-- The value is an array of `n` elements, or an array that holds one at some depth. -/
inductive Value.HasArray (n : Nat) : Value → Prop where
  | self {es : List Value} : es.length = n → HasArray n (.array es)
  | element {v : Value} {es : List Value} : v ∈ es → HasArray n v → HasArray n (.array es)

namespace Value

variable {n : Nat}

theorem hasArray_array {es : List Value} :
    (Value.array es).HasArray n ↔ es.length = n ∨ ∃ v ∈ es, v.HasArray n := by
  constructor
  · intro h
    cases h with
    | self hn => exact .inl hn
    | element hv h => exact .inr ⟨_, hv, h⟩
  · rintro (hn | ⟨v, hv, h⟩)
    · exact .self hn
    · exact .element hv h

theorem not_hasArray_uninitialized : ¬uninitialized.HasArray n := nofun

theorem HasArray.of_replicate {k : Nat} (h : (array (List.replicate k uninitialized)).HasArray n) :
    n = k := by
  rcases hasArray_array.mp h with hn | ⟨v, hv, h⟩
  · rw [← hn, List.length_replicate]
  · rw [List.eq_of_mem_replicate hv] at h
    exact absurd h not_hasArray_uninitialized

/-- A store makes no array longer: what the variable then holds has the length of what it held, or
    it is what was stored. -/
theorem HasArray.of_fitting {name : String} {old new w : Value} (hw : w.HasArray n)
    (h : old.fitting name new = .ok w) : old.HasArray n ∨ new.HasArray n := by
  unfold fitting at h
  split at h
  · rename_i current elements
    split at h
    · cases h
      rcases hasArray_array.mp hw with hn | ⟨v, hv, hasv⟩
      · left
        rw [List.length_append, List.length_replicate] at hn
        exact .self (by omega)
      · rcases List.mem_append.mp hv with hv | hv
        · exact .inr (.element hv hasv)
        · rw [List.eq_of_mem_replicate hv] at hasv
          exact absurd hasv not_hasArray_uninitialized
    · cases h
  · cases h
    exact .inr hw

theorem HasArray.of_set {es : List Value} {i : Nat} {new : Value}
    (h : (array (es.set i new)).HasArray n) : (array es).HasArray n ∨ new.HasArray n := by
  rcases hasArray_array.mp h with hn | ⟨v, hv, hasv⟩
  · rw [List.length_set] at hn
    exact .inl (.self hn)
  · rcases List.mem_or_eq_of_mem_set hv with hv | rfl
    · exact .inl (.element hv hasv)
    · exact .inr hasv

end Value

/-! ## The invariant -/

/-- An array may have so many elements: the limit allows them, or an array literal of the program
    lists as many. -/
def Program.AllowsLength (limits : Limits) (p : Program) (n : Nat) : Prop :=
  n ≤ limits.elements ∨ ∃ es l, p.HasExpr (.array es l) ∧ es.length = n

/-- Every array in the value may have the elements that it has. -/
def Program.AllowsValue (limits : Limits) (p : Program) (v : Value) : Prop :=
  ∀ n, v.HasArray n → p.AllowsLength limits n

/-- Every array in what a variable is bound to may have the elements that it has. -/
def Program.AllowsBinding (limits : Limits) (p : Program) (_ : Symbol) : Binding → Prop
  | .var v => p.AllowsValue limits v.value
  | .fn _ => True

namespace Program

variable {limits : Limits} {p : Program} {v : Value}

theorem allowsValue_of_declarable (h : v.Declarable limits (p.AllowsValue limits)) :
    p.AllowsValue limits v := by
  rcases h with rfl | ⟨n, hn, rfl⟩ | h
  · exact fun _ harray => absurd harray Value.not_hasArray_uninitialized
  · intro k harray
    rw [harray.of_replicate]
    exact .inl hn
  · exact h

theorem allowsValue_of_literal {es : List Expr} {l : Location} {vs : List Value}
    (hliteral : p.HasExpr (.array es l)) (hlength : vs.length = es.length)
    (hvs : ∀ v ∈ vs, p.AllowsValue limits v) : p.AllowsValue limits (.array vs) := by
  intro n harray
  rcases Value.hasArray_array.mp harray with rfl | ⟨v, hv, hasv⟩
  · exact .inr ⟨es, l, hliteral, hlength.symm⟩
  · exact hvs v hv n hasv

end Program

namespace Exec

/-- In a run of a program, the arrays that variables hold have no more elements than they may. -/
def sizeInvariant (limits : Limits) (fuel : Nat) (p : Program) (m : Machine) :
    Invariant limits (.ofProgram fuel p m) where
  Holds q := q.scopes.Binds (p.AllowsBinding limits)
  Val := p.AllowsValue limits
  int _ := nofun
  char _ := nofun
  string _ := nofun
  void := nofun
  array hp hlength hvs := by
    rcases hp.writes with hliteral | hentry
    · exact Program.allowsValue_of_literal hliteral hlength fun v hv => (hvs v hv).1
    · cases hentry
  read h hv _ := h.lookup hv
  readElement h hv hes he _ n harray := by
    have hallows := h.lookup hv n
    rw [hes] at hallows
    exact hallows (.element he harray)
  store _ _ h hval _ hfits hu := by
    have hw : p.AllowsValue limits _ := fun n harray =>
      (harray.of_fitting hfits).elim (hu.bound h n) (hval n)
    exact ⟨hu.binds h fun _ => hw, hw⟩
  assignElement _ _ h hval _ hes _ hu := by
    refine hu.binds h fun hv n harray => harray.of_set.elim ?_ (hval n)
    rw [← hes]
    exact hv n
  declareVar _ _ h hdeclare hu := hu.binds h (Program.allowsValue_of_declarable hdeclare)
  declareFun _ _ h hu := hu.binds h trivial
  defineFun _ _ _ h _ hu := hu.binds h fun _ => trivial
  opens _ _ h _ := h.nest _
  closes _ _ h hclose _ := h.close hclose
  quiet hq h := by
    rw [hq.scopes]
    exact h

end Exec

/-- At every moment of every run of a program, each array that a variable holds, at any depth, has
    as many elements as the limit allows or as an array literal of the program lists. -/
theorem array_sizes_bounded (limits : Limits) (fuel : Nat) (p : Program) (m : Machine) :
    let root := Part.ofProgram fuel p m
    ∀ q, root.Moment limits q → ∀ i name v, q.scopes.boundAt i (.var name) = some (.var v) →
      ∀ n, v.value.HasArray n →
        n ≤ limits.elements ∨ ∃ es l, p.HasExpr (.array es l) ∧ es.length = n := by
  intro root q hq i name v hb
  let L := Exec.sizeInvariant limits fuel p m
  have hroot : L.At root := L.at_ofProgram ScopeTree.binds_new
  exact ScopeTree.binds_iff.mp (hroot.moment hq) i _ _ hb

/-- Where two elements are the limit, a literal gives a variable an array of three. -/
theorem array_sizes_bounded_literal :
    let l := Location.start
    let main : List Stmt := [.declareVar "xs" "int[]" none l,
      .expression (.assign "xs" (.array [.int 1 l, .int 2 l, .int 3 l] l) l)]
    let p : Program := ⟨[.declareFun "main" "int" [] l, .defineFun "main" "int" [] main l]⟩
    let limits : Limits := ⟨48, 2⟩
    let root := Part.ofProgram 2 p (.new (.new none))
    ∃ q, root.Moment limits q ∧
      q.scopes.boundAt 1 (.var "xs") =
        some (.var ⟨"int[]", .array [.int 1, .int 2, .int 3]⟩) ∧
      ¬3 ≤ limits.elements ∧ ∃ es l, p.HasExpr (.array es l) ∧ es.length = 3 := by
  intro l main p limits root
  let global : Scope := ⟨[(.fn "main" 0, .fn ⟨"int", [], some main⟩)], none⟩
  let m (own : List (Symbol × Binding)) : Machine :=
    ⟨⟨[global, ⟨own, some 0⟩]⟩, 1, 1, .new, .new none⟩
  have hmain : Part.Within limits root ⟨1, .runAll main, m []⟩ :=
    (((Part.Within.refl root).begins (.main rfl)).begins (.call rfl rfl)).begins
      (.callBody (by decide) rfl)
  have hdeclared := hmain.begins (.otherStatements
    (q := m [(.var "xs", .var ⟨"int[]", .uninitialized⟩)]) rfl)
  have hassigned : root.Moment limits
      (m [(.var "xs", .var ⟨"int[]", .array [.int 1, .int 2, .int 3]⟩)]) :=
    ⟨_, hdeclared, .inr rfl⟩
  have hlength := array_sizes_bounded limits 2 p (.new (.new none)) _ hassigned 1 "xs" _ rfl 3
    (.self rfl)
  exact ⟨_, hassigned, rfl, by decide, hlength.resolve_left (by decide)⟩

end PocketC
