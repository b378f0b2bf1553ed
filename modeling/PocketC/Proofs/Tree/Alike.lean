/-
  PocketC.Proofs.Tree.Alike

  Trees that differ in the places of their nodes alone.  How two places that stand for
  each other have to be related is a parameter: trees are the same if the places have to
  be equal (`Stmt.Alike.eq`), and they are the same up to places if any two will do.
-/

import PocketC.Run.Expr

namespace PocketC

/-- Any place stands for any other. -/
def Location.Anywhere (_ _ : Location) : Prop := True

/-! ## Alike trees -/

mutual

/-- The same expression, with places that `At` relates. -/
inductive Expr.Alike (At : Location → Location → Prop) : Expr → Expr → Prop where
  | int {l l' : Location} (n : Int) : At l l' → Expr.Alike At (.int n l) (.int n l')
  | char {l l' : Location} (c : Char) : At l l' → Expr.Alike At (.char c l) (.char c l')
  | string {l l' : Location} (s : String) : At l l' →
      Expr.Alike At (.string s l) (.string s l')
  | var {l l' : Location} (name : String) : At l l' →
      Expr.Alike At (.var name l) (.var name l')
  | binary {left left' right right' : Expr} {l l' : Location} (op : BinaryOp) :
      Expr.Alike At left left' → Expr.Alike At right right' → At l l' →
      Expr.Alike At (.binary op left right l) (.binary op left' right' l')
  | negate {operand operand' : Expr} {l l' : Location} : Expr.Alike At operand operand' →
      At l l' → Expr.Alike At (.negate operand l) (.negate operand' l')
  | assign {value value' : Expr} {l l' : Location} (name : String) :
      Expr.Alike At value value' → At l l' →
      Expr.Alike At (.assign name value l) (.assign name value' l')
  | assignElement {index index' value value' : Expr} {l l' : Location} (name : String) :
      Expr.Alike At index index' → Expr.Alike At value value' → At l l' →
      Expr.Alike At (.assignElement name index value l) (.assignElement name index' value' l')
  | call {args args' : List Expr} {l l' : Location} (name : String) :
      Expr.AlikeAll At args args' → At l l' →
      Expr.Alike At (.call name args l) (.call name args' l')
  | array {elements elements' : List Expr} {l l' : Location} :
      Expr.AlikeAll At elements elements' → At l l' →
      Expr.Alike At (.array elements l) (.array elements' l')
  | element {index index' : Expr} {l l' : Location} (name : String) :
      Expr.Alike At index index' → At l l' →
      Expr.Alike At (.element name index l) (.element name index' l')

/-- As many expressions, each alike the one that stands for it. -/
inductive Expr.AlikeAll (At : Location → Location → Prop) : List Expr → List Expr → Prop where
  | nil : Expr.AlikeAll At [] []
  | cons {e e' : Expr} {es es' : List Expr} : Expr.Alike At e e' → Expr.AlikeAll At es es' →
      Expr.AlikeAll At (e :: es) (e' :: es')

end

mutual

/-- The same statement, with places that `At` relates. -/
inductive Stmt.Alike (At : Location → Location → Prop) : Stmt → Stmt → Prop where
  | declareVar {size size' : Option Expr} {l l' : Location} (name type : String) :
      Option.Rel (Expr.Alike At) size size' → At l l' →
      Stmt.Alike At (.declareVar name type size l) (.declareVar name type size' l')
  | declareFun {l l' : Location} (name result : String) (params : List Param) : At l l' →
      Stmt.Alike At (.declareFun name result params l) (.declareFun name result params l')
  | defineFun {body body' : List Stmt} {l l' : Location} (name result : String)
      (params : List Param) : Stmt.AlikeAll At body body' → At l l' →
      Stmt.Alike At (.defineFun name result params body l)
        (.defineFun name result params body' l')
  | block {body body' : List Stmt} {l l' : Location} : Stmt.AlikeAll At body body' → At l l' →
      Stmt.Alike At (.block body l) (.block body' l')
  | group {body body' : List Stmt} : Stmt.AlikeAll At body body' →
      Stmt.Alike At (.group body) (.group body')
  | ifElse {condition condition' : Expr} {yes yes' no no' : Stmt} {l l' : Location} :
      Expr.Alike At condition condition' → Stmt.Alike At yes yes' → Stmt.Alike At no no' →
      At l l' → Stmt.Alike At (.ifElse condition yes no l) (.ifElse condition' yes' no' l')
  | whileLoop {condition condition' : Expr} {body body' : Stmt} {l l' : Location} :
      Expr.Alike At condition condition' → Stmt.Alike At body body' → At l l' →
      Stmt.Alike At (.whileLoop condition body l) (.whileLoop condition' body' l')
  | forLoop {init init' body body' : Stmt} {condition condition' step step' : Expr}
      {l l' : Location} : Stmt.Alike At init init' → Expr.Alike At condition condition' →
      Expr.Alike At step step' → Stmt.Alike At body body' → At l l' →
      Stmt.Alike At (.forLoop init condition step body l)
        (.forLoop init' condition' step' body' l')
  | breakLoop {l l' : Location} : At l l' → Stmt.Alike At (.breakLoop l) (.breakLoop l')
  | continueLoop {l l' : Location} : At l l' →
      Stmt.Alike At (.continueLoop l) (.continueLoop l')
  | returnValue {value value' : Option Expr} {l l' : Location} :
      Option.Rel (Expr.Alike At) value value' → At l l' →
      Stmt.Alike At (.returnValue value l) (.returnValue value' l')
  | intrinsic {args args' : List Expr} {l l' : Location} (name : String) :
      Expr.AlikeAll At args args' → At l l' →
      Stmt.Alike At (.intrinsic name args l) (.intrinsic name args' l')
  | expression {e e' : Expr} : Expr.Alike At e e' →
      Stmt.Alike At (.expression e) (.expression e')

/-- As many statements, each alike the one that stands for it. -/
inductive Stmt.AlikeAll (At : Location → Location → Prop) : List Stmt → List Stmt → Prop where
  | nil : Stmt.AlikeAll At [] []
  | cons {s s' : Stmt} {ss ss' : List Stmt} : Stmt.Alike At s s' → Stmt.AlikeAll At ss ss' →
      Stmt.AlikeAll At (s :: ss) (s' :: ss')

end

/-- The same function to enter, with bodies that are alike. -/
structure Callee.Alike (At : Location → Location → Prop) (c c' : Callee) : Prop where
  name : c.name = c'.name
  params : c.params = c'.params
  body : Stmt.AlikeAll At c.body c'.body

/-! ## Expressions -/

namespace Expr

variable {At : Location → Location → Prop}

theorem Alike.location {e e' : Expr} (h : Alike At e e') : At e.location e'.location := by
  cases h <;> assumption

theorem AlikeAll.length {es es' : List Expr} (h : AlikeAll At es es') :
    es.length = es'.length := by
  induction es generalizing es' with
  | nil => cases h; rfl
  | cons e es ih =>
      cases h with
      | cons _ hes => exact congrArg (· + 1) (ih hes)

theorem AlikeAll.isEmpty {es es' : List Expr} (h : AlikeAll At es es') :
    es.isEmpty = es'.isEmpty := by
  cases h <;> rfl

mutual

/-- An expression is alike itself if every place stands for itself. -/
theorem Alike.refl (hAt : ∀ l, At l l) : ∀ e : Expr, Alike At e e
  | .int n l => .int n (hAt l)
  | .char c l => .char c (hAt l)
  | .string s l => .string s (hAt l)
  | .var name l => .var name (hAt l)
  | .binary op left right l => .binary op (Alike.refl hAt left) (Alike.refl hAt right) (hAt l)
  | .negate operand l => .negate (Alike.refl hAt operand) (hAt l)
  | .assign name value l => .assign name (Alike.refl hAt value) (hAt l)
  | .assignElement name index value l =>
      .assignElement name (Alike.refl hAt index) (Alike.refl hAt value) (hAt l)
  | .call name args l => .call name (AlikeAll.refl hAt args) (hAt l)
  | .array elements l => .array (AlikeAll.refl hAt elements) (hAt l)
  | .element name index l => .element name (Alike.refl hAt index) (hAt l)

theorem AlikeAll.refl (hAt : ∀ l, At l l) : ∀ es : List Expr, AlikeAll At es es
  | [] => .nil
  | e :: es => .cons (Alike.refl hAt e) (AlikeAll.refl hAt es)

end

mutual

/-- If only equal places stand for each other, only equal expressions are alike. -/
theorem Alike.eq : ∀ {e e' : Expr}, Alike Eq e e' → e = e'
  | .int _ _, _, .int _ hl => congrArg _ hl
  | .char _ _, _, .char _ hl => congrArg _ hl
  | .string _ _, _, .string _ hl => congrArg _ hl
  | .var _ _, _, .var _ hl => congrArg _ hl
  | .binary _ _ _ _, _, .binary _ hleft hright hl => by rw [hleft.eq, hright.eq, hl]
  | .negate _ _, _, .negate hoperand hl => by rw [hoperand.eq, hl]
  | .assign _ _ _, _, .assign _ hvalue hl => by rw [hvalue.eq, hl]
  | .assignElement _ _ _ _, _, .assignElement _ hindex hvalue hl => by
      rw [hindex.eq, hvalue.eq, hl]
  | .call _ _ _, _, .call _ hargs hl => by rw [hargs.eq, hl]
  | .array _ _, _, .array helements hl => by rw [helements.eq, hl]
  | .element _ _ _, _, .element _ hindex hl => by rw [hindex.eq, hl]

theorem AlikeAll.eq : ∀ {es es' : List Expr}, AlikeAll Eq es es' → es = es'
  | [], _, .nil => rfl
  | _ :: _, _, .cons he hes => by rw [he.eq, hes.eq]

end

/-- The same of a part that may be missing. -/
theorem Alike.option_refl (hAt : ∀ l, At l l) (e : Option Expr) : Option.Rel (Alike At) e e := by
  cases e with
  | none => exact .none
  | some e => exact .some (Alike.refl hAt e)

theorem Alike.option_eq {e e' : Option Expr} (h : Option.Rel (Alike Eq) e e') : e = e' := by
  cases h with
  | none => rfl
  | some h => rw [h.eq]

end Expr

/-! ## Statements -/

namespace Stmt

variable {At : Location → Location → Prop}

theorem AlikeAll.length {ss ss' : List Stmt} (h : AlikeAll At ss ss') :
    ss.length = ss'.length := by
  induction ss generalizing ss' with
  | nil => cases h; rfl
  | cons s ss ih =>
      cases h with
      | cons _ hss => exact congrArg (· + 1) (ih hss)

theorem AlikeAll.append {ss ss' ts ts' : List Stmt} (hs : AlikeAll At ss ss')
    (ht : AlikeAll At ts ts') : AlikeAll At (ss ++ ts) (ss' ++ ts') := by
  induction ss generalizing ss' with
  | nil => cases hs; exact ht
  | cons s ss ih =>
      cases hs with
      | cons h hss => exact .cons h (ih hss)

mutual

/-- A statement is alike itself if every place stands for itself. -/
theorem Alike.refl (hAt : ∀ l, At l l) : ∀ s : Stmt, Alike At s s
  | .declareVar name type size l => .declareVar name type (Expr.Alike.option_refl hAt size) (hAt l)
  | .declareFun name result params l => .declareFun name result params (hAt l)
  | .defineFun name result params body l =>
      .defineFun name result params (AlikeAll.refl hAt body) (hAt l)
  | .block body l => .block (AlikeAll.refl hAt body) (hAt l)
  | .group body => .group (AlikeAll.refl hAt body)
  | .ifElse condition yes no l =>
      .ifElse (Expr.Alike.refl hAt condition) (Alike.refl hAt yes) (Alike.refl hAt no) (hAt l)
  | .whileLoop condition body l =>
      .whileLoop (Expr.Alike.refl hAt condition) (Alike.refl hAt body) (hAt l)
  | .forLoop init condition step body l =>
      .forLoop (Alike.refl hAt init) (Expr.Alike.refl hAt condition) (Expr.Alike.refl hAt step)
        (Alike.refl hAt body) (hAt l)
  | .breakLoop l => .breakLoop (hAt l)
  | .continueLoop l => .continueLoop (hAt l)
  | .returnValue value l => .returnValue (Expr.Alike.option_refl hAt value) (hAt l)
  | .intrinsic name args l => .intrinsic name (Expr.AlikeAll.refl hAt args) (hAt l)
  | .expression e => .expression (Expr.Alike.refl hAt e)

theorem AlikeAll.refl (hAt : ∀ l, At l l) : ∀ ss : List Stmt, AlikeAll At ss ss
  | [] => .nil
  | s :: ss => .cons (Alike.refl hAt s) (AlikeAll.refl hAt ss)

end

mutual

/-- If only equal places stand for each other, only equal statements are alike. -/
theorem Alike.eq : ∀ {s s' : Stmt}, Alike Eq s s' → s = s'
  | .declareVar _ _ _ _, _, .declareVar _ _ hsize hl => by rw [Expr.Alike.option_eq hsize, hl]
  | .declareFun _ _ _ _, _, .declareFun _ _ _ hl => by rw [hl]
  | .defineFun _ _ _ _ _, _, .defineFun _ _ _ hbody hl => by rw [hbody.eq, hl]
  | .block _ _, _, .block hbody hl => by rw [hbody.eq, hl]
  | .group _, _, .group hbody => by rw [hbody.eq]
  | .ifElse _ _ _ _, _, .ifElse hcondition hyes hno hl => by
      rw [hcondition.eq, hyes.eq, hno.eq, hl]
  | .whileLoop _ _ _, _, .whileLoop hcondition hbody hl => by rw [hcondition.eq, hbody.eq, hl]
  | .forLoop _ _ _ _ _, _, .forLoop hinit hcondition hstep hbody hl => by
      rw [hinit.eq, hcondition.eq, hstep.eq, hbody.eq, hl]
  | .breakLoop _, _, .breakLoop hl => by rw [hl]
  | .continueLoop _, _, .continueLoop hl => by rw [hl]
  | .returnValue _ _, _, .returnValue hvalue hl => by rw [Expr.Alike.option_eq hvalue, hl]
  | .intrinsic _ _ _, _, .intrinsic _ hargs hl => by rw [hargs.eq, hl]
  | .expression _, _, .expression he => by rw [he.eq]

theorem AlikeAll.eq : ∀ {ss ss' : List Stmt}, AlikeAll Eq ss ss' → ss = ss'
  | [], _, .nil => rfl
  | _ :: _, _, .cons hs hss => by rw [hs.eq, hss.eq]

end

end Stmt

end PocketC
