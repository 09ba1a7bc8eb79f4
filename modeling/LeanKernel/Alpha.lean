import LeanKernel.Expr

/-!
# Alpha-equivalence

`operator==` on expressions is `expr_eq_fn<id_expr_fn, true>` (`kernel/expr_eq.h`), which ignores
binder names. Its specification is the plain recursive definition `alphaEq`: the same kind and, per
kind, equal variable index, equal constant name (the constant's type annotation is not compared),
equal level, equal value, applications of equal arity with equivalent arguments, abstractions with
equivalent domains and bodies, lets with equivalent optional types, values and bodies, equivalent
components for `HEq`, `Pair` and `Proj`, and metavariables with equal names and local contexts of
equal length whose entries agree in kind and start and have equivalent values or equal amounts.
The DAG-level function with its pointer test, hash test and visited set is related to `alphaEq` in
`LeanKernel.ExprEq`.

`Expr.erase` forgets exactly what `alphaEq` ignores, binder names and constant type annotations, so
`alphaEq a b` holds iff `a.erase = b.erase` (`alphaEq_iff`). Later facts about alpha-equivalence
are equations between erasures.
-/

namespace LeanKernel

namespace Expr

mutual
/-- Alpha-equivalence, the plain recursive definition. -/
def alphaEq : Expr → Expr → Bool
  | .var i, b => match b with | .var j => i == j | _ => false
  | .constant n _, b => match b with | .constant m _ => n == m | _ => false
  | .type l, b => match b with | .type l' => l == l' | _ => false
  | .value v, b => match b with | .value w => v == w | _ => false
  | .app f a as, b => match b with
    | .app g c cs => alphaEq f g && alphaEq a c && alphaEqList as cs
    | _ => false
  | .abst k _ d t, b => match b with
    | .abst k' _ d' t' => k == k' && alphaEq d d' && alphaEq t t'
    | _ => false
  | .let _ t v w, b => match b with
    | .let _ t' v' w' => alphaEqOpt t t' && alphaEq v v' && alphaEq w w'
    | _ => false
  | .heq l r, b => match b with | .heq l' r' => alphaEq l l' && alphaEq r r' | _ => false
  | .pair f s t, b => match b with
    | .pair f' s' t' => alphaEq f f' && alphaEq s s' && alphaEq t t'
    | _ => false
  | .proj i a, b => match b with | .proj j c => i == j && alphaEq a c | _ => false
  | .metavar m l, b => match b with
    | .metavar m' l' => m == m' && alphaEqCtx l l'
    | _ => false
termination_by structural a _ => a
/-- `alphaEq` on the optional type of a `Let`. -/
def alphaEqOpt : Option Expr → Option Expr → Bool
  | none, none => true
  | some a, some b => alphaEq a b
  | _, _ => false
/-- `alphaEq` on arguments: equal length and pointwise equivalence. -/
def alphaEqList : List Expr → List Expr → Bool
  | [], [] => true
  | a :: as, b :: bs => alphaEq a b && alphaEqList as bs
  | _, _ => false
/-- `alphaEq` on local contexts: equal length, and entries of the same kind and start with
equivalent values or equal amounts. -/
def alphaEqCtx : List (LocalEntry Expr) → List (LocalEntry Expr) → Bool
  | [], [] => true
  | .lift s n :: l, .lift s' n' :: l' => s == s' && n == n' && alphaEqCtx l l'
  | .inst s v :: l, .inst s' v' :: l' => s == s' && alphaEq v v' && alphaEqCtx l l'
  | _, _ => false
end

mutual
/-- Forget binder names and constant type annotations. -/
def erase : Expr → Expr
  | .var i => .var i
  | .constant n _ => .constant n none
  | .type l => .type l
  | .value v => .value v
  | .app f a as => .app (erase f) (erase a) (eraseList as)
  | .abst k _ d b => .abst k default (erase d) (erase b)
  | .let _ t v b => .let default (eraseOpt t) (erase v) (erase b)
  | .heq l r => .heq (erase l) (erase r)
  | .pair f s t => .pair (erase f) (erase s) (erase t)
  | .proj i a => .proj i (erase a)
  | .metavar m l => .metavar m (eraseCtx l)
/-- `erase` on an optional type. -/
def eraseOpt : Option Expr → Option Expr
  | none => none
  | some t => some (erase t)
/-- `erase` on arguments. -/
def eraseList : List Expr → List Expr
  | [] => []
  | a :: as => erase a :: eraseList as
/-- `erase` on a local context. -/
def eraseCtx : List (LocalEntry Expr) → List (LocalEntry Expr)
  | [] => []
  | .lift s n :: l => .lift s n :: eraseCtx l
  | .inst s v :: l => .inst s (erase v) :: eraseCtx l
end

mutual
/-- `alphaEq` is structural equality of erasures. -/
theorem alphaEq_eq_beq_erase : ∀ a b : Expr, alphaEq a b = beq (erase a) (erase b)
  | .var _, b | .type _, b | .value _, b => by cases b <;> rfl
  | .constant n _, b => by
    cases b with
    | constant m _ => show (n == m) = (n == m && true); rw [Bool.and_true]
    | _ => rfl
  | .app f a as, b => by
    cases b with
    | app g c cs =>
      show (alphaEq f g && alphaEq a c && alphaEqList as cs) =
        (beq (erase f) (erase g) && beq (erase a) (erase c) && beqList (eraseList as) (eraseList cs))
      rw [alphaEq_eq_beq_erase f g, alphaEq_eq_beq_erase a c, alphaEqList_eq_beq_erase as cs]
    | _ => rfl
  | .abst k _ d t, b => by
    cases b with
    | abst k' _ d' t' =>
      show (k == k' && alphaEq d d' && alphaEq t t') =
        (k == k' && (default : Name) == default && beq (erase d) (erase d') && beq (erase t) (erase t'))
      rw [alphaEq_eq_beq_erase d d', alphaEq_eq_beq_erase t t', beq_self_eq_true, Bool.and_true]
    | _ => rfl
  | .let _ t v w, b => by
    cases b with
    | «let» _ t' v' w' =>
      show (alphaEqOpt t t' && alphaEq v v' && alphaEq w w') =
        ((default : Name) == default && beqOpt (eraseOpt t) (eraseOpt t') && beq (erase v) (erase v') &&
          beq (erase w) (erase w'))
      rw [alphaEqOpt_eq_beq_erase t t', alphaEq_eq_beq_erase v v', alphaEq_eq_beq_erase w w',
        beq_self_eq_true, Bool.true_and]
    | _ => rfl
  | .heq l r, b => by
    cases b with
    | heq l' r' =>
      show (alphaEq l l' && alphaEq r r') = (beq (erase l) (erase l') && beq (erase r) (erase r'))
      rw [alphaEq_eq_beq_erase l l', alphaEq_eq_beq_erase r r']
    | _ => rfl
  | .pair f s t, b => by
    cases b with
    | pair f' s' t' =>
      show (alphaEq f f' && alphaEq s s' && alphaEq t t') =
        (beq (erase f) (erase f') && beq (erase s) (erase s') && beq (erase t) (erase t'))
      rw [alphaEq_eq_beq_erase f f', alphaEq_eq_beq_erase s s', alphaEq_eq_beq_erase t t']
    | _ => rfl
  | .proj i a, b => by
    cases b with
    | proj j c =>
      show (i == j && alphaEq a c) = (i == j && beq (erase a) (erase c))
      rw [alphaEq_eq_beq_erase a c]
    | _ => rfl
  | .metavar m l, b => by
    cases b with
    | metavar m' l' =>
      show (m == m' && alphaEqCtx l l') = (m == m' && beqCtx (eraseCtx l) (eraseCtx l'))
      rw [alphaEqCtx_eq_beq_erase l l']
    | _ => rfl
termination_by structural a _ => a
theorem alphaEqOpt_eq_beq_erase : ∀ a b : Option Expr,
    alphaEqOpt a b = beqOpt (eraseOpt a) (eraseOpt b)
  | none, none | none, some _ | some _, none => rfl
  | some a, some b => alphaEq_eq_beq_erase a b
termination_by structural a _ => a
theorem alphaEqList_eq_beq_erase : ∀ as bs : List Expr,
    alphaEqList as bs = beqList (eraseList as) (eraseList bs)
  | [], [] | [], _ :: _ | _ :: _, [] => rfl
  | a :: as, b :: bs => show (alphaEq a b && alphaEqList as bs) = (beq _ _ && beqList _ _) by
    rw [alphaEq_eq_beq_erase a b, alphaEqList_eq_beq_erase as bs]
termination_by structural as _ => as
theorem alphaEqCtx_eq_beq_erase : ∀ l l' : List (LocalEntry Expr),
    alphaEqCtx l l' = beqCtx (eraseCtx l) (eraseCtx l')
  | [], [] | [], .lift _ _ :: _ | [], .inst _ _ :: _ | .lift _ _ :: _, [] | .inst _ _ :: _, []
  | .lift _ _ :: _, .inst _ _ :: _ | .inst _ _ :: _, .lift _ _ :: _ => rfl
  | .lift s n :: l, .lift s' n' :: l' =>
    show (s == s' && n == n' && alphaEqCtx l l') = (s == s' && n == n' && beqCtx _ _) by
    rw [alphaEqCtx_eq_beq_erase l l']
  | .inst s v :: l, .inst s' v' :: l' =>
    show (s == s' && alphaEq v v' && alphaEqCtx l l') = (s == s' && beq _ _ && beqCtx _ _) by
    rw [alphaEq_eq_beq_erase v v', alphaEqCtx_eq_beq_erase l l']
termination_by structural l _ => l
end

/-- **Alpha-equivalence is equality of erasures.** -/
theorem alphaEq_iff {a b : Expr} : alphaEq a b = true ↔ a.erase = b.erase := by
  rw [alphaEq_eq_beq_erase]
  exact ⟨eq_of_beq, fun h => h ▸ beq_refl _⟩

theorem alphaEq_refl (a : Expr) : alphaEq a a = true := alphaEq_iff.mpr rfl

theorem alphaEq_symm {a b : Expr} (h : alphaEq a b = true) : alphaEq b a = true :=
  alphaEq_iff.mpr (alphaEq_iff.mp h).symm

theorem alphaEq_trans {a b c : Expr} (h₁ : alphaEq a b = true) (h₂ : alphaEq b c = true) :
    alphaEq a c = true :=
  alphaEq_iff.mpr ((alphaEq_iff.mp h₁).trans (alphaEq_iff.mp h₂))

end Expr

end LeanKernel

namespace LeanKernel

namespace Expr

/-- Equivalent argument lists have equal length. -/
theorem alphaEqList_length : ∀ {l l' : List Expr}, alphaEqList l l' = true → l.length = l'.length
  | [], [], _ => rfl
  | a :: as, b :: bs, h => by
    have h' : (alphaEq a b && alphaEqList as bs) = true := h
    simp only [List.length_cons, alphaEqList_length (Bool.and_eq_true _ _ |>.mp h').2]
  | [], _ :: _, h | _ :: _, [], h => absurd h Bool.false_ne_true

theorem eraseOpt_eq (t : Option Expr) : eraseOpt t = t.map erase := by cases t <;> rfl

theorem eraseList_eq : ∀ as : List Expr, eraseList as = as.map erase
  | [] => rfl
  | a :: as => congrArg (erase a :: ·) (eraseList_eq as)

theorem eraseCtx_eq : ∀ l : List (LocalEntry Expr),
    eraseCtx l = l.map fun | .lift s n => .lift s n | .inst s v => .inst s (erase v)
  | [] => rfl
  | .lift _ _ :: l => congrArg (_ :: ·) (eraseCtx_eq l)
  | .inst _ _ :: l => congrArg (_ :: ·) (eraseCtx_eq l)

end Expr

end LeanKernel
