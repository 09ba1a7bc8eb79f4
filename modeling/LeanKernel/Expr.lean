import Mathlib.Logic.Basic

/-!
# Kernel expressions

The term language of the kernel (`kernel/expr.h`) as a tree of values, the shape that
`instantiate.cpp`, `expr_eq.h` and `max_sharing.cpp` traverse:

* `Expr` — variables (de Bruijn indices), constants with their optional type annotation, sorts,
  embedded values, n-ary applications, the three abstractions `Lambda`, `Pi` and `Sigma`, `Let`,
  heterogeneous equality, pairs, projections and metavariables with their local contexts;
* `LocalEntry` — the entries `lift:s:n` and `inst:s:v` of a metavariable's local context, newest
  first;
* `Value` — the embedded values of the integer theory (`library/arith`), the only plugin whose code
  is in the repository.

Node identity, sharing and the cached flags live one level down, in the heap model of
`LeanKernel.Heap`; here two expressions are equal when they are the same tree. An application
always has a function and at least one argument, as `mk_app` requires, so `arg(t, 0)` and
`arg(t, 1)` exist by construction.

`DecidableEq Expr` cannot be derived for a nested inductive in this Lean, so it is built from a
structural Boolean equality.
-/

namespace LeanKernel

/-- Modelled from the spec: hierarchical names, the dotted identifiers `a.b.c` of `util/name.h`
(not among the sources): the anonymous name, or a prefix extended by a string component
(`name(p, s)`) or by a numeric one (`name(p, i)`). A numeric component `x.1` and a string component
`"x.1"` are different names. -/
inductive Name where
  | anonymous
  | str (pre : Name) (s : String)
  | num (pre : Name) (i : Nat)
  deriving DecidableEq, Repr, Inhabited

/-- `name(s)`: the name of one string component. -/
def Name.mkSimple (s : String) : Name := .str .anonymous s

instance : Coe String Name := ⟨Name.mkSimple⟩

/-- Universe levels: `Zero`, `Succ`, `Max` and universe variables. -/
inductive Level where
  | zero
  | succ (l : Level)
  | max (l₁ l₂ : Level)
  | uvar (n : Name)
  deriving DecidableEq, Repr

/-- The four instances of the `int_bin_op` template: `+`, `-`, `*` and `div`. -/
inductive IntBinOp where
  | add
  | sub
  | mul
  | div
  deriving DecidableEq, Repr

/-- Embedded values. Equality is the values' own `operator==`: numerals compare their number, the
other builtins only their kind. -/
inductive Value where
  /-- `int_type_value`, the type `Int` -/
  | intType
  /-- `int_value_value`, a numeral -/
  | intValue (v : Int)
  /-- an `int_bin_op` -/
  | intBinOp (op : IntBinOp)
  /-- `int_le_value` -/
  | intLe
  /-- the Boolean values that `<=` produces -/
  | bool (b : Bool)
  deriving DecidableEq, Repr

/-- An entry of a metavariable's local context: `lift s n` shifts the indices `≥ s` by `n`,
`inst s v` substitutes `v` for `Var s`. -/
inductive LocalEntry (α : Type) where
  | lift (s n : Nat)
  | inst (s : Nat) (v : α)
  deriving DecidableEq, Repr

/-- The three abstractions share one node shape (`expr_abstraction`). -/
inductive AbstKind where
  | lambda
  | pi
  | sigma
  deriving DecidableEq, Repr

/-- Kernel expressions. -/
inductive Expr where
  | var (idx : Nat)
  | constant (name : Name) (type : Option Expr)
  | type (level : Level)
  | value (v : Value)
  /-- `App(fn, arg, args)`: the function and at least one argument -/
  | app (fn arg : Expr) (args : List Expr)
  | abst (kind : AbstKind) (name : Name) (domain body : Expr)
  | «let» (name : Name) (type : Option Expr) (value body : Expr)
  | heq (lhs rhs : Expr)
  | pair (first second type : Expr)
  | proj (first : Bool) (arg : Expr)
  | metavar (name : Name) (lctx : List (LocalEntry Expr))
  deriving Repr, Inhabited

namespace Expr

/-! ## Decidable equality -/

mutual
/-- Structural Boolean equality, binder names included. -/
def beq : Expr → Expr → Bool
  | .var i, b => match b with | .var j => i == j | _ => false
  | .constant n t, b => match b with | .constant m u => n == m && beqOpt t u | _ => false
  | .type l, b => match b with | .type l' => l == l' | _ => false
  | .value v, b => match b with | .value w => v == w | _ => false
  | .app f a as, b => match b with
    | .app g c cs => beq f g && beq a c && beqList as cs
    | _ => false
  | .abst k n d t, b => match b with
    | .abst k' n' d' t' => k == k' && n == n' && beq d d' && beq t t'
    | _ => false
  | .let n t v w, b => match b with
    | .let n' t' v' w' => n == n' && beqOpt t t' && beq v v' && beq w w'
    | _ => false
  | .heq l r, b => match b with | .heq l' r' => beq l l' && beq r r' | _ => false
  | .pair f s t, b => match b with
    | .pair f' s' t' => beq f f' && beq s s' && beq t t'
    | _ => false
  | .proj i a, b => match b with | .proj j c => i == j && beq a c | _ => false
  | .metavar m l, b => match b with | .metavar m' l' => m == m' && beqCtx l l' | _ => false
termination_by structural a _ => a
/-- `beq` on optional expressions. -/
def beqOpt : Option Expr → Option Expr → Bool
  | none, none => true
  | some a, some b => beq a b
  | _, _ => false
/-- `beq` on argument lists. -/
def beqList : List Expr → List Expr → Bool
  | [], [] => true
  | a :: as, b :: bs => beq a b && beqList as bs
  | _, _ => false
/-- `beq` on local contexts. -/
def beqCtx : List (LocalEntry Expr) → List (LocalEntry Expr) → Bool
  | [], [] => true
  | .lift s n :: l, .lift s' n' :: l' => s == s' && n == n' && beqCtx l l'
  | .inst s v :: l, .inst s' v' :: l' => s == s' && beq v v' && beqCtx l l'
  | _, _ => false
end

mutual
theorem eq_of_beq : ∀ {a b : Expr}, beq a b = true → a = b
  | .var i, b, h => by
    cases b with
    | var j => exact congrArg _ (beq_iff_eq.mp h)
    | _ => exact absurd h Bool.false_ne_true
  | .constant n t, b, h => by
    cases b with
    | constant m u =>
      have h : (n == m && beqOpt t u) = true := h
      simp only [Bool.and_eq_true, beq_iff_eq] at h
      rw [h.1, eq_of_beqOpt h.2]
    | _ => exact absurd h Bool.false_ne_true
  | .type l, b, h => by
    cases b with
    | type l' => exact congrArg _ (beq_iff_eq.mp h)
    | _ => exact absurd h Bool.false_ne_true
  | .value v, b, h => by
    cases b with
    | value w => exact congrArg _ (beq_iff_eq.mp h)
    | _ => exact absurd h Bool.false_ne_true
  | .app f a as, b, h => by
    cases b with
    | app g c cs =>
      have h : (beq f g && beq a c && beqList as cs) = true := h
      simp only [Bool.and_eq_true] at h
      rw [eq_of_beq h.1.1, eq_of_beq h.1.2, eq_of_beqList h.2]
    | _ => exact absurd h Bool.false_ne_true
  | .abst k n d t, b, h => by
    cases b with
    | abst k' n' d' t' =>
      have h : (k == k' && n == n' && beq d d' && beq t t') = true := h
      simp only [Bool.and_eq_true, beq_iff_eq] at h
      rw [h.1.1.1, h.1.1.2, eq_of_beq h.1.2, eq_of_beq h.2]
    | _ => exact absurd h Bool.false_ne_true
  | .let n t v w, b, h => by
    cases b with
    | «let» n' t' v' w' =>
      have h : (n == n' && beqOpt t t' && beq v v' && beq w w') = true := h
      simp only [Bool.and_eq_true, beq_iff_eq] at h
      rw [h.1.1.1, eq_of_beqOpt h.1.1.2, eq_of_beq h.1.2, eq_of_beq h.2]
    | _ => exact absurd h Bool.false_ne_true
  | .heq l r, b, h => by
    cases b with
    | heq l' r' =>
      have h : (beq l l' && beq r r') = true := h
      simp only [Bool.and_eq_true] at h
      rw [eq_of_beq h.1, eq_of_beq h.2]
    | _ => exact absurd h Bool.false_ne_true
  | .pair f s t, b, h => by
    cases b with
    | pair f' s' t' =>
      have h : (beq f f' && beq s s' && beq t t') = true := h
      simp only [Bool.and_eq_true] at h
      rw [eq_of_beq h.1.1, eq_of_beq h.1.2, eq_of_beq h.2]
    | _ => exact absurd h Bool.false_ne_true
  | .proj i a, b, h => by
    cases b with
    | proj j c =>
      have h : (i == j && beq a c) = true := h
      simp only [Bool.and_eq_true, beq_iff_eq] at h
      rw [h.1, eq_of_beq h.2]
    | _ => exact absurd h Bool.false_ne_true
  | .metavar m l, b, h => by
    cases b with
    | metavar m' l' =>
      have h : (m == m' && beqCtx l l') = true := h
      simp only [Bool.and_eq_true, beq_iff_eq] at h
      rw [h.1, eq_of_beqCtx h.2]
    | _ => exact absurd h Bool.false_ne_true
termination_by structural a _ _ => a
theorem eq_of_beqOpt : ∀ {a b : Option Expr}, beqOpt a b = true → a = b
  | none, none, _ => rfl
  | some _, some _, h => congrArg some (eq_of_beq h)
  | none, some _, h | some _, none, h => absurd h Bool.false_ne_true
termination_by structural a _ _ => a
theorem eq_of_beqList : ∀ {as bs : List Expr}, beqList as bs = true → as = bs
  | [], [], _ => rfl
  | a :: as, b :: bs, h => by
    have h : (beq a b && beqList as bs) = true := h
    simp only [Bool.and_eq_true] at h
    rw [eq_of_beq h.1, eq_of_beqList h.2]
  | [], _ :: _, h | _ :: _, [], h => absurd h Bool.false_ne_true
termination_by structural as _ _ => as
theorem eq_of_beqCtx : ∀ {l l' : List (LocalEntry Expr)}, beqCtx l l' = true → l = l'
  | [], [], _ => rfl
  | .lift s n :: l, .lift s' n' :: l', h => by
    have h : (s == s' && n == n' && beqCtx l l') = true := h
    simp only [Bool.and_eq_true, beq_iff_eq] at h
    rw [h.1.1, h.1.2, eq_of_beqCtx h.2]
  | .inst s v :: l, .inst s' v' :: l', h => by
    have h : (s == s' && beq v v' && beqCtx l l') = true := h
    simp only [Bool.and_eq_true, beq_iff_eq] at h
    rw [h.1.1, eq_of_beq h.1.2, eq_of_beqCtx h.2]
  | [], _ :: _, h | .lift _ _ :: _, [], h | .inst _ _ :: _, [], h
  | .lift _ _ :: _, .inst _ _ :: _, h | .inst _ _ :: _, .lift _ _ :: _, h =>
    absurd h Bool.false_ne_true
termination_by structural l _ _ => l
end

mutual
theorem beq_refl : ∀ a : Expr, beq a a = true
  | .var i => beq_self_eq_true i
  | .type l => beq_self_eq_true l
  | .value v => beq_self_eq_true v
  | .constant n t => show (n == n && beqOpt t t) = true by rw [beq_self_eq_true, beqOpt_refl t]; rfl
  | .app f a as => show (beq f f && beq a a && beqList as as) = true by
    rw [beq_refl f, beq_refl a, beqList_refl as]; rfl
  | .abst k n d b => show (k == k && n == n && beq d d && beq b b) = true by
    rw [beq_self_eq_true, beq_self_eq_true, beq_refl d, beq_refl b]; rfl
  | .let n t v b => show (n == n && beqOpt t t && beq v v && beq b b) = true by
    rw [beq_self_eq_true, beqOpt_refl t, beq_refl v, beq_refl b]; rfl
  | .heq l r => show (beq l l && beq r r) = true by rw [beq_refl l, beq_refl r]; rfl
  | .pair f s t => show (beq f f && beq s s && beq t t) = true by
    rw [beq_refl f, beq_refl s, beq_refl t]; rfl
  | .proj i a => show (i == i && beq a a) = true by rw [beq_self_eq_true, beq_refl a]; rfl
  | .metavar m l => show (m == m && beqCtx l l) = true by rw [beq_self_eq_true, beqCtx_refl l]; rfl
theorem beqOpt_refl : ∀ a : Option Expr, beqOpt a a = true
  | none => rfl
  | some a => beq_refl a
theorem beqList_refl : ∀ as : List Expr, beqList as as = true
  | [] => rfl
  | a :: as => show (beq a a && beqList as as) = true by rw [beq_refl a, beqList_refl as]; rfl
theorem beqCtx_refl : ∀ l : List (LocalEntry Expr), beqCtx l l = true
  | [] => rfl
  | .lift s n :: l => show (s == s && n == n && beqCtx l l) = true by
    rw [beq_self_eq_true, beq_self_eq_true, beqCtx_refl l]; rfl
  | .inst s v :: l => show (s == s && beq v v && beqCtx l l) = true by
    rw [beq_self_eq_true, beq_refl v, beqCtx_refl l]; rfl
end

instance : DecidableEq Expr := fun a b =>
  decidable_of_iff (beq a b = true) ⟨eq_of_beq, fun h => h ▸ beq_refl a⟩

end Expr

end LeanKernel
