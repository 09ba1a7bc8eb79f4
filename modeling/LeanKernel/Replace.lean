import LeanKernel.Alpha

/-!
# Traversal, free variables and lifting

The helpers that `instantiate.cpp` calls but whose code is not among the sources
(`kernel/replace_fn.h`, `kernel/free_vars.cpp`, `kernel/metavar.cpp`):

* `replace` — the top-down traversal with the number of binders crossed;
* `hasFreeVar`, `hasMetavar` — the free-variable and metavariable summaries;
* `addLift`, `addInst` — recording a local-context entry on a metavariable;
* `liftFreeVars` — `lift(e, cutoff, offset)`.

All of them are modelled from the spec (§3, §4.1, §4.2), in the form the functions of
`instantiate.cpp` use them: without a metavariable environment (`none_ro_menv()`).

Since no metavariable environment bounds what a metavariable stands for, a metavariable counts as
possibly having every free variable; this is what makes `lift` record an entry on it.
-/

namespace LeanKernel

open Expr

mutual
/-- Modelled from the spec: `replace(e, f)` (`replace_fn`). The callback sees each node with the
number of binders crossed; where it returns `some r` the node is replaced by `r` and not visited
further, otherwise the traversal descends into the children, the body of an abstraction or a `Let`
one binder deeper. Variables, constants, sorts, values and metavariables are leaves: neither a
constant's type annotation nor a metavariable's local context is visited. -/
def replace (f : Expr → Nat → Option Expr) (offset : Nat) : Expr → Expr
  | .var i => (f (.var i) offset).getD (.var i)
  | .constant n t => (f (.constant n t) offset).getD (.constant n t)
  | .type l => (f (.type l) offset).getD (.type l)
  | .value v => (f (.value v) offset).getD (.value v)
  | .metavar m l => (f (.metavar m l) offset).getD (.metavar m l)
  | .app fn a as => (f (.app fn a as) offset).getD
      (.app (replace f offset fn) (replace f offset a) (replaceList f offset as))
  | .abst k n d b => (f (.abst k n d b) offset).getD
      (.abst k n (replace f offset d) (replace f (offset + 1) b))
  | .let n none v b => (f (.let n none v b) offset).getD
      (.let n none (replace f offset v) (replace f (offset + 1) b))
  | .let n (some t) v b => (f (.let n (some t) v b) offset).getD
      (.let n (some (replace f offset t)) (replace f offset v) (replace f (offset + 1) b))
  | .heq l r => (f (.heq l r) offset).getD (.heq (replace f offset l) (replace f offset r))
  | .pair a b t => (f (.pair a b t) offset).getD
      (.pair (replace f offset a) (replace f offset b) (replace f offset t))
  | .proj i a => (f (.proj i a) offset).getD (.proj i (replace f offset a))
termination_by structural e => e
/-- `replace` on the arguments of an application. -/
def replaceList (f : Expr → Nat → Option Expr) (offset : Nat) : List Expr → List Expr
  | [] => []
  | e :: es => replace f offset e :: replaceList f offset es
end

mutual
/-- Modelled from the spec: `has_free_var(e, low, UINT_MAX)` at `offset` binders below the root:
some variable with index `≥ low + offset` is free. The bound `UINT_MAX` lies above every index, so
only the lower bound is checked. Constants are closed; a metavariable may stand for a term with
any free variable. -/
def hasFreeVarFrom (low offset : Nat) : Expr → Bool
  | .var i => low + offset ≤ i
  | .constant .. | .type _ | .value _ => false
  | .metavar .. => true
  | .app f a as => hasFreeVarFrom low offset f || hasFreeVarFrom low offset a ||
      hasFreeVarFromList low offset as
  | .abst _ _ d b => hasFreeVarFrom low offset d || hasFreeVarFrom low (offset + 1) b
  | .let _ none v b => hasFreeVarFrom low offset v || hasFreeVarFrom low (offset + 1) b
  | .let _ (some t) v b => hasFreeVarFrom low offset t || hasFreeVarFrom low offset v ||
      hasFreeVarFrom low (offset + 1) b
  | .heq l r => hasFreeVarFrom low offset l || hasFreeVarFrom low offset r
  | .pair a b t => hasFreeVarFrom low offset a || hasFreeVarFrom low offset b ||
      hasFreeVarFrom low offset t
  | .proj _ a => hasFreeVarFrom low offset a
/-- `hasFreeVarFrom` on arguments. -/
def hasFreeVarFromList (low offset : Nat) : List Expr → Bool
  | [] => false
  | e :: es => hasFreeVarFrom low offset e || hasFreeVarFromList low offset es
end

/-- `has_free_var(e, low, UINT_MAX)`. -/
def hasFreeVar (e : Expr) (low : Nat) : Bool := hasFreeVarFrom low 0 e

mutual
/-- Modelled from the spec: `has_free_var(e, low, high)` at `offset` binders below the root: some
variable with index in `[low + offset, high + offset)` is free. As in `hasFreeVarFrom`, a
metavariable may stand for a term with any free variable. -/
def hasFreeVarIn (low high offset : Nat) : Expr → Bool
  | .var i => low + offset ≤ i && i < high + offset
  | .constant .. | .type _ | .value _ => false
  | .metavar .. => true
  | .app f a as => hasFreeVarIn low high offset f || hasFreeVarIn low high offset a ||
      hasFreeVarInList low high offset as
  | .abst _ _ d b => hasFreeVarIn low high offset d || hasFreeVarIn low high (offset + 1) b
  | .let _ none v b => hasFreeVarIn low high offset v || hasFreeVarIn low high (offset + 1) b
  | .let _ (some t) v b => hasFreeVarIn low high offset t || hasFreeVarIn low high offset v ||
      hasFreeVarIn low high (offset + 1) b
  | .heq l r => hasFreeVarIn low high offset l || hasFreeVarIn low high offset r
  | .pair a b t => hasFreeVarIn low high offset a || hasFreeVarIn low high offset b ||
      hasFreeVarIn low high offset t
  | .proj _ a => hasFreeVarIn low high offset a
/-- `hasFreeVarIn` on arguments. -/
def hasFreeVarInList (low high offset : Nat) : List Expr → Bool
  | [] => false
  | e :: es => hasFreeVarIn low high offset e || hasFreeVarInList low high offset es
end

mutual
/-- Modelled from the spec: the "has metavar" summary, the OR over the children. As for free
variables, a constant counts as closed: its type annotation is visited by none of the
traversals. -/
def hasMetavar : Expr → Bool
  | .var _ | .constant .. | .type _ | .value _ => false
  | .metavar .. => true
  | .app f a as => hasMetavar f || hasMetavar a || hasMetavarList as
  | .abst _ _ d b => hasMetavar d || hasMetavar b
  | .let _ none v b => hasMetavar v || hasMetavar b
  | .let _ (some t) v b => hasMetavar t || hasMetavar v || hasMetavar b
  | .heq l r => hasMetavar l || hasMetavar r
  | .pair a b t => hasMetavar a || hasMetavar b || hasMetavar t
  | .proj _ a => hasMetavar a
/-- `hasMetavar` on arguments. -/
def hasMetavarList : List Expr → Bool
  | [] => false
  | e :: es => hasMetavar e || hasMetavarList es
end

/-- Modelled from the spec: `add_lift(m, s, n)` records `lift:s:n` on the metavariable `m`; a lift
by `0` is the identity. -/
def addLift : Expr → Nat → Nat → Expr
  | .metavar m l, s, n => if n = 0 then .metavar m l else .metavar m (.lift s n :: l)
  | e, _, _ => e

/-- Modelled from the spec: `add_inst(m, s, v)` records `inst:s:v` on the metavariable `m`
"rather than applying it eagerly". -/
def addInst : Expr → Nat → Expr → Expr
  | .metavar m l, s, v => .metavar m (.inst s v :: l)
  | e, _, _ => e

/-- The callback of `lift_free_vars(e, s, d)`: at `offset` binders, a variable `≥ s + offset` is
shifted by `d`, and a metavariable records `lift:(s + offset):d`. -/
def liftFn (s d : Nat) : Expr → Nat → Option Expr
  | .var i, offset => if s + offset ≤ i then some (.var (i + d)) else none
  | .metavar m l, offset => some (addLift (.metavar m l) (s + offset) d)
  | _, _ => none

/-- Modelled from the spec: `lift_free_vars(e, s, d)` adds `d` to every free `Var(i)` with
`i ≥ s`, recursing under binders with the cutoff raised by one. -/
def liftFreeVars (e : Expr) (s d : Nat) : Expr := replace (liftFn s d) 0 e

end LeanKernel

namespace LeanKernel

/-! ## Unfolding `replace` -/

section ReplaceUnfold

variable {f : Expr → Nat → Option Expr} {o : Nat}

theorem replace_of_some {e r : Expr} (h : f e o = some r) : replace f o e = r := by
  rcases e with _ | _ | _ | _ | _ | _ | ⟨_, _ | _, _, _⟩ | _ | _ | _ | _ <;>
    simp only [replace, h, Option.getD_some]

theorem replace_var {i : Nat} (h : f (.var i) o = none) : replace f o (.var i) = .var i := by
  simp only [replace, h, Option.getD_none]

theorem replace_constant {n : Name} {t : Option Expr} (h : f (.constant n t) o = none) :
    replace f o (.constant n t) = .constant n t := by
  simp only [replace, h, Option.getD_none]

theorem replace_type {l : Level} (h : f (.type l) o = none) : replace f o (.type l) = .type l := by
  simp only [replace, h, Option.getD_none]

theorem replace_value {v : Value} (h : f (.value v) o = none) :
    replace f o (.value v) = .value v := by
  simp only [replace, h, Option.getD_none]

theorem replace_app {fn a : Expr} {as : List Expr} (h : f (.app fn a as) o = none) :
    replace f o (.app fn a as) = .app (replace f o fn) (replace f o a) (replaceList f o as) := by
  simp only [replace, h, Option.getD_none]

theorem replace_abst {k : AbstKind} {n : Name} {d b : Expr} (h : f (.abst k n d b) o = none) :
    replace f o (.abst k n d b) = .abst k n (replace f o d) (replace f (o + 1) b) := by
  simp only [replace, h, Option.getD_none]

theorem replace_let_none {n : Name} {v b : Expr} (h : f (.let n none v b) o = none) :
    replace f o (.let n none v b) = .let n none (replace f o v) (replace f (o + 1) b) := by
  simp only [replace, h, Option.getD_none]

theorem replace_let_some {n : Name} {t v b : Expr} (h : f (.let n (some t) v b) o = none) :
    replace f o (.let n (some t) v b) =
      .let n (some (replace f o t)) (replace f o v) (replace f (o + 1) b) := by
  simp only [replace, h, Option.getD_none]

theorem replace_heq {l r : Expr} (h : f (.heq l r) o = none) :
    replace f o (.heq l r) = .heq (replace f o l) (replace f o r) := by
  simp only [replace, h, Option.getD_none]

theorem replace_pair {a b t : Expr} (h : f (.pair a b t) o = none) :
    replace f o (.pair a b t) = .pair (replace f o a) (replace f o b) (replace f o t) := by
  simp only [replace, h, Option.getD_none]

theorem replace_proj {i : Bool} {a : Expr} (h : f (.proj i a) o = none) :
    replace f o (.proj i a) = .proj i (replace f o a) := by
  simp only [replace, h, Option.getD_none]

theorem replace_metavar {m : Name} {l : List (LocalEntry Expr)} (h : f (.metavar m l) o = none) :
    replace f o (.metavar m l) = .metavar m l := by
  simp only [replace, h, Option.getD_none]

@[simp] theorem replaceList_nil : replaceList f o [] = [] := rfl

@[simp] theorem replaceList_cons {e : Expr} {es : List Expr} :
    replaceList f o (e :: es) = replace f o e :: replaceList f o es := rfl

end ReplaceUnfold

end LeanKernel
