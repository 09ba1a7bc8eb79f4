import LeanKernel.Replace

/-!
# `kernel/instantiate.cpp`

The functions of `instantiate.cpp`, one definition each, under the source's names:

* `instantiateCore` — `instantiate_core<ClosedSubst>(a, s, n, subst)`: replace `Var(s + i)`
  (`i < n`) by `subst[n - 1 - i]` and shift the variables above down by `n`; at a metavariable the
  substitution is recorded as `inst` entries instead;
* `instantiateWithClosed`, `instantiate` — its two instances, without and with lifting `subst`;
* `isHeadBeta`, `applyBeta`, `headBetaReduce` — one beta step at the head;
* `betaReduce` — the `while (true)` loop of `replace` passes, with the loop's iterations bounded
  by a fuel argument.

The substitution is a list, so `n` is its length. The argument list of `apply_beta` is given as its
first element and the rest, so it is never empty (`head_beta_reduce` always passes at least one).
`operator==` in `beta_reduce` is alpha-equivalence (`LeanKernel.Alpha`, `LeanKernel.ExprEq`).
-/

namespace LeanKernel

open Expr

/-! ## `instantiate_core` -/

/-- The loop of `instantiate_core` at a metavariable `r`, `offset` binders deep: for
`i = 0, …, n - 1` it records `inst:(offset + s + n - i - 1)` of `subst[i]`, which the general
variant first lifts by `offset + n - i - 1`. The head of the list is `subst[0]`, so `n - i - 1` is
the length of the rest. -/
def instMetavar (closedSubst : Bool) (s offset : Nat) : Expr → List Expr → Expr
  | r, [] => r
  | r, v :: rest =>
    instMetavar closedSubst s offset
      (addInst r (offset + s + rest.length)
        (if closedSubst then v else liftFreeVars v 0 (offset + rest.length)))
      rest

/-- The function that `instantiate_core<ClosedSubst>(a, s, n, subst)` hands to `replace`. A
variable below `offset + s` is kept, one of the `n` instantiated ones becomes its substitute (lifted
by `offset` unless the substitution is closed), one above is shifted down by `n`. -/
def instantiateFn (closedSubst : Bool) (s : Nat) (subst : List Expr) : Expr → Nat → Option Expr
  | .var vidx, offset =>
    if offset + s ≤ vidx then
      if vidx < offset + s + subst.length then
        let v := subst.getD (subst.length - (vidx - s - offset) - 1) default
        some (if closedSubst then v else liftFreeVars v 0 offset)
      else
        some (.var (vidx - subst.length))
    else
      none
  | .metavar m l, offset => some (instMetavar closedSubst s offset (.metavar m l) subst)
  | _, _ => none

/-- `instantiate_core<ClosedSubst>(a, s, n, subst)`. -/
def instantiateCore (closedSubst : Bool) (a : Expr) (s : Nat) (subst : List Expr) : Expr :=
  replace (instantiateFn closedSubst s subst) 0 a

/-- `instantiate_with_closed(a, n, s)`: the fast path, for substitutions without free variables. -/
def instantiateWithClosed (a : Expr) (subst : List Expr) : Expr := instantiateCore true a 0 subst

/-- `instantiate(a, s, n, subst)`: the general path. -/
def instantiate (a : Expr) (s : Nat) (subst : List Expr) : Expr := instantiateCore false a s subst

/-! ## Beta reduction -/

/-- `is_head_beta(t)`: an application whose function is a lambda. -/
def isHeadBeta : Expr → Bool
  | .app (.abst .lambda _ _ _) _ _ => true
  | _ => false

/-- Modelled from the spec: `mk_app([f, a₁, …, aₙ])` builds `App(f, a₁, …, aₙ)`. -/
def mkApp (f a : Expr) (as : List Expr) : Expr := .app f a as

/-- The `while` loop of `apply_beta`: `f` is a lambda and `m` lambdas have been entered; enter the
body while it is a lambda and `m < numArgs`. Returns the last lambda's body and `m`. -/
def applyBetaLoop (numArgs : Nat) : Expr → Nat → Expr × Nat
  | .abst .lambda _ _ (.abst .lambda n d b), m =>
    if m < numArgs then applyBetaLoop numArgs (.abst .lambda n d b) (m + 1)
    else (.abst .lambda n d b, m)
  | .abst .lambda _ _ b, m => (b, m)
  | f, m => (f, m)

/-- `apply_beta(f, num_args, args)` with `args = a :: as`: a lambda takes as many arguments as it
has leading lambdas (at most `num_args`), one `instantiate` replaces them all, and the remaining
arguments form a residual application. -/
def applyBeta (f a : Expr) (as : List Expr) : Expr :=
  match f with
  | .abst .lambda n d b =>
    let (body, m) := applyBetaLoop (as.length + 1) (.abst .lambda n d b) 1
    let r := instantiate body 0 ((a :: as).take m)
    match (a :: as).drop m with
    | [] => r
    | a' :: as' => mkApp r a' as'
  | _ => mkApp f a as

/-- `head_beta_reduce(t)`. -/
def headBetaReduce : Expr → Expr
  | .app f a as => if isHeadBeta (.app f a as) then applyBeta f a as else .app f a as
  | t => t

/-- The function `beta_reduce` hands to `replace_fn`: contract a head redex, leave the rest. -/
def betaReduceFn (m : Expr) (_ : Nat) : Option Expr :=
  if isHeadBeta m then some (headBetaReduce m) else none

/-- `beta_reduce(t)`: repeat a `replace` pass until it returns a term equal (`operator==`) to its
input, and return that term. `fuel` bounds the iterations; `none` when it runs out. -/
def betaReduce : Nat → Expr → Option Expr
  | 0, _ => none
  | fuel + 1, t =>
    let newT := replace betaReduceFn 0 t
    if alphaEq newT t then some newT else betaReduce fuel newT

end LeanKernel
