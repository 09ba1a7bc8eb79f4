import LeanKernel.BetaReduce
import Mathlib.Data.List.Nodup
import Mathlib.Data.List.Perm.Subperm

/-!
# Binder names of the pretty printer

`frontends/lean/pp.cpp` prints a bound variable under a name. For each binder it picks a name that
no constant of the binder's body uses (`get_unused_name`), and opens the body with it: the bound
variable becomes a constant of that name (`replace_var_with_name`). This module models both, the
loops of `pp_fn` that open nested binders one after another (`collect_nested`,
`collect_nested_let`), and `get_arrow_starting_at`, which finds the tail of a Pi spine that prints
as arrows.

* `candidate` — the names `n`, `n.1`, `n.2`, … that `get_unused_name` tries; `name(n, i)` adds a
  numeric component, so they are pairwise distinct (`candidate_injective`).
* `occurs` — `occurs(n, e)`: a constant named `n` at a position the kernel's traversals visit.
* `getUnusedName` — **the search stops.** Within one candidate more than the body has constants,
  the loop finds a name no constant of the body uses, and it is the first such candidate
  (`unusedNameLoop_found`).
* `replaceVarWithName` — **opening is invertible exactly on fresh names.** Abstracting the name
  again gives back the body iff the name does not occur in it (`abstractName_replaceVarWithName`).
* `collectNested` — **the value side loses nothing.** Closing the recorded binders around the
  opened body gives back the term, up to binder names (`collectNested_value_roundTrip`).
* `getArrowStartingAt` — **the least arrow tail** of a Pi spine (`getArrowStartingAt_spec`).
-/

namespace LeanKernel

open Expr

/-! ## Numbered names -/

/-- `name(n, i)` adds a component, so it is never `n`. -/
theorem Name.num_ne (n : Name) (i : Nat) : n.num i ≠ n := fun h => by
  have := congrArg sizeOf h
  simp only [Name.num.sizeOf_spec] at this
  omega

/-- The `k`-th name `get_unused_name` tries for the hint `n`: `n` itself, then `n.1`, `n.2`, …. -/
def candidate (n : Name) : Nat → Name
  | 0 => n
  | k + 1 => n.num (k + 1)

theorem candidate_injective (n : Name) {k k' : Nat} (h : candidate n k = candidate n k') :
    k = k' := by
  cases k <;> cases k' <;> simp only [candidate] at h
  · rfl
  · exact absurd h.symm (Name.num_ne n _)
  · exact absurd h (Name.num_ne n _)
  · exact (Name.num.inj h).2

/-! ## Constants of a term -/

mutual
/-- Modelled from the spec: `occurs(n, e)` (`kernel/occurs.h`), which `get_unused_name` uses in
the sense its documentation gives, "a name that is not used for any constant in the body": a
constant named `n` at a position the kernel's traversals visit, the positions of `replace`. A
constant's type annotation and a metavariable's local context are not entered. -/
def occurs (n : Name) : Expr → Bool
  | .constant m _ => m = n
  | .var _ | .type _ | .value _ | .metavar .. => false
  | .app f a as => occurs n f || occurs n a || occursList n as
  | .abst _ _ d b => occurs n d || occurs n b
  | .let _ none v b => occurs n v || occurs n b
  | .let _ (some t) v b => occurs n t || occurs n v || occurs n b
  | .heq l r => occurs n l || occurs n r
  | .pair a b t => occurs n a || occurs n b || occurs n t
  | .proj _ a => occurs n a
termination_by structural e => e
/-- `occurs` on arguments. -/
def occursList (n : Name) : List Expr → Bool
  | [] => false
  | e :: es => occurs n e || occursList n es
end

mutual
/-- The names of the constants `occurs` can find, in traversal order. -/
def constNames : Expr → List Name
  | .constant m _ => [m]
  | .var _ | .type _ | .value _ | .metavar .. => []
  | .app f a as => constNames f ++ constNames a ++ constNamesList as
  | .abst _ _ d b => constNames d ++ constNames b
  | .let _ none v b => constNames v ++ constNames b
  | .let _ (some t) v b => constNames t ++ constNames v ++ constNames b
  | .heq l r => constNames l ++ constNames r
  | .pair a b t => constNames a ++ constNames b ++ constNames t
  | .proj _ a => constNames a
termination_by structural e => e
/-- `constNames` on arguments. -/
def constNamesList : List Expr → List Name
  | [] => []
  | e :: es => constNames e ++ constNamesList es
end

mutual
theorem occurs_iff_mem (n : Name) : ∀ e : Expr, occurs n e = true ↔ n ∈ constNames e
  | .constant m _ => by simp [occurs, constNames, eq_comm]
  | .var _ | .type _ | .value _ | .metavar .. => by simp [occurs, constNames]
  | .app f a as => by
    simp only [occurs, constNames, Bool.or_eq_true, List.mem_append, occurs_iff_mem n f,
      occurs_iff_mem n a, occursList_iff_mem n as]
  | .abst _ _ d b | .let _ none d b | .heq d b => by
    simp only [occurs, constNames, Bool.or_eq_true, List.mem_append, occurs_iff_mem n d,
      occurs_iff_mem n b]
  | .let _ (some t) v b | .pair t v b => by
    simp only [occurs, constNames, Bool.or_eq_true, List.mem_append, occurs_iff_mem n t,
      occurs_iff_mem n v, occurs_iff_mem n b]
  | .proj _ a => occurs_iff_mem n a
theorem occursList_iff_mem (n : Name) :
    ∀ es : List Expr, occursList n es = true ↔ n ∈ constNamesList es
  | [] => by simp [occursList, constNamesList]
  | e :: es => by
    simp only [occursList, constNamesList, Bool.or_eq_true, List.mem_append, occurs_iff_mem n e,
      occursList_iff_mem n es]
end

/-! ## `get_unused_name` -/

/-- The `while` loop of `get_unused_name` on the hint `n` and the body `b`: while the candidate
`n1` occurs in `b`, move to `name(n, i)` and increment `i`. The loop of the source has no bound;
`fuel` bounds the iterations here, and `unusedNameLoop_found` shows how much suffices. -/
def unusedNameLoop (n : Name) (b : Expr) : Nat → Nat → Name → Option Name
  | 0, _, _ => none
  | fuel + 1, i, n1 => if occurs n1 b then unusedNameLoop n b fuel (i + 1) (n.num i) else some n1

/-- `get_unused_name(e)` for a binder `e` with name hint `n` and body `b` (an abstraction or a
`Let`): the loop from `n1 = n`, `i = 1`, run for one iteration more than `b` has constants,
which always suffices (`unusedNameLoop_found`). -/
def getUnusedName (n : Name) (b : Expr) : Name :=
  (unusedNameLoop n b ((constNames b).length + 1) 1 n).getD n

section UnusedName

variable {n : Name} {b : Expr}

/-- The loop, entered at candidate `k`, tries the candidates `k`, `k + 1`, … in turn. -/
theorem unusedNameLoop_candidate (fuel k : Nat) :
    unusedNameLoop n b (fuel + 1) (k + 1) (candidate n k) =
      if occurs (candidate n k) b then unusedNameLoop n b fuel (k + 2) (candidate n (k + 1))
      else some (candidate n k) := rfl

/-- The loop gives up only after `fuel` candidates that all occur. -/
theorem unusedNameLoop_eq_none_iff :
    ∀ (fuel k : Nat), unusedNameLoop n b fuel (k + 1) (candidate n k) = none ↔
      ∀ t < fuel, occurs (candidate n (k + t)) b = true
  | 0, _ => by simp [unusedNameLoop]
  | fuel + 1, k => by
    rw [unusedNameLoop_candidate]
    cases hk : occurs (candidate n k) b
    · simp only [Bool.false_eq_true, if_false, reduceCtorEq, false_iff, not_forall]
      exact ⟨0, Nat.succ_pos _, by rw [Nat.add_zero, hk]; decide⟩
    · simp only [if_true, unusedNameLoop_eq_none_iff fuel (k + 1)]
      constructor
      · intro h t ht
        cases t with
        | zero => exact hk
        | succ t => rw [show k + (t + 1) = k + 1 + t by omega]; exact h t (by omega)
      · intro h t ht
        rw [Nat.add_assoc, Nat.add_comm 1 t]
        exact h (t + 1) (by omega)

/-- What the loop returns is the first candidate from `k` on that does not occur. -/
theorem unusedNameLoop_eq_some :
    ∀ (fuel k : Nat) {r : Name}, unusedNameLoop n b fuel (k + 1) (candidate n k) = some r →
      ∃ t < fuel, r = candidate n (k + t) ∧ occurs r b = false ∧
        ∀ t' < t, occurs (candidate n (k + t')) b = true
  | 0, _, _, h => nomatch h
  | fuel + 1, k, r, h => by
    rw [unusedNameLoop_candidate] at h
    cases hk : occurs (candidate n k) b
    · simp only [hk, Bool.false_eq_true, if_false, Option.some.injEq] at h
      subst h
      exact ⟨0, Nat.succ_pos _, rfl, hk, fun _ h => absurd h (Nat.not_lt_zero _)⟩
    · simp only [hk, if_true] at h
      obtain ⟨t, ht, rfl, hr, hmin⟩ := unusedNameLoop_eq_some fuel (k + 1) h
      refine ⟨t + 1, by omega, by rw [Nat.add_assoc, Nat.add_comm 1 t], hr, fun t' ht' => ?_⟩
      cases t' with
      | zero => exact hk
      | succ t' => rw [show k + (t' + 1) = k + 1 + t' by omega]; exact hmin t' (by omega)

/-- More fuel changes nothing once the loop has found its name. -/
theorem unusedNameLoop_mono :
    ∀ (fuel d i : Nat) {n1 r : Name}, unusedNameLoop n b fuel i n1 = some r →
      unusedNameLoop n b (fuel + d) i n1 = some r
  | 0, _, _, _, _, h => nomatch h
  | fuel + 1, d, i, n1, r, h => by
    rw [Nat.add_right_comm]
    simp only [unusedNameLoop] at h ⊢
    split at h
    · rw [if_pos ‹_›]
      exact unusedNameLoop_mono fuel d (i + 1) h
    · rwa [if_neg ‹_›]

/-- **`get_unused_name` terminates.** Within one iteration more than the body has constants the
loop finds its name: the candidates are pairwise distinct, so at most that many of them can be
names of constants of the body. The name is the first candidate that does not occur in the body,
and more iterations would not change it. -/
theorem unusedNameLoop_found (n : Name) (b : Expr) :
    ∃ t ≤ (constNames b).length,
      unusedNameLoop n b ((constNames b).length + 1) 1 n = some (getUnusedName n b) ∧
      getUnusedName n b = candidate n t ∧ occurs (getUnusedName n b) b = false ∧
      ∀ t' < t, occurs (candidate n t') b = true := by
  cases h : unusedNameLoop n b ((constNames b).length + 1) 1 n with
  | none =>
    have hall := (unusedNameLoop_eq_none_iff (n := n) (b := b) _ 0).mp h
    have hsub : (List.range ((constNames b).length + 1)).map (candidate n) ⊆ constNames b := by
      intro x hx
      obtain ⟨t, ht, rfl⟩ := List.mem_map.mp hx
      have := hall t (List.mem_range.mp ht)
      rw [Nat.zero_add] at this
      exact (occurs_iff_mem _ b).mp this
    have hnd : ((List.range ((constNames b).length + 1)).map (candidate n)).Nodup :=
      List.Nodup.map (fun _ _ h => candidate_injective n h) (List.nodup_range _)
    have := (hnd.subperm hsub).length_le
    simp only [List.length_map, List.length_range] at this
    omega
  | some r =>
    obtain ⟨t, ht, hr, hfresh, hmin⟩ := unusedNameLoop_eq_some (n := n) (b := b) _ 0 h
    have hget : getUnusedName n b = r := by simp only [getUnusedName, h, Option.getD_some]
    rw [hget]
    simp only [Nat.zero_add] at hr hmin
    exact ⟨t, by omega, rfl, hr, hfresh, hmin⟩

theorem getUnusedName_fresh (n : Name) (b : Expr) : occurs (getUnusedName n b) b = false :=
  let ⟨_, _, _, _, h, _⟩ := unusedNameLoop_found n b
  h

end UnusedName

/-! ## Opening a binder with a name -/

/-- The callback of `replace_var_with_name(a, n)`: `Var(offset)` becomes the constant `n`, and a
variable above it moves down by one. -/
def varToNameFn (n : Name) : Expr → Nat → Option Expr
  | .var i, offset =>
    if offset ≤ i then some (if i = offset then .constant n none else .var (i - 1)) else none
  | _, _ => none

/-- `replace_var_with_name(a, n)`: open `a` with the name `n`. -/
def replaceVarWithName (a : Expr) (n : Name) : Expr := replace (varToNameFn n) 0 a

/-- Abstracting the constant `n`, the inverse the printer's readers perform: the constant `n`
becomes `Var(offset)` and the variables at or above it move up by one. Not a function of
`pp.cpp`: it states what opening must be invertible against. -/
def nameToVarFn (n : Name) : Expr → Nat → Option Expr
  | .var i, offset => if offset ≤ i then some (.var (i + 1)) else none
  | .constant m _, offset => if m = n then some (.var offset) else none
  | _, _ => none

/-- Abstract the name `n` out of `a`. -/
def abstractName (a : Expr) (n : Name) : Expr := replace (nameToVarFn n) 0 a

theorem varToNameFn_leaf (n : Name) : LeafFn (varToNameFn n) := by
  intro e k h
  cases e <;> first | rfl | cases h

mutual
theorem abstract_replace_iff (n : Name) :
    ∀ (o : Nat) (e : Expr),
      replace (nameToVarFn n) o (replace (varToNameFn n) o e) = e ↔ occurs n e = false
  | o, .var i => by
    by_cases hi : o ≤ i
    · by_cases he : i = o
      · subst he
        simp [replace, varToNameFn, nameToVarFn, occurs]
      · have : o ≤ i - 1 := by omega
        simp only [replace, varToNameFn, nameToVarFn, if_pos hi, if_neg he, if_pos this,
          Option.getD_some, occurs]
        exact iff_of_true (congrArg Expr.var (by omega)) trivial
    · simp [replace, varToNameFn, nameToVarFn, hi, occurs]
  | o, .constant m t => by
    by_cases hm : m = n
    · subst hm
      simp [replace, varToNameFn, nameToVarFn, occurs]
    · simp [replace, varToNameFn, nameToVarFn, hm, occurs]
  | _, .type _ | _, .value _ | _, .metavar .. => by simp [replace, varToNameFn, nameToVarFn, occurs]
  | o, .app f a as => by
    rw [replace_app rfl, replace_app rfl]
    simp only [Expr.app.injEq, occurs, Bool.or_eq_false_iff, abstract_replace_iff n o f,
      abstract_replace_iff n o a, abstractList_replaceList_iff n o as, and_assoc]
  | o, .abst k x d b => by
    rw [replace_abst rfl, replace_abst rfl]
    simp only [Expr.abst.injEq, occurs, Bool.or_eq_false_iff, abstract_replace_iff n o d,
      abstract_replace_iff n (o + 1) b, true_and]
  | o, .let x none v b => by
    rw [replace_let_none rfl, replace_let_none rfl]
    simp only [Expr.let.injEq, occurs, Bool.or_eq_false_iff, abstract_replace_iff n o v,
      abstract_replace_iff n (o + 1) b, true_and]
  | o, .let x (some t) v b => by
    rw [replace_let_some rfl, replace_let_some rfl]
    simp only [Expr.let.injEq, Option.some.injEq, occurs, Bool.or_eq_false_iff,
      abstract_replace_iff n o t, abstract_replace_iff n o v, abstract_replace_iff n (o + 1) b,
      true_and, and_assoc]
  | o, .heq l r => by
    rw [replace_heq rfl, replace_heq rfl]
    simp only [Expr.heq.injEq, occurs, Bool.or_eq_false_iff, abstract_replace_iff n o l,
      abstract_replace_iff n o r]
  | o, .pair a b t => by
    rw [replace_pair rfl, replace_pair rfl]
    simp only [Expr.pair.injEq, occurs, Bool.or_eq_false_iff, abstract_replace_iff n o a,
      abstract_replace_iff n o b, abstract_replace_iff n o t, and_assoc]
  | o, .proj i a => by
    rw [replace_proj rfl, replace_proj rfl]
    simp only [Expr.proj.injEq, occurs, abstract_replace_iff n o a, true_and]
theorem abstractList_replaceList_iff (n : Name) :
    ∀ (o : Nat) (es : List Expr),
      replaceList (nameToVarFn n) o (replaceList (varToNameFn n) o es) = es ↔
        occursList n es = false
  | _, [] => by simp [replaceList, occursList]
  | o, e :: es => by
    simp only [replaceList, List.cons.injEq, occursList, Bool.or_eq_false_iff,
      abstract_replace_iff n o e, abstractList_replaceList_iff n o es]
end

/-- **Opening is invertible exactly on fresh names.** Abstracting `n` from `b` opened with `n`
gives back `b` iff no constant of `b` is named `n`. -/
theorem abstractName_replaceVarWithName (b : Expr) (n : Name) :
    abstractName (replaceVarWithName b n) n = b ↔ occurs n b = false :=
  abstract_replace_iff n 0 b

/-! ## Opening nested binders -/

/-- The number of abstractions of kind `k` at the root of `e`. -/
def absSpine (k : AbstKind) : Expr → Nat
  | .abst k' _ _ b => if k' = k then absSpine k b + 1 else 0
  | _ => 0

/-- The number of `Let`s at the root of `e`. -/
def letSpine : Expr → Nat
  | .let _ _ _ b => letSpine b + 1
  | _ => 0

/-- `is_abstraction(e)`: a `Lambda`, `Pi` or `Sigma`. -/
def Expr.isAbstraction : Expr → Bool
  | .abst .. => true
  | _ => false

theorem Expr.exists_abst_of_isAbstraction {e : Expr} (h : e.isAbstraction = true) :
    ∃ k x d b, e = .abst k x d b := by
  cases e with
  | abst k x d b => exact ⟨k, x, d, b, rfl⟩
  | _ => cases h

/-- `replace_var_with_name(abst_body(T), n)`. `collect_nested` applies it to abstractions only. -/
def openAbstBody (t : Expr) (n : Name) : Expr :=
  match t with
  | .abst _ _ _ b => replaceVarWithName b n
  | t => t

/-- The state of `collect_nested`: the names in `m_local_names`, the binders recorded in `r` (name
and domain, in order), the term `e` still to open, and the type side `T` of a compact definition,
opened alongside. -/
structure Nested where
  localNames : List Name
  binders : List (Name × Expr)
  body : Expr
  type : Option Expr
  deriving DecidableEq, Repr

/-- `collect_nested(e, T, k, r)`: while `e` is an abstraction of kind `k` and `T`, when given, is
an abstraction, choose `n1 = get_unused_name(e)`, insert it into `m_local_names`, record it with
the domain, and open the body of `e`, and that of `T`, with it. The source recurses on the opened
body; `fuel` bounds that recursion, and the spine of `e` suffices (`collectNestedAux_fuel`). -/
def collectNestedAux (k : AbstKind) : Nat → Nested → Nested
  | fuel + 1, ⟨names, r, .abst k' x d b, T⟩ =>
    if k' == k && T.all Expr.isAbstraction then
      let n1 := getUnusedName x b
      collectNestedAux k fuel
        ⟨n1 :: names, r ++ [(n1, d)], replaceVarWithName b n1, T.map (openAbstBody · n1)⟩
    else ⟨names, r, .abst k' x d b, T⟩
  | _, s => s

/-- `collect_nested(e, T, k, r)` from the local names `names`. -/
def collectNested (names : List Name) (e : Expr) (T : Option Expr) (k : AbstKind)
    (r : List (Name × Expr)) : Nested :=
  collectNestedAux k (absSpine k e) ⟨names, r, e, T⟩

/-- The state of `collect_nested_let`: the names in `m_local_names`, the bindings (name, type,
value, in order) and the term still to open. -/
structure NestedLet where
  localNames : List Name
  bindings : List (Name × Option Expr × Expr)
  body : Expr
  deriving DecidableEq, Repr

/-- `collect_nested_let(e, bindings)`: while `e` is a `Let`, choose `n1 = get_unused_name(e)`,
insert it into `m_local_names`, record it with the type and value, and open the body with it.
`fuel` bounds the recursion as in `collectNestedAux`. -/
def collectNestedLetAux : Nat → NestedLet → NestedLet
  | fuel + 1, ⟨names, bs, .let x t v b⟩ =>
    let n1 := getUnusedName x b
    collectNestedLetAux fuel ⟨n1 :: names, bs ++ [(n1, t, v)], replaceVarWithName b n1⟩
  | _, s => s

/-- `collect_nested_let(e, bindings)` from the local names `names`. -/
def collectNestedLet (names : List Name) (e : Expr) (bs : List (Name × Option Expr × Expr)) :
    NestedLet :=
  collectNestedLetAux (letSpine e) ⟨names, bs, e⟩

theorem absSpine_abst {k k' : AbstKind} {x : Name} {d b : Expr} :
    absSpine k (.abst k' x d b) = if k' = k then absSpine k b + 1 else 0 := rfl

theorem letSpine_let {x : Name} {t : Option Expr} {v b : Expr} :
    letSpine (.let x t v b) = letSpine b + 1 := rfl

/-- Opening keeps the spine of abstractions. -/
theorem absSpine_replace_varToName (k : AbstKind) (n : Name) :
    ∀ (o : Nat) (e : Expr), absSpine k (replace (varToNameFn n) o e) = absSpine k e
  | o, .var i => by
    simp only [replace, varToNameFn]
    split
    · split <;> rfl
    · rfl
  | o, .abst k' x d b => by
    rw [replace_abst rfl, absSpine_abst, absSpine_abst, absSpine_replace_varToName k n (o + 1) b]
  | _, .constant .. | _, .type _ | _, .value _ | _, .app .. | _, .let _ none _ _
  | _, .let _ (some _) _ _ | _, .heq .. | _, .pair .. | _, .proj .. | _, .metavar .. => rfl

/-- Opening keeps the spine of `Let`s. -/
theorem letSpine_replace_varToName (n : Name) :
    ∀ (o : Nat) (e : Expr), letSpine (replace (varToNameFn n) o e) = letSpine e
  | o, .var i => by
    simp only [replace, varToNameFn]
    split
    · split <;> rfl
    · rfl
  | o, .let x none v b => by
    rw [replace_let_none rfl, letSpine_let, letSpine_let, letSpine_replace_varToName n (o + 1) b]
  | o, .let x (some t) v b => by
    rw [replace_let_some rfl, letSpine_let, letSpine_let, letSpine_replace_varToName n (o + 1) b]
  | _, .constant .. | _, .type _ | _, .value _ | _, .app .. | _, .abst .. | _, .heq ..
  | _, .pair .. | _, .proj .. | _, .metavar .. => rfl

/-- `collect_nested` does nothing to a term that is not an abstraction of kind `k`. -/
theorem collectNestedAux_of_absSpine_zero {k : AbstKind} :
    ∀ {fuel : Nat} {s : Nested}, absSpine k s.body = 0 → collectNestedAux k fuel s = s
  | 0, _, _ => rfl
  | _ + 1, ⟨_, _, e, _⟩, h => by
    cases e with
    | abst k' =>
      have hk : k' ≠ k := fun hk => by rw [absSpine_abst, if_pos hk] at h; omega
      simp [collectNestedAux, hk]
    | _ => rfl

/-- **The spine is enough fuel.** `collect_nested` stops on its own before the fuel runs out: any
fuel from the spine of the term still to open on gives the same result. -/
theorem collectNestedAux_fuel (k : AbstKind) :
    ∀ (f₁ f₂ : Nat) (s : Nested), absSpine k s.body ≤ f₁ → absSpine k s.body ≤ f₂ →
      collectNestedAux k f₁ s = collectNestedAux k f₂ s
  | 0, _, s, h, _ | _, 0, s, _, h => by
    simp only [collectNestedAux_of_absSpine_zero (Nat.le_zero.mp h)]
  | f₁ + 1, f₂ + 1, ⟨names, r, e, T⟩, h₁, h₂ => by
    cases e with
    | abst k' x d b =>
      by_cases hc : (k' == k && T.all Expr.isAbstraction) = true
      · have hk : k' = k := beq_iff_eq.mp ((Bool.and_eq_true _ _).mp hc).1
        rw [absSpine_abst, if_pos hk] at h₁ h₂
        simp only [collectNestedAux, hc, if_true]
        exact collectNestedAux_fuel k f₁ f₂ _
          (by simp only [replaceVarWithName, absSpine_replace_varToName]; omega)
          (by simp only [replaceVarWithName, absSpine_replace_varToName]; omega)
      · simp only [collectNestedAux, hc, Bool.false_eq_true, if_false]
    | _ => rfl

/-- `collect_nested_let` stops on its own before the fuel runs out. -/
theorem collectNestedLetAux_fuel :
    ∀ (f₁ f₂ : Nat) (s : NestedLet), letSpine s.body ≤ f₁ → letSpine s.body ≤ f₂ →
      collectNestedLetAux f₁ s = collectNestedLetAux f₂ s
  | 0, 0, _, _, _ => rfl
  | _ + 1, 0, ⟨_, _, e⟩, _, h | 0, _ + 1, ⟨_, _, e⟩, h, _ => by
    cases e with
    | «let» => rw [letSpine_let] at h; omega
    | _ => rfl
  | f₁ + 1, f₂ + 1, ⟨names, bs, e⟩, h₁, h₂ => by
    cases e with
    | «let» x t v b =>
      rw [letSpine_let] at h₁ h₂
      exact collectNestedLetAux_fuel f₁ f₂ _
        (by simp only [replaceVarWithName, letSpine_replace_varToName]; omega)
        (by simp only [replaceVarWithName, letSpine_replace_varToName]; omega)
    | _ => rfl

/-- **One step of `collect_nested`.** On an abstraction of kind `k`, with `T` absent or an
abstraction, the name chosen is fresh for the body it opens, and the body and the type side are
opened with it. -/
theorem collectNestedAux_step {k : AbstKind} {fuel : Nat} {names : List Name}
    {r : List (Name × Expr)} {x : Name} {d b : Expr} {T : Option Expr}
    (hT : T.all Expr.isAbstraction = true) :
    collectNestedAux k (fuel + 1) ⟨names, r, .abst k x d b, T⟩ =
      collectNestedAux k fuel ⟨getUnusedName x b :: names, r ++ [(getUnusedName x b, d)],
        replaceVarWithName b (getUnusedName x b), T.map (openAbstBody · (getUnusedName x b))⟩ ∧
      occurs (getUnusedName x b) b = false := by
  refine ⟨?_, getUnusedName_fresh x b⟩
  simp only [collectNestedAux, beq_self_eq_true, hT, Bool.and_self, if_true]

/-- `collect_nested` only inserts into `m_local_names`: the names it starts from stay, behind the
ones it adds. -/
theorem localNames_suffix_collectNestedAux (k : AbstKind) :
    ∀ (fuel : Nat) (s : Nested), s.localNames <:+ (collectNestedAux k fuel s).localNames
  | 0, _ => List.suffix_refl _
  | fuel + 1, ⟨names, r, e, T⟩ => by
    cases e with
    | abst k' x d b =>
      simp only [collectNestedAux]
      split
      · exact (List.suffix_cons _ _).trans
          (localNames_suffix_collectNestedAux k fuel ⟨getUnusedName x b :: names, _, _, _⟩)
      · exact List.suffix_refl _
    | _ => exact List.suffix_refl _

/-- `collect_nested_let` only inserts into `m_local_names`. -/
theorem localNames_suffix_collectNestedLetAux :
    ∀ (fuel : Nat) (s : NestedLet), s.localNames <:+ (collectNestedLetAux fuel s).localNames
  | 0, _ => List.suffix_refl _
  | fuel + 1, ⟨names, bs, e⟩ => by
    cases e with
    | «let» x t v b =>
      exact (List.suffix_cons _ _).trans
        (localNames_suffix_collectNestedLetAux fuel ⟨getUnusedName x b :: names, _, _⟩)
    | _ => exact List.suffix_refl _

/-! ## Closing the opened binders -/

/-- Close the binders `collect_nested` recorded (outermost first) around the opened body: abstract
each name, the innermost first, and bind it with its domain. The inverse that a reader of the
printed binders performs; not a function of `pp.cpp`. -/
def closeNested (k : AbstKind) : List (Name × Expr) → Expr → Expr
  | [], b => b
  | (n, d) :: rest, b => .abst k n d (abstractName (closeNested k rest b) n)

theorem nameToVarFn_erase (n : Name) (x : Expr) (o : Nat) :
    (nameToVarFn n x o).map erase = nameToVarFn n (erase x) o := by
  cases x <;> try rfl
  all_goals
    simp only [nameToVarFn, erase]
    split <;> rfl

/-- Abstracting a name commutes with erasing binder names and constant annotations. -/
theorem erase_abstractName (t : Expr) (n : Name) :
    erase (abstractName t n) = abstractName (erase t) n :=
  erase_replace (nameToVarFn_erase n) 0 t

/-- On the value side (no type side), `collect_nested` records binders after those it starts with,
and closing them around the opened body gives back the term it started from, up to binder names and
annotations, whatever the fuel. -/
theorem closeNested_collectNestedAux (k : AbstKind) :
    ∀ (fuel : Nat) (names : List Name) (r : List (Name × Expr)) (e : Expr),
      ∃ r', (collectNestedAux k fuel ⟨names, r, e, none⟩).binders = r ++ r' ∧
        (closeNested k r' (collectNestedAux k fuel ⟨names, r, e, none⟩).body).erase = e.erase
  | 0, _, r, _ => ⟨[], (List.append_nil r).symm, rfl⟩
  | fuel + 1, names, r, e => by
    cases e with
    | abst k' x d b =>
      by_cases hk : k' = k
      · subst hk
        obtain ⟨r', hr, he⟩ := closeNested_collectNestedAux k' fuel (getUnusedName x b :: names)
          (r ++ [(getUnusedName x b, d)]) (replaceVarWithName b (getUnusedName x b))
        rw [(collectNestedAux_step (T := none) rfl).1, Option.map_none']
        refine ⟨(getUnusedName x b, d) :: r', by rw [hr, List.append_assoc]; rfl,
          congrArg (Expr.abst k' default (erase d)) ?_⟩
        rw [erase_abstractName, he, ← erase_abstractName,
          (abstractName_replaceVarWithName b _).mpr (getUnusedName_fresh x b)]
      · have hc : (k' == k && (none : Option Expr).all Expr.isAbstraction) = false := by
          simp [hk]
        simp only [collectNestedAux, hc, Bool.false_eq_true, if_false]
        exact ⟨[], (List.append_nil r).symm, rfl⟩
    | _ => exact ⟨[], (List.append_nil r).symm, rfl⟩

/-- **The value side of `collect_nested` loses nothing.** For every term, kind and set of local
names, closing the binders `collect_nested` opened (with no type side) around the body it returns
gives back the term, up to binder names: the kernel's `operator==` holds. Each name chosen is fresh
for the body it opens, so no constant of the term is captured. -/
theorem collectNested_value_roundTrip (names : List Name) (e : Expr) (k : AbstKind) :
    (closeNested k (collectNested names e none k []).binders
      (collectNested names e none k []).body).alphaEq e = true := by
  obtain ⟨r', hr, he⟩ := closeNested_collectNestedAux k (absSpine k e) names [] e
  unfold collectNested
  rw [hr, List.nil_append]
  exact alphaEq_iff.mpr he

/-- `fun x : A, fun x : x, x`, where the inner domain and the body are the outer `x`: the outer
binder opens as `x`, and the inner one, whose body then has the constant `x`, as `x.1`. -/
example : (collectNested []
    (.abst .lambda "x" (.constant "A" none) (.abst .lambda "x" (.var 0) (.var 1))) none .lambda
      []).binders.map Prod.fst = [("x" : Name), Name.num "x" 1] := by
  decide

/-- Close the `let`s `collect_nested_let` recorded (outermost first) around the opened body: abstract
each name, the innermost first, and bind it with its type and value. The inverse that a reader of
the printed `let` performs; not a function of `pp.cpp`. -/
def closeNestedLet : List (Name × Option Expr × Expr) → Expr → Expr
  | [], b => b
  | (n, t, v) :: rest, b => .let n t v (abstractName (closeNestedLet rest b) n)

/-- `collect_nested_let` records bindings after those it starts with, and closing them around the
opened body gives back the term it started from, up to binder names and annotations, whatever the
fuel. -/
theorem closeNestedLet_collectNestedLetAux :
    ∀ (fuel : Nat) (names : List Name) (bs : List (Name × Option Expr × Expr)) (e : Expr),
      ∃ bs', (collectNestedLetAux fuel ⟨names, bs, e⟩).bindings = bs ++ bs' ∧
        (closeNestedLet bs' (collectNestedLetAux fuel ⟨names, bs, e⟩).body).erase = e.erase
  | 0, _, bs, _ => ⟨[], (List.append_nil bs).symm, rfl⟩
  | fuel + 1, names, bs, e => by
    cases e with
    | «let» x t v b =>
      obtain ⟨bs', hbs, he⟩ := closeNestedLet_collectNestedLetAux fuel (getUnusedName x b :: names)
        (bs ++ [(getUnusedName x b, t, v)]) (replaceVarWithName b (getUnusedName x b))
      refine ⟨(getUnusedName x b, t, v) :: bs', by rw [collectNestedLetAux, hbs, List.append_assoc]; rfl,
        congrArg (Expr.let default (eraseOpt t) (erase v)) ?_⟩
      rw [collectNestedLetAux, erase_abstractName, he, ← erase_abstractName,
        (abstractName_replaceVarWithName b _).mpr (getUnusedName_fresh x b)]
    | _ => exact ⟨[], (List.append_nil bs).symm, rfl⟩

/-- **`collect_nested_let` loses nothing.** For every term and set of local names, closing the
`let`s that `collect_nested_let` opened for `pp_let` around the body it returns gives back the term,
up to binder names: the kernel's `operator==` holds. Each name chosen is fresh for the body it
opens, so no constant of the term is captured, in a value, a type or the body. -/
theorem collectNestedLet_roundTrip (names : List Name) (e : Expr) :
    (closeNestedLet (collectNestedLet names e []).bindings
      (collectNestedLet names e []).body).alphaEq e = true := by
  obtain ⟨bs', hbs, he⟩ := closeNestedLet_collectNestedLetAux (letSpine e) names [] e
  unfold collectNestedLet
  rw [hbs, List.nil_append]
  exact alphaEq_iff.mpr he

/-! ## Arrow tails -/

/-- `std::numeric_limits<unsigned>::max()`, that is `2 ^ 32 - 1`. -/
def unsignedMax : Nat := 4294967295

/-- The inner loop of `get_arrow_starting_at`: test `has_free_var(e2, 0, num_vars)` with
`num_vars = 1`, then move to `e2`'s body while `e2` is a Pi. `true` when no test finds the
variable (`ok` stays set). -/
def arrowTailOk : Expr → Bool
  | .abst .pi x d b => !hasFreeVarIn 0 1 0 (.abst .pi x d b) && arrowTailOk b
  | e2 => !hasFreeVarIn 0 1 0 e2

/-- The outer loop of `get_arrow_starting_at`, at the Pi `e` in position `pos` of the spine. -/
def arrowStartLoop : Expr → Nat → Nat
  | .abst .pi _ _ b, pos => if arrowTailOk b then pos else arrowStartLoop b (pos + 1)
  | _, _ => unsignedMax

/-- `get_arrow_starting_at(e)`: the position along `e`'s Pi spine from which the binders print as
arrows, `UINT_MAX` if there is none or `e` is not a Pi. -/
def getArrowStartingAt (e : Expr) : Nat :=
  match e with
  | .abst .pi .. => arrowStartLoop e 0
  | _ => unsignedMax

/-- The bodies of the Pis along `e`'s spine, outermost first. In the body of binder `k`, that
binder's variable is `Var 0`. -/
def piBodies : Expr → List Expr
  | .abst .pi _ _ b => b :: piBodies b
  | _ => []

/-- From position `p` on, no Pi binder of `e`'s spine has its variable free in its body: those
binders can be printed as non-dependent arrows. -/
def ArrowsFrom (e : Expr) (p : Nat) : Prop :=
  ∀ b ∈ (piBodies e).drop p, hasFreeVarIn 0 1 0 b = false

theorem piBodies_pi {x : Name} {d b : Expr} : piBodies (.abst .pi x d b) = b :: piBodies b := rfl

theorem arrowTailOk_pi {x : Name} {d b : Expr} :
    arrowTailOk (.abst .pi x d b) = (!hasFreeVarIn 0 1 0 (.abst .pi x d b) && arrowTailOk b) :=
  rfl

theorem arrowStartLoop_pi {x : Name} {d b : Expr} {pos : Nat} :
    arrowStartLoop (.abst .pi x d b) pos = if arrowTailOk b then pos else arrowStartLoop b (pos + 1) :=
  rfl

/-- The inner loop tests `Var 0` in `e2` and in the body of each Pi below it. -/
theorem arrowTailOk_iff :
    ∀ e2 : Expr, arrowTailOk e2 = true ↔ ∀ b ∈ e2 :: piBodies e2, hasFreeVarIn 0 1 0 b = false
  | .abst .pi x d b => by
    rw [arrowTailOk_pi, Bool.and_eq_true, Bool.not_eq_true', arrowTailOk_iff b, piBodies_pi]
    exact (List.forall_mem_cons (p := fun b => hasFreeVarIn 0 1 0 b = false)).symm
  | .abst .lambda .. | .abst .sigma .. | .var _ | .constant .. | .type _ | .value _ | .app ..
  | .let .. | .heq .. | .pair .. | .proj .. | .metavar .. =>
    (Iff.of_eq (Bool.not_eq_true' _)).trans
      (List.forall_mem_singleton (p := fun b => hasFreeVarIn 0 1 0 b = false)).symm

theorem arrowsFrom_pi_zero {x : Name} {d b : Expr} :
    ArrowsFrom (.abst .pi x d b) 0 ↔ arrowTailOk b = true := by
  rw [arrowTailOk_iff]
  rfl

theorem arrowsFrom_pi_succ {x : Name} {d b : Expr} {q : Nat} :
    ArrowsFrom (.abst .pi x d b) (q + 1) ↔ ArrowsFrom b q := Iff.rfl

/-- The outer loop returns the least position of an arrow tail, offset by `pos`, and `UINT_MAX`
when the spine has none. -/
theorem arrowStartLoop_spec :
    ∀ (e : Expr) (pos : Nat),
      ((∃ p < (piBodies e).length, ArrowsFrom e p) →
        ∃ r < (piBodies e).length, arrowStartLoop e pos = pos + r ∧ ArrowsFrom e r ∧
          ∀ q < r, ¬ ArrowsFrom e q) ∧
      ((¬ ∃ p < (piBodies e).length, ArrowsFrom e p) → arrowStartLoop e pos = unsignedMax)
  | .abst .pi x d b, pos => by
    have ih := arrowStartLoop_spec b (pos + 1)
    have hlen : (piBodies (.abst .pi x d b)).length = (piBodies b).length + 1 := rfl
    by_cases hok : arrowTailOk b = true
    · have h0 : ArrowsFrom (.abst .pi x d b) 0 := arrowsFrom_pi_zero.mpr hok
      refine ⟨fun _ => ⟨0, by omega, by rw [arrowStartLoop_pi, if_pos hok, Nat.add_zero], h0,
        fun _ h => absurd h (Nat.not_lt_zero _)⟩, fun hno => absurd ⟨0, by omega, h0⟩ hno⟩
    · have hn0 : ¬ ArrowsFrom (.abst .pi x d b) 0 := fun h => hok (arrowsFrom_pi_zero.mp h)
      rw [arrowStartLoop_pi, if_neg hok, hlen]
      constructor
      · rintro ⟨p, hp, hpe⟩
        cases p with
        | zero => exact absurd hpe hn0
        | succ p =>
          obtain ⟨r, hr, heq, hre, hmin⟩ := ih.1 ⟨p, by omega, arrowsFrom_pi_succ.mp hpe⟩
          refine ⟨r + 1, by omega, by rw [heq]; omega, arrowsFrom_pi_succ.mpr hre,
            fun q hq => ?_⟩
          cases q with
          | zero => exact hn0
          | succ q => exact fun h => hmin q (by omega) (arrowsFrom_pi_succ.mp h)
      · intro hno
        exact ih.2 fun ⟨p, hp, hpe⟩ => hno ⟨p + 1, by omega, arrowsFrom_pi_succ.mpr hpe⟩
  | .abst .lambda .. , _ | .abst .sigma .., _ | .var _, _ | .constant .., _ | .type _, _
  | .value _, _ | .app .., _ | .let .., _ | .heq .., _ | .pair .., _ | .proj .., _
  | .metavar .., _ =>
    ⟨fun ⟨_, hp, _⟩ => absurd hp (Nat.not_lt_zero _), fun _ => rfl⟩

/-- An arrow tail exists iff the innermost Pi of the spine is non-dependent. -/
theorem exists_arrowsFrom_iff {e : Expr} {b : Expr} (hb : (piBodies e).getLast? = some b) :
    (∃ p < (piBodies e).length, ArrowsFrom e p) ↔ hasFreeVarIn 0 1 0 b = false := by
  constructor
  · rintro ⟨p, hp, hpe⟩
    refine hpe b (List.mem_of_getLast?_eq_some ?_)
    rw [List.getLast?_drop, if_neg (by omega), hb]
  · intro hfree
    obtain ⟨ys, hys⟩ := List.getLast?_eq_some_iff.mp hb
    refine ⟨ys.length, by simp [hys], fun x hx => ?_⟩
    rw [hys, List.drop_left, List.mem_singleton] at hx
    rwa [hx]

/-- **`get_arrow_starting_at` finds the least arrow tail.** If some position `p` of `e`'s Pi spine
has no binder at or after it whose variable occurs free in its body, the function returns the
least such position; otherwise, and in particular when `e` is not a Pi, it returns `UINT_MAX`.
For a Pi, no such position exists exactly when the innermost Pi of the spine is dependent. -/
theorem getArrowStartingAt_spec (e : Expr) :
    ((∃ p < (piBodies e).length, ArrowsFrom e p) →
      getArrowStartingAt e < (piBodies e).length ∧ ArrowsFrom e (getArrowStartingAt e) ∧
        ∀ q < getArrowStartingAt e, ¬ ArrowsFrom e q) ∧
    ((¬ ∃ p < (piBodies e).length, ArrowsFrom e p) → getArrowStartingAt e = unsignedMax) ∧
    ∀ b, (piBodies e).getLast? = some b →
      ((¬ ∃ p < (piBodies e).length, ArrowsFrom e p) ↔ hasFreeVarIn 0 1 0 b = true) := by
  have hloop : getArrowStartingAt e = arrowStartLoop e 0 := by
    cases e with
    | abst k => cases k <;> rfl
    | _ => rfl
  rw [hloop]
  refine ⟨fun h => ?_, (arrowStartLoop_spec e 0).2, fun b hb => ?_⟩
  · obtain ⟨r, hr, heq, hre, hmin⟩ := (arrowStartLoop_spec e 0).1 h
    rw [heq, Nat.zero_add]
    exact ⟨hr, hre, hmin⟩
  · rw [exists_arrowsFrom_iff hb, Bool.not_eq_false]

/-- `Pi A : Type, Pi x : A, Pi y : A, A` prints as `Pi (A : Type), A -> A -> A`. -/
example : getArrowStartingAt
    (.abst .pi "A" (.type .zero) (.abst .pi "x" (.var 0) (.abst .pi "y" (.var 1) (.var 2)))) = 1 := by
  decide

/-- `Pi A : Type, Pi x : A, P x` has no arrow tail: its innermost Pi is dependent. -/
example : getArrowStartingAt
    (.abst .pi "A" (.type .zero) (.abst .pi "x" (.var 0) (.app (.constant "P" none) (.var 0) []))) =
      unsignedMax := by
  decide

end LeanKernel
