import LeanKernel.Subst
import LeanKernel.Metavar
import Mathlib.Data.Nat.Defs

/-!
# `apply_beta` as a chain of one-argument steps

`apply_beta(f, n, args)` enters `m = min(n, leading lambdas of f)` lambdas and instantiates the
body once with `m` arguments. The chain of one-argument beta steps instead instantiates one lambda
at a time: each step is a whole `instantiate` of the remaining lambda term with one argument.

- `leadingLambdas`, `stripLambdas` — the number of leading lambdas, and the body under `k` of them;
  the `while` loop of `apply_beta` strips `min(n, leadingLambdas f)` of them (`applyBetaLoop_eq`).
- `betaChain`, `betaChainApply` — the chain of one-argument steps, as the spec describes it.
- `replace_instantiateFn_cons` — one instantiation of `a :: as` is the instantiation of `a` at the
  outermost index followed by that of `as`, for `a` without metavariables: the lift of `a` over the
  binders of `as` is undone by the later instantiation (`instantiate_liftFreeVars_shift`).
- `applyBeta_eq_betaChainApply` — so `apply_beta` is the chain, syntactically, when the arguments
  have no metavariables. An argument that is a metavariable keeps in its context the lift an early
  step records on it, where `apply_beta` records none (`applyBeta_metavarArg`).
-/

namespace LeanKernel

open Expr

/-! ## Leading lambdas -/

/-- The number of leading lambdas. -/
def leadingLambdas : Expr → Nat
  | .abst .lambda _ _ b => leadingLambdas b + 1
  | _ => 0

/-- `abst_body` taken `k` times. -/
def stripLambdas : Nat → Expr → Expr
  | k + 1, .abst .lambda _ _ b => stripLambdas k b
  | _, e => e

/-- Modelled from the spec: the chain of one-argument beta steps
`tᵢ = instantiate(abst_body(tᵢ₋₁), aᵢ)`, taken `m` times from `t₀ = t`. -/
def betaChain : Nat → Expr → List Expr → Expr
  | m + 1, .abst .lambda _ _ b, a :: as => betaChain m (instantiate b 0 [a]) as
  | _, t, _ => t

/-- Modelled from the spec: `apply_beta(f, n, args)` as a chain of one-argument steps. With
`m = min(n, leading lambdas of f)`, the result is `tₘ` when `m = n`, `mk_app(tₘ, aₘ₊₁, …, aₙ)`
when `m < n`, and `mk_app(f, args)` when `f` is not a lambda. -/
def betaChainApply (f a : Expr) (as : List Expr) : Expr :=
  match f with
  | .abst .lambda n d b =>
    let m := min (as.length + 1) (leadingLambdas (.abst .lambda n d b))
    match (a :: as).drop m with
    | [] => betaChain m (.abst .lambda n d b) (a :: as)
    | a' :: as' => mkApp (betaChain m (.abst .lambda n d b) (a :: as)) a' as'
  | _ => mkApp f a as

theorem applyBetaLoop_stop {n j : Nat} {x : Name} {d b : Expr} (hb : leadingLambdas b = 0) :
    applyBetaLoop n (.abst .lambda x d b) j = (b, j) := by
  cases b with
  | abst k _ _ _ => cases k <;> first | rfl | simp [leadingLambdas] at hb
  | _ => rfl

/-- **The loop of `apply_beta`** strips `min(leadingLambdas e, n + 1 - j)` lambdas, counting from
`j`. -/
theorem applyBetaLoop_eq (n : Nat) : ∀ (e : Expr) (j : Nat), 0 < leadingLambdas e → j ≤ n →
    applyBetaLoop n e j = (stripLambdas (min (leadingLambdas e) (n + 1 - j)) e,
      j + min (leadingLambdas e) (n + 1 - j) - 1)
  | .abst .lambda x d b, j, _, hj => by
    by_cases hb : leadingLambdas b = 0
    · have h1 : min (leadingLambdas b + 1) (n + 1 - j) = 1 := by omega
      simp only [applyBetaLoop_stop hb, leadingLambdas, h1, stripLambdas, Nat.add_sub_cancel]
    · have ih := applyBetaLoop_eq n b (j + 1) (Nat.pos_of_ne_zero hb)
      obtain ⟨y, d', b', rfl⟩ : ∃ y d' b', b = .abst .lambda y d' b' := by
        cases b with
        | abst k y d' b' => cases k <;> first | exact ⟨y, d', b', rfl⟩ | simp [leadingLambdas] at hb
        | _ => simp [leadingLambdas] at hb
      show (if j < n then applyBetaLoop n _ (j + 1) else _) = _
      simp only [leadingLambdas] at ih ⊢
      by_cases hjn : j < n
      · have hmin : min (leadingLambdas b' + 1 + 1) (n + 1 - j) =
            min (leadingLambdas b' + 1) (n + 1 - (j + 1)) + 1 := by omega
        rw [if_pos hjn, ih hjn, hmin, stripLambdas, Prod.mk.injEq]
        exact ⟨rfl, by omega⟩
      · have h1 : min (leadingLambdas b' + 1 + 1) (n + 1 - j) = 1 := by omega
        rw [if_neg hjn, h1]
        rfl
  | .abst .pi .., _, h, _ | .abst .sigma .., _, h, _ | .var _, _, h, _ | .constant .., _, h, _
  | .type _, _, h, _ | .value _, _, h, _ | .app .., _, h, _ | .let .., _, h, _ | .heq .., _, h, _
  | .pair .., _, h, _ | .proj .., _, h, _ | .metavar .., _, h, _ => by simp [leadingLambdas] at h

/-! ## Passes under lambdas -/

section Strip

variable {F : Expr → Nat → Option Expr} (hF : LeafFn F)
include hF

/-- A leaf pass keeps the leading lambdas. -/
theorem le_leadingLambdas_replace : ∀ (k : Nat) (e : Expr) (o : Nat), k ≤ leadingLambdas e →
    k ≤ leadingLambdas (replace F o e)
  | 0, _, _, _ => Nat.zero_le _
  | k + 1, .abst .lambda x d b, o, h => by
    rw [replace_abst (hF _ _ rfl), leadingLambdas]
    exact Nat.succ_le_succ (le_leadingLambdas_replace k b (o + 1) (Nat.le_of_succ_le_succ h))
  | _ + 1, .var _, _, h | _ + 1, .constant .., _, h | _ + 1, .type _, _, h
  | _ + 1, .value _, _, h | _ + 1, .app .., _, h | _ + 1, .abst .pi .., _, h
  | _ + 1, .abst .sigma .., _, h | _ + 1, .let .., _, h | _ + 1, .heq .., _, h
  | _ + 1, .pair .., _, h | _ + 1, .proj .., _, h | _ + 1, .metavar .., _, h => by
    simp [leadingLambdas] at h

/-- Under `k` leading lambdas a leaf pass from `o` is the pass from `o + k` on the body. -/
theorem stripLambdas_replace : ∀ (k : Nat) (e : Expr) (o : Nat), k ≤ leadingLambdas e →
    stripLambdas k (replace F o e) = replace F (o + k) (stripLambdas k e)
  | 0, _, _, _ => rfl
  | k + 1, .abst .lambda x d b, o, h => by
    rw [replace_abst (hF _ _ rfl), stripLambdas, stripLambdas,
      stripLambdas_replace k b (o + 1) (Nat.le_of_succ_le_succ h), Nat.add_right_comm, Nat.add_assoc]
  | _ + 1, .var _, _, h | _ + 1, .constant .., _, h | _ + 1, .type _, _, h
  | _ + 1, .value _, _, h | _ + 1, .app .., _, h | _ + 1, .abst .pi .., _, h
  | _ + 1, .abst .sigma .., _, h | _ + 1, .let .., _, h | _ + 1, .heq .., _, h
  | _ + 1, .pair .., _, h | _ + 1, .proj .., _, h | _ + 1, .metavar .., _, h => by
    simp [leadingLambdas] at h

end Strip

/-- **The chain of `m` one-argument steps is one instantiation of `m` arguments.** -/
theorem betaChain_eq : ∀ (m : Nat) (t : Expr) (args : List Expr), m ≤ leadingLambdas t →
    m ≤ args.length → (∀ a ∈ args, hasMetavar a = false) →
    betaChain m t args = instantiate (stripLambdas m t) 0 (args.take m)
  | 0, t, args, _, _, _ => by
    rw [List.take_zero, instantiate, instantiateCore, replace_instantiateFn_nil]
    rfl
  | m + 1, .abst .lambda x d b, a :: as, ht, hargs, hmv => by
    have hlt : m ≤ leadingLambdas b := Nat.le_of_succ_le_succ ht
    have ih := betaChain_eq m (instantiate b 0 [a]) as
      (le_leadingLambdas_replace (instantiateFn_leaf _ _ _) m b 0 hlt) (Nat.le_of_succ_le_succ hargs)
      (fun c hc => hmv c (List.mem_cons_of_mem _ hc))
    have hlen : (as.take m).length = m := List.length_take_of_le (Nat.le_of_succ_le_succ hargs)
    have split := replace_instantiateFn_cons (hmv a (List.mem_cons_self _ _)) (as.take m) 0
      (stripLambdas m b)
    rw [hlen, Nat.add_zero] at split
    rw [betaChain, ih, stripLambdas, List.take_succ_cons, instantiate, instantiateCore,
      instantiate, instantiateCore, stripLambdas_replace (instantiateFn_leaf _ _ _) m b 0 hlt,
      Nat.zero_add, instantiate, instantiateCore, split]
  | _ + 1, .abst .lambda .., [], _, h, _ => absurd h (by simp)
  | _ + 1, .var _, _, h, _, _ | _ + 1, .constant .., _, h, _, _ | _ + 1, .type _, _, h, _, _
  | _ + 1, .value _, _, h, _, _ | _ + 1, .app .., _, h, _, _ | _ + 1, .abst .pi .., _, h, _, _
  | _ + 1, .abst .sigma .., _, h, _, _ | _ + 1, .let .., _, h, _, _ | _ + 1, .heq .., _, h, _, _
  | _ + 1, .pair .., _, h, _, _ | _ + 1, .proj .., _, h, _, _ | _ + 1, .metavar .., _, h, _, _ => by
    simp [leadingLambdas] at h

/-! ## `apply_beta` -/

/-- **`apply_beta` is the chain of one-argument beta steps** when no argument has a
metavariable: the same number `m` of lambdas is entered, and the one instantiation with `m`
arguments is the `m` single instantiations in sequence. -/
theorem applyBeta_eq_betaChainApply (f a : Expr) (as : List Expr)
    (hargs : ∀ b ∈ a :: as, hasMetavar b = false) : applyBeta f a as = betaChainApply f a as := by
  cases f with
  | abst k x d b =>
    cases k with
    | lambda =>
      have hL : 0 < leadingLambdas (.abst .lambda x d b) := Nat.succ_pos _
      have hm : min (leadingLambdas (.abst .lambda x d b)) (as.length + 1 + 1 - 1) =
          min (as.length + 1) (leadingLambdas (.abst .lambda x d b)) := by omega
      have chain := betaChain_eq (min (as.length + 1) (leadingLambdas (.abst .lambda x d b)))
        (.abst .lambda x d b) (a :: as) (Nat.min_le_right _ _) (Nat.min_le_left _ _) hargs
      simp only [applyBeta, betaChainApply,
        applyBetaLoop_eq (as.length + 1) _ 1 hL (Nat.le_add_left 1 _), hm, Nat.add_sub_cancel_left]
      generalize (a :: as).drop _ = rest
      cases rest with
      | nil => exact chain.symm
      | cons a' as' => exact congrArg (fun t => mkApp t a' as') chain.symm
    | pi | sigma => rfl
  | _ => rfl

/-! ## After instantiating metavariables -/

section Semantic

variable (σ : Name → Option Expr)

/-- Instantiating metavariables keeps the leading lambdas. -/
theorem le_leadingLambdas_instantiateMetavars {k : Nat} {t : Expr} (h : k ≤ leadingLambdas t) :
    k ≤ leadingLambdas (instantiateMetavars σ t) := by
  rw [instantiateMetavars_eq_replace σ 0]
  exact le_leadingLambdas_replace (mvFn_leaf σ) k t 0 h

theorem stripLambdas_instantiateMetavars {k : Nat} {t : Expr} (h : k ≤ leadingLambdas t) :
    stripLambdas k (instantiateMetavars σ t) = instantiateMetavars σ (stripLambdas k t) := by
  rw [instantiateMetavars_eq_replace σ 0, stripLambdas_replace (mvFn_leaf σ) k t 0 h,
    ← instantiateMetavars_eq_replace]

/-- The chain after instantiating metavariables is the chain on the instantiated terms. -/
theorem instantiateMetavars_betaChain : ∀ (m : Nat) (t : Expr) (args : List Expr),
    m ≤ leadingLambdas t → (∀ b ∈ args, hasMetavar (instantiateMetavars σ b) = false) →
    instantiateMetavars σ (betaChain m t args) =
      betaChain m (instantiateMetavars σ t) (args.map (instantiateMetavars σ))
  | 0, _, _, _, _ => rfl
  | m + 1, .abst .lambda x d b, a :: as, ht, h => by
    have ha := h a (List.mem_cons_self _ _)
    rw [betaChain, instantiateMetavars_betaChain m (instantiate b 0 [a]) as
      (le_leadingLambdas_replace (instantiateFn_leaf _ _ _) m b 0 (Nat.le_of_succ_le_succ ht))
      fun c hc => h c (List.mem_cons_of_mem _ hc)]
    show _ = betaChain m (instantiate (instantiateMetavars σ b) 0 [instantiateMetavars σ a]) _
    rw [instantiate, instantiateCore, instantiateMetavars_instantiate σ b [a]
      (fun c hc => by rw [List.mem_singleton.mp hc]; exact ha)]
    rfl
  | _ + 1, .abst .lambda .., [], _, _ => rfl
  | _ + 1, .var _, _, h, _ | _ + 1, .constant .., _, h, _ | _ + 1, .type _, _, h, _
  | _ + 1, .value _, _, h, _ | _ + 1, .app .., _, h, _ | _ + 1, .abst .pi .., _, h, _
  | _ + 1, .abst .sigma .., _, h, _ | _ + 1, .let .., _, h, _ | _ + 1, .heq .., _, h, _
  | _ + 1, .pair .., _, h, _ | _ + 1, .proj .., _, h, _ | _ + 1, .metavar .., _, h, _ => by
    simp [leadingLambdas] at h

/-- **`apply_beta` is the chain after instantiating metavariables**, under an assignment that
makes every argument metavariable-free. The lifts and instantiations that the chain records on
metavariables of the arguments and the body then run on their values. -/
theorem instantiateMetavars_applyBeta (f a : Expr) (as : List Expr)
    (h : ∀ b ∈ a :: as, hasMetavar (instantiateMetavars σ b) = false) :
    instantiateMetavars σ (applyBeta f a as) = instantiateMetavars σ (betaChainApply f a as) := by
  cases f with
  | abst k x d b =>
    cases k with
    | lambda =>
      have hL : 0 < leadingLambdas (.abst .lambda x d b) := Nat.succ_pos _
      have hm : min (leadingLambdas (.abst .lambda x d b)) (as.length + 1 + 1 - 1) =
          min (as.length + 1) (leadingLambdas (.abst .lambda x d b)) := by omega
      simp only [applyBeta, betaChainApply,
        applyBetaLoop_eq (as.length + 1) _ 1 hL (Nat.le_add_left 1 _), hm, Nat.add_sub_cancel_left]
      generalize hM : min (as.length + 1) (leadingLambdas (.abst .lambda x d b)) = M
      have hMf : M ≤ leadingLambdas (.abst .lambda x d b) := hM ▸ Nat.min_le_right _ _
      have hMa : M ≤ (a :: as).length := hM ▸ Nat.min_le_left _ _
      have hmap : ∀ c ∈ (a :: as).map (instantiateMetavars σ), hasMetavar c = false := by
        intro c hc
        obtain ⟨c', hc', rfl⟩ := List.mem_map.mp hc
        exact h c' hc'
      have key : instantiateMetavars σ
          (instantiate (stripLambdas M (.abst .lambda x d b)) 0 ((a :: as).take M)) =
          instantiateMetavars σ (betaChain M (.abst .lambda x d b) (a :: as)) := by
        rw [instantiateMetavars_betaChain σ M _ _ hMf h,
          betaChain_eq M _ _ (le_leadingLambdas_instantiateMetavars σ hMf)
            (by rw [List.length_map]; exact hMa) hmap,
          stripLambdas_instantiateMetavars σ hMf, instantiate, instantiateCore,
          instantiateMetavars_instantiate σ _ _ (fun c hc => h c (List.mem_of_mem_take hc)),
          List.map_take]
        rfl
      generalize (a :: as).drop M = rest
      cases rest with
      | nil => exact key
      | cons a' as' =>
        show Expr.app _ _ _ = Expr.app _ _ _
        rw [key]
    | pi | sigma => rfl
  | _ => rfl

end Semantic

/-- **`apply_beta` against the chain of one-argument steps.** The two are the same term when no
argument has a metavariable, and the same after instantiating metavariables under any assignment
that makes every argument metavariable-free. -/
theorem applyBeta_eq_chain (f a : Expr) (as : List Expr) :
    ((∀ b ∈ a :: as, hasMetavar b = false) → applyBeta f a as = betaChainApply f a as) ∧
      ∀ σ : Name → Option Expr, (∀ b ∈ a :: as, hasMetavar (instantiateMetavars σ b) = false) →
        instantiateMetavars σ (applyBeta f a as) = instantiateMetavars σ (betaChainApply f a as) :=
  ⟨applyBeta_eq_betaChainApply f a as, fun σ => instantiateMetavars_applyBeta σ f a as⟩

theorem applyBeta_eq_chain_pair :
    (∀ b ∈ [Expr.constant "a" none, .var 0], hasMetavar b = false) ∧
      applyBeta (.abst .lambda "x" (.type .zero) (.app (.var 0) (.var 1) []))
          (.constant "a" none) [.var 0] =
        betaChainApply (.abst .lambda "x" (.type .zero) (.app (.var 0) (.var 1) []))
          (.constant "a" none) [.var 0] :=
  ⟨by decide, (applyBeta_eq_chain _ _ _).1 (by decide)⟩

/-- `(fun x y : Type, x) ?p c`: `apply_beta` substitutes `?p` for `x` directly, the chain first
lifts it over `y`, recording `lift:0:1` on it, and then records `inst:0:c`. The assignment that
assigns nothing leaves the two apart. -/
theorem applyBeta_metavarArg :
    applyBeta (.abst .lambda "x" (.type .zero) (.abst .lambda "y" (.type .zero) (.var 1)))
        (.metavar "p" []) [.constant "c" none] = .metavar "p" [] ∧
      betaChainApply (.abst .lambda "x" (.type .zero) (.abst .lambda "y" (.type .zero) (.var 1)))
        (.metavar "p" []) [.constant "c" none] =
        .metavar "p" [.inst 0 (.constant "c" none), .lift 0 1] ∧
      instantiateMetavars (fun _ => none)
          (applyBeta (.abst .lambda "x" (.type .zero) (.abst .lambda "y" (.type .zero) (.var 1)))
            (.metavar "p" []) [.constant "c" none]) ≠
        instantiateMetavars (fun _ => none)
          (betaChainApply (.abst .lambda "x" (.type .zero) (.abst .lambda "y" (.type .zero) (.var 1)))
            (.metavar "p" []) [.constant "c" none]) := by
  decide

end LeanKernel
