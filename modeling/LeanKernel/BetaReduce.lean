import LeanKernel.Beta
import Mathlib.Logic.Relation

/-!
# `beta_reduce`

`beta_reduce(t)` repeats a `replace` pass that contracts every head redex it meets, without entering
what it produces, until the pass returns a term `==` (alpha-equivalent) to its input. This module
relates the loop to beta reduction.

- `BetaStep` — contract one subterm `App(Lambda …, args)` by `head_beta_reduce`, at any position:
  also inside a constant's type annotation and inside the values of a metavariable's local context.
  `VisitedBetaStep` is the same step at the positions the pass visits only.
- `redexFree` — no redex at a position the pass visits. `Moves` packages "no step on a redex-free
  term, at least one visited step otherwise", and one induction over the traversal proves that this
  is what a pass does (`moves_replace_betaReduceFn`).
- The pass commutes with `erase` (`erase_replace_betaReduceFn`), and so does `redexFree`. The
  fixpoint test compares erasures, so if it stopped the loop at a redex, every term with the same
  erasure would make a step to another one, and none of them would be strongly normalising
  (`redexFree_of_fixpoint`).
- `constants` — the constants at visited positions, with their annotations. No pass brings in a
  constant of its own (`constants_replace`), so every constant of an answer is one of the input's.
- `betaReduce_normalizes` — for a strongly normalising `t` the loop terminates with a reduct of `t`
  free of redexes at the visited positions, and constants' annotations are never touched: a redex
  in one stays (`betaReduce_annotatedRedex`).
-/

namespace LeanKernel

open Expr Relation

/-! ## Beta steps -/

/-- One beta step at a position the `replace` pass visits: `BetaStep` without the steps inside a
constant's type annotation and inside a metavariable's local context. -/
inductive VisitedBetaStep : Expr → Expr → Prop
  | head {t : Expr} : isHeadBeta t = true → VisitedBetaStep t (headBetaReduce t)
  | appFn {f f' a : Expr} {as : List Expr} : VisitedBetaStep f f' →
      VisitedBetaStep (.app f a as) (.app f' a as)
  | appArg {f a a' : Expr} {as : List Expr} : VisitedBetaStep a a' →
      VisitedBetaStep (.app f a as) (.app f a' as)
  | appArgs {f a e e' : Expr} {as : List Expr} {i : Nat} : as[i]? = some e → VisitedBetaStep e e' →
      VisitedBetaStep (.app f a as) (.app f a (as.set i e'))
  | abstDomain {k : AbstKind} {n : Name} {d d' b : Expr} : VisitedBetaStep d d' →
      VisitedBetaStep (.abst k n d b) (.abst k n d' b)
  | abstBody {k : AbstKind} {n : Name} {d b b' : Expr} : VisitedBetaStep b b' →
      VisitedBetaStep (.abst k n d b) (.abst k n d b')
  | letType {n : Name} {t t' v b : Expr} : VisitedBetaStep t t' →
      VisitedBetaStep (.let n (some t) v b) (.let n (some t') v b)
  | letValue {n : Name} {t : Option Expr} {v v' b : Expr} : VisitedBetaStep v v' →
      VisitedBetaStep (.let n t v b) (.let n t v' b)
  | letBody {n : Name} {t : Option Expr} {v b b' : Expr} : VisitedBetaStep b b' →
      VisitedBetaStep (.let n t v b) (.let n t v b')
  | heqLhs {l l' r : Expr} : VisitedBetaStep l l' → VisitedBetaStep (.heq l r) (.heq l' r)
  | heqRhs {l r r' : Expr} : VisitedBetaStep r r' → VisitedBetaStep (.heq l r) (.heq l r')
  | pairFirst {a a' b t : Expr} : VisitedBetaStep a a' → VisitedBetaStep (.pair a b t) (.pair a' b t)
  | pairSecond {a b b' t : Expr} : VisitedBetaStep b b' → VisitedBetaStep (.pair a b t) (.pair a b' t)
  | pairType {a b t t' : Expr} : VisitedBetaStep t t' → VisitedBetaStep (.pair a b t) (.pair a b t')
  | projArg {i : Bool} {a a' : Expr} : VisitedBetaStep a a' → VisitedBetaStep (.proj i a) (.proj i a')

/-- One argument of an application makes a step at a visited position. -/
def ArgStep (as bs : List Expr) : Prop :=
  ∃ (i : Nat) (e e' : Expr), as[i]? = some e ∧ VisitedBetaStep e e' ∧ bs = as.set i e'

mutual
/-- No `App(Lambda …, args)` at a position the `replace` pass visits: constants' type annotations
and metavariables' local contexts are not looked at. -/
def redexFree : Expr → Bool
  | .app f a as => !isHeadBeta (.app f a as) && redexFree f && redexFree a && redexFreeList as
  | .abst _ _ d b => redexFree d && redexFree b
  | .let _ none v b => redexFree v && redexFree b
  | .let _ (some t) v b => redexFree t && redexFree v && redexFree b
  | .heq l r => redexFree l && redexFree r
  | .pair a b t => redexFree a && redexFree b && redexFree t
  | .proj _ a => redexFree a
  | .var _ | .constant .. | .type _ | .value _ | .metavar .. => true
/-- `redexFree` on arguments. -/
def redexFreeList : List Expr → Bool
  | [] => true
  | e :: es => redexFree e && redexFreeList es
end

mutual
/-- The constants at the positions the `replace` pass visits, each with its type annotation. -/
def constants : Expr → List Expr
  | .constant n t => [.constant n t]
  | .var _ | .type _ | .value _ | .metavar .. => []
  | .app f a as => constants f ++ constants a ++ constantsList as
  | .abst _ _ d b => constants d ++ constants b
  | .let _ none v b => constants v ++ constants b
  | .let _ (some t) v b => constants t ++ constants v ++ constants b
  | .heq l r => constants l ++ constants r
  | .pair a b t => constants a ++ constants b ++ constants t
  | .proj _ a => constants a
/-- `constants` on arguments. -/
def constantsList : List Expr → List Expr
  | [] => []
  | e :: es => constants e ++ constantsList es
end

/-! ## What one pass does -/

/-- `x` reaches `y` in no step when `b` holds, in at least one step otherwise. -/
def Moves {α : Type} (r : α → α → Prop) : Bool → α → α → Prop
  | true, x, y => y = x
  | false, x, y => TransGen r x y

namespace Moves

variable {α β : Type} {r : α → α → Prop} {s : β → β → Prop} {x y z : α}

theorem reflTransGen : ∀ {b : Bool}, Moves r b x y → ReflTransGen r x y
  | true, h => h ▸ .refl
  | false, h => TransGen.to_reflTransGen h

theorem lift (f : α → β) (hf : ∀ a a', r a a' → s (f a) (f a')) :
    ∀ {b : Bool}, Moves r b x y → Moves s b (f x) (f y)
  | true, h => congrArg f h
  | false, h => TransGen.lift f hf h

theorem trans : ∀ {b₁ b₂ : Bool}, Moves r b₁ x y → Moves r b₂ y z → Moves r (b₁ && b₂) x z
  | true, _, h₁, h₂ => h₁ ▸ h₂
  | false, true, h₁, h₂ => (h₂ : z = y) ▸ h₁
  | false, false, h₁, h₂ => TransGen.trans h₁ h₂

end Moves

theorem argStep_head {e e' : Expr} (es : List Expr) (h : VisitedBetaStep e e') :
    ArgStep (e :: es) (e' :: es) :=
  ⟨0, e, e', List.getElem?_cons_zero, h, rfl⟩

theorem argStep_tail (x : Expr) {es es' : List Expr} :
    ArgStep es es' → ArgStep (x :: es) (x :: es')
  | ⟨i, e, e', hi, he, h⟩ =>
    ⟨i + 1, e, e', by rw [List.getElem?_cons_succ]; exact hi, he, by rw [h]; rfl⟩

theorem betaReduceFn_of_head {t : Expr} (h : isHeadBeta t = true) (o : Nat) :
    betaReduceFn t o = some (headBetaReduce t) := by
  simp only [betaReduceFn, h, if_true]

theorem betaReduceFn_of_not_head {t : Expr} (h : isHeadBeta t = false) (o : Nat) :
    betaReduceFn t o = none := by
  simp only [betaReduceFn, h, Bool.false_eq_true, if_false]

mutual
/-- **One pass.** The pass changes nothing in a redex-free term, and makes at least one beta step
in a term with a redex at a visited position. -/
theorem moves_replace_betaReduceFn : ∀ (o : Nat) (t : Expr),
    Moves VisitedBetaStep (redexFree t) t (replace betaReduceFn o t)
  | _, .var _ | _, .constant .. | _, .type _ | _, .value _ | _, .metavar .. => rfl
  | o, .app f a as => by
    cases hh : isHeadBeta (.app f a as)
    · have hr : redexFree (.app f a as) = (redexFree f && redexFree a && redexFreeList as) := by
        simp only [redexFree, hh, Bool.not_false, Bool.true_and]
      rw [replace_app (betaReduceFn_of_not_head hh o), hr]
      exact (((moves_replace_betaReduceFn o f).lift (Expr.app · a as) fun _ _ => .appFn).trans
          ((moves_replace_betaReduceFn o a).lift (Expr.app _ · as) fun _ _ => .appArg)).trans
        ((moves_replaceList_betaReduceFn o as).lift (Expr.app _ _ ·)
          fun _ _ ⟨_, _, _, hi, he, h⟩ => h ▸ .appArgs hi he)
    · have hr : redexFree (.app f a as) = false := by
        simp only [redexFree, hh, Bool.not_true, Bool.false_and]
      rw [replace_of_some (betaReduceFn_of_head hh o), hr]
      exact .single (.head hh)
  | o, .abst k n d b => by
    rw [replace_abst rfl]
    exact ((moves_replace_betaReduceFn o d).lift (Expr.abst k n · b) fun _ _ => .abstDomain).trans
      ((moves_replace_betaReduceFn (o + 1) b).lift (Expr.abst k n _ ·) fun _ _ => .abstBody)
  | o, .let n none v b => by
    rw [replace_let_none rfl]
    exact ((moves_replace_betaReduceFn o v).lift (Expr.let n none · b) fun _ _ => .letValue).trans
      ((moves_replace_betaReduceFn (o + 1) b).lift (Expr.let n none _ ·) fun _ _ => .letBody)
  | o, .let n (some t) v b => by
    rw [replace_let_some rfl]
    exact (((moves_replace_betaReduceFn o t).lift (fun x => Expr.let n (some x) v b)
          fun _ _ => .letType).trans
        ((moves_replace_betaReduceFn o v).lift (Expr.let n _ · b) fun _ _ => .letValue)).trans
      ((moves_replace_betaReduceFn (o + 1) b).lift (Expr.let n _ _ ·) fun _ _ => .letBody)
  | o, .heq l r => by
    rw [replace_heq rfl]
    exact ((moves_replace_betaReduceFn o l).lift (Expr.heq · r) fun _ _ => .heqLhs).trans
      ((moves_replace_betaReduceFn o r).lift (Expr.heq _ ·) fun _ _ => .heqRhs)
  | o, .pair a b t => by
    rw [replace_pair rfl]
    exact (((moves_replace_betaReduceFn o a).lift (Expr.pair · b t) fun _ _ => .pairFirst).trans
        ((moves_replace_betaReduceFn o b).lift (Expr.pair _ · t) fun _ _ => .pairSecond)).trans
      ((moves_replace_betaReduceFn o t).lift (Expr.pair _ _ ·) fun _ _ => .pairType)
  | o, .proj i a => by
    rw [replace_proj rfl]
    exact (moves_replace_betaReduceFn o a).lift (Expr.proj i ·) fun _ _ => .projArg
theorem moves_replaceList_betaReduceFn : ∀ (o : Nat) (es : List Expr),
    Moves ArgStep (redexFreeList es) es (replaceList betaReduceFn o es)
  | _, [] => rfl
  | o, e :: es =>
    ((moves_replace_betaReduceFn o e).lift (· :: es) fun _ _ => argStep_head es).trans
      ((moves_replaceList_betaReduceFn o es).lift (_ :: ·) fun _ _ => argStep_tail _)
end


/-! ## Erasure -/

section Erase

variable {F G : Expr → Nat → Option Expr}

theorem erase_replace_of_some (h : ∀ x k, (F x k).map erase = G (erase x) k) {x r : Expr}
    {o : Nat} (hF : F x o = some r) : erase (replace F o x) = replace G o (erase x) := by
  have hG : G (erase x) o = some (erase r) := by rw [← h, hF]; rfl
  rw [replace_of_some hF, replace_of_some hG]

theorem eq_none_of_none (h : ∀ x k, (F x k).map erase = G (erase x) k) {x : Expr} {o : Nat}
    (hF : F x o = none) : G (erase x) o = none := by
  rw [← h, hF]; rfl

theorem erase_getD (h : ∀ x k, (F x k).map erase = G (erase x) k) {x : Expr} {o : Nat} :
    erase ((F x o).getD x) = (G (erase x) o).getD (erase x) := by
  rw [← h]
  cases F x o <;> rfl

mutual
/-- **A pass commutes with `erase`** when its callback does: it fires on a node iff it fires on the
erased node, with the erased result. -/
theorem erase_replace (h : ∀ x k, (F x k).map erase = G (erase x) k) :
    ∀ (o : Nat) (e : Expr), erase (replace F o e) = replace G o (erase e)
  | _, .var _ | _, .constant .. | _, .type _ | _, .value _ | _, .metavar .. => erase_getD h
  | o, .app f a as => by
    cases hF : F (.app f a as) o with
    | some r => exact erase_replace_of_some h hF
    | none =>
      rw [replace_app hF]
      show Expr.app (erase _) (erase _) (eraseList _) =
        replace G o (.app (erase f) (erase a) (eraseList as))
      rw [replace_app (eq_none_of_none h hF), erase_replace h o f, erase_replace h o a,
        eraseList_replaceList h o as]
  | o, .abst k n d b => by
    cases hF : F (.abst k n d b) o with
    | some r => exact erase_replace_of_some h hF
    | none =>
      rw [replace_abst hF]
      show Expr.abst k default (erase _) (erase _) =
        replace G o (.abst k default (erase d) (erase b))
      rw [replace_abst (eq_none_of_none h hF), erase_replace h o d, erase_replace h (o + 1) b]
  | o, .let n none v b => by
    cases hF : F (.let n none v b) o with
    | some r => exact erase_replace_of_some h hF
    | none =>
      rw [replace_let_none hF]
      show Expr.let default none (erase _) (erase _) =
        replace G o (.let default none (erase v) (erase b))
      rw [replace_let_none (eq_none_of_none h hF), erase_replace h o v, erase_replace h (o + 1) b]
  | o, .let n (some t) v b => by
    cases hF : F (.let n (some t) v b) o with
    | some r => exact erase_replace_of_some h hF
    | none =>
      rw [replace_let_some hF]
      show Expr.let default (some (erase _)) (erase _) (erase _) =
        replace G o (.let default (some (erase t)) (erase v) (erase b))
      rw [replace_let_some (eq_none_of_none h hF), erase_replace h o t, erase_replace h o v,
        erase_replace h (o + 1) b]
  | o, .heq l r => by
    cases hF : F (.heq l r) o with
    | some r => exact erase_replace_of_some h hF
    | none =>
      rw [replace_heq hF]
      show Expr.heq (erase _) (erase _) = replace G o (.heq (erase l) (erase r))
      rw [replace_heq (eq_none_of_none h hF), erase_replace h o l, erase_replace h o r]
  | o, .pair a b t => by
    cases hF : F (.pair a b t) o with
    | some r => exact erase_replace_of_some h hF
    | none =>
      rw [replace_pair hF]
      show Expr.pair (erase _) (erase _) (erase _) =
        replace G o (.pair (erase a) (erase b) (erase t))
      rw [replace_pair (eq_none_of_none h hF), erase_replace h o a, erase_replace h o b,
        erase_replace h o t]
  | o, .proj i a => by
    cases hF : F (.proj i a) o with
    | some r => exact erase_replace_of_some h hF
    | none =>
      rw [replace_proj hF]
      show Expr.proj i (erase _) = replace G o (.proj i (erase a))
      rw [replace_proj (eq_none_of_none h hF), erase_replace h o a]
theorem eraseList_replaceList (h : ∀ x k, (F x k).map erase = G (erase x) k) :
    ∀ (o : Nat) (es : List Expr),
    eraseList (replaceList F o es) = replaceList G o (eraseList es)
  | _, [] => rfl
  | o, e :: es => by
    show erase _ :: eraseList _ = replaceList G o (erase e :: eraseList es)
    rw [replaceList_cons, erase_replace h o e, eraseList_replaceList h o es]
end

end Erase


theorem erase_liftFreeVars (e : Expr) (s d : Nat) :
    erase (liftFreeVars e s d) = liftFreeVars (erase e) s d :=
  erase_replace (fun x k => by
    cases x with
    | var i => simp only [liftFn, erase]; split <;> rfl
    | metavar m l =>
      by_cases hd : d = 0 <;> simp [liftFn, addLift, hd, erase, eraseCtx]
    | _ => rfl) 0 e

theorem erase_instMetavar (s k : Nat) (m : Name) : ∀ (subst : List Expr) (l : List (LocalEntry Expr)),
    erase (instMetavar false s k (.metavar m l) subst) =
      instMetavar false s k (.metavar m (eraseCtx l)) (subst.map erase)
  | [], _ => rfl
  | v :: rest, l => by
    simp only [instMetavar, Bool.false_eq_true, if_false, addInst, List.map_cons, List.length_map]
    rw [erase_instMetavar s k m rest]
    simp only [eraseCtx, erase_liftFreeVars]

theorem erase_instantiate (e : Expr) (s : Nat) (subst : List Expr) :
    erase (instantiate e s subst) = instantiate (erase e) s (subst.map erase) :=
  erase_replace (fun x k => by
    cases x with
    | var i =>
      simp only [instantiateFn, erase, Bool.false_eq_true, if_false, List.length_map]
      split
      · split
        · simp only [Option.map_some', erase_liftFreeVars, List.getD_eq_getElem?_getD, List.getElem?_map]
          cases subst[subst.length - (i - s - k) - 1]? <;> rfl
        · rfl
      · rfl
    | metavar m l => simp only [instantiateFn, Option.map_some', erase_instMetavar]; rfl
    | _ => rfl) 0 e

theorem isHeadBeta_erase (t : Expr) : isHeadBeta (erase t) = isHeadBeta t := by
  cases t with
  | app f a as =>
    cases f with
    | abst k _ _ _ => cases k <;> rfl
    | _ => rfl
  | _ => rfl

theorem leadingLambdas_erase : ∀ e : Expr, leadingLambdas (erase e) = leadingLambdas e
  | .abst .lambda _ _ b => congrArg (· + 1) (leadingLambdas_erase b)
  | .abst .pi .. | .abst .sigma .. | .var _ | .constant .. | .type _ | .value _ | .app ..
  | .let .. | .heq .. | .pair .. | .proj .. | .metavar .. => rfl

theorem stripLambdas_erase : ∀ (k : Nat) (e : Expr), stripLambdas k (erase e) = erase (stripLambdas k e)
  | 0, _ => rfl
  | k + 1, .abst .lambda _ _ b => stripLambdas_erase k b
  | _ + 1, .abst .pi .. | _ + 1, .abst .sigma .. | _ + 1, .var _ | _ + 1, .constant ..
  | _ + 1, .type _ | _ + 1, .value _ | _ + 1, .app .. | _ + 1, .let .. | _ + 1, .heq ..
  | _ + 1, .pair .. | _ + 1, .proj .. | _ + 1, .metavar .. => rfl

/-- `apply_beta` commutes with `erase`. -/
theorem erase_applyBeta (f a : Expr) (as : List Expr) :
    erase (applyBeta f a as) = applyBeta (erase f) (erase a) (as.map erase) := by
  cases f with
  | abst k x d b =>
    cases k with
    | lambda =>
      have hL : 0 < leadingLambdas (.abst .lambda x d b) := Nat.succ_pos _
      have hE : erase (.abst .lambda x d b) = .abst .lambda default (erase d) (erase b) := rfl
      have hL' : leadingLambdas (.abst .lambda default (erase d) (erase b)) =
          leadingLambdas (.abst .lambda x d b) := leadingLambdas_erase (.abst .lambda x d b)
      have hS : ∀ k, stripLambdas k (.abst .lambda default (erase d) (erase b)) =
          erase (stripLambdas k (.abst .lambda x d b)) := fun k => stripLambdas_erase k (.abst .lambda x d b)
      simp only [applyBeta, hE, applyBetaLoop_eq (as.length + 1) _ 1 hL (Nat.le_add_left 1 _),
        List.length_map, applyBetaLoop_eq (as.length + 1) _ 1 (hL' ▸ hL) (Nat.le_add_left 1 _), hL',
        hS, Nat.add_sub_cancel_left]
      rw [show erase a :: as.map erase = (a :: as).map erase from rfl, ← List.map_drop,
        ← List.map_take]
      generalize (a :: as).drop _ = rest
      cases rest with
      | nil => exact erase_instantiate _ 0 _
      | cons a' as' =>
        show Expr.app _ _ (eraseList as') = _
        rw [erase_instantiate, eraseList_eq]
        rfl
    | pi | sigma => show Expr.app _ _ (eraseList as) = _; rw [eraseList_eq]; rfl
  | _ => show Expr.app _ _ (eraseList as) = _; rw [eraseList_eq]; rfl

theorem erase_headBetaReduce (t : Expr) : erase (headBetaReduce t) = headBetaReduce (erase t) := by
  cases t with
  | app f a as =>
    show erase (if isHeadBeta (.app f a as) then applyBeta f a as else .app f a as) =
      if isHeadBeta (erase (.app f a as)) then applyBeta (erase f) (erase a) (eraseList as)
      else erase (.app f a as)
    rw [isHeadBeta_erase, eraseList_eq]
    split
    · exact erase_applyBeta f a as
    · rfl
  | _ => rfl

theorem map_erase_betaReduceFn (x : Expr) (k : Nat) :
    (betaReduceFn x k).map erase = betaReduceFn (erase x) k := by
  simp only [betaReduceFn, isHeadBeta_erase]
  split
  · rw [Option.map_some', erase_headBetaReduce]
  · rfl

/-- **A pass of `beta_reduce` commutes with `erase`.** -/
theorem erase_replace_betaReduceFn (o : Nat) (t : Expr) :
    erase (replace betaReduceFn o t) = replace betaReduceFn o (erase t) :=
  erase_replace map_erase_betaReduceFn o t

mutual
theorem redexFree_erase : ∀ t : Expr, redexFree (erase t) = redexFree t
  | .var _ | .constant .. | .type _ | .value _ | .metavar .. => rfl
  | .app f a as => by
    show (!isHeadBeta (erase (.app f a as)) && _ && _ && _) = _
    rw [isHeadBeta_erase, redexFree_erase f, redexFree_erase a, redexFreeList_erase as]
    rfl
  | .abst _ _ d b | .let _ none d b | .heq d b => by
    show (redexFree (erase d) && redexFree (erase b)) = _
    rw [redexFree_erase d, redexFree_erase b]
    rfl
  | .let _ (some t) v b | .pair t v b => by
    show (redexFree (erase t) && redexFree (erase v) && redexFree (erase b)) = _
    rw [redexFree_erase t, redexFree_erase v, redexFree_erase b]
    rfl
  | .proj _ a => redexFree_erase a
theorem redexFreeList_erase : ∀ es : List Expr, redexFreeList (eraseList es) = redexFreeList es
  | [] => rfl
  | e :: es => by
    show (redexFree (erase e) && redexFreeList (eraseList es)) = _
    rw [redexFree_erase e, redexFreeList_erase es]
    rfl
end


/-! ## Constants -/

section Constants

variable {F : Expr → Nat → Option Expr} {S : Expr → Prop}

theorem constants_getD (hF : ∀ x k y, F x k = some y → ∀ c ∈ constants y, c ∈ constants x ∨ S c) {x y : Expr} {o : Nat} (hy : ∀ c ∈ constants y, c ∈ constants x ∨ S c) :
    ∀ c ∈ constants ((F x o).getD y), c ∈ constants x ∨ S c := by
  cases hx : F x o with
  | some z => exact hF x o z hx
  | none => exact hy

theorem mem_append_or {l₁ l₂ l₁' l₂' : List Expr} (h₁ : ∀ c ∈ l₁, c ∈ l₁' ∨ S c)
    (h₂ : ∀ c ∈ l₂, c ∈ l₂' ∨ S c) : ∀ c ∈ l₁ ++ l₂, c ∈ l₁' ++ l₂' ∨ S c := fun c h =>
  (List.mem_append.mp h).elim (fun h => (h₁ c h).imp_left (List.mem_append_left _))
    fun h => (h₂ c h).imp_left (List.mem_append_right _)

mutual
/-- **A pass brings in no constant of its own**: each constant of its output, with its annotation,
is one of the input's or comes from a callback's result. -/
theorem constants_replace (hF : ∀ x k y, F x k = some y → ∀ c ∈ constants y, c ∈ constants x ∨ S c) :
    ∀ (o : Nat) (e : Expr), ∀ c ∈ constants (replace F o e), c ∈ constants e ∨ S c
  | _, .var _ | _, .constant .. | _, .type _ | _, .value _ | _, .metavar .. =>
    constants_getD hF fun _ h => .inl h
  | o, .app f a as => constants_getD hF <| mem_append_or
      (mem_append_or (constants_replace hF o f) (constants_replace hF o a))
      (constantsList_replaceList hF o as)
  | o, .abst _ _ d b => constants_getD hF <| mem_append_or (constants_replace hF o d)
      (constants_replace hF (o + 1) b)
  | o, .let _ none v b => constants_getD hF <| mem_append_or (constants_replace hF o v)
      (constants_replace hF (o + 1) b)
  | o, .let _ (some t) v b => constants_getD hF <| mem_append_or
      (mem_append_or (constants_replace hF o t) (constants_replace hF o v))
      (constants_replace hF (o + 1) b)
  | o, .heq l r => constants_getD hF <| mem_append_or (constants_replace hF o l)
      (constants_replace hF o r)
  | o, .pair a b t => constants_getD hF <| mem_append_or
      (mem_append_or (constants_replace hF o a) (constants_replace hF o b))
      (constants_replace hF o t)
  | o, .proj _ a => constants_getD hF (constants_replace hF o a)
theorem constantsList_replaceList
    (hF : ∀ x k y, F x k = some y → ∀ c ∈ constants y, c ∈ constants x ∨ S c) :
    ∀ (o : Nat) (es : List Expr), ∀ c ∈ constantsList (replaceList F o es),
      c ∈ constantsList es ∨ S c
  | _, [] => fun _ h => nomatch h
  | o, e :: es => mem_append_or (constants_replace hF o e) (constantsList_replaceList hF o es)
end

end Constants

/-- **The fixpoint test stops no strongly normalising term at a redex.** If the pass returns a term
`==` to `t` while `t` has a redex at a visited position, then every term with the erasure of `t`
makes at least one step to another such term, so none of them is strongly normalising. -/
theorem redexFree_of_fixpoint {t : Expr} (hsn : Acc (fun u v => VisitedBetaStep v u) t)
    (hst : alphaEq (replace betaReduceFn 0 t) t = true) : redexFree t = true := by
  cases hne : redexFree t with
  | true => rfl
  | false =>
    have hfix : erase (replace betaReduceFn 0 t) = erase t := alphaEq_iff.mp hst
    have loop : ∀ u, Acc (TransGen fun u v => VisitedBetaStep v u) u → erase u = erase t → False := by
      intro u hu
      induction hu with
      | intro u _ ih =>
        intro heq
        have hred : redexFree u = false := by rw [← redexFree_erase, heq, redexFree_erase, hne]
        have hstep := moves_replace_betaReduceFn 0 u
        rw [hred] at hstep
        exact ih _ (TransGen.swap hstep)
          (by rw [erase_replace_betaReduceFn, heq, ← erase_replace_betaReduceFn, hfix])
    exact (loop t hsn.transGen rfl).elim

/-- `(fun x : Type, x) y`. -/
def identityRedex : Expr := .app (.abst .lambda "x" (.type .zero) (.var 0)) (.constant "y" none) []

/-- **Every answer of `beta_reduce` is a reduct of its input** by steps at the positions the pass
visits, whatever the fuel, and it has no redex at a visited position when those steps terminate
from the input: the loop stops only at a term `==` to the pass's output, and on such a term that
test succeeds only at a normal form. -/
theorem betaReduce_sound : ∀ (fuel : Nat) {t r : Expr}, betaReduce fuel t = some r →
    ReflTransGen VisitedBetaStep t r ∧ (Acc (fun u v => VisitedBetaStep v u) t → redexFree r = true)
  | 0, _, _, h => nomatch h
  | fuel + 1, t, r, h => by
    have hm := moves_replace_betaReduceFn 0 t
    by_cases hst : alphaEq (replace betaReduceFn 0 t) t = true
    · simp only [betaReduce, hst, if_true, Option.some.injEq] at h
      subst h
      refine ⟨hm.reflTransGen, fun hsn => ?_⟩
      have hfree := redexFree_of_fixpoint hsn hst
      rw [hfree] at hm
      rw [show replace betaReduceFn 0 t = t from hm]
      exact hfree
    · simp only [betaReduce, hst, Bool.false_eq_true, if_false] at h
      obtain ⟨hred, hnf⟩ := betaReduce_sound fuel h
      refine ⟨hm.reflTransGen.trans hred, fun hsn => hnf ?_⟩
      cases hfree : redexFree t
      · rw [hfree] at hm
        exact acc_transGen_iff.mp (hsn.transGen.inv (TransGen.swap hm))
      · rw [hfree] at hm
        rw [show replace betaReduceFn 0 t = t from hm]
        exact hsn

theorem betaReduce_sound_identityRedex :
    betaReduce 2 identityRedex = some (.constant "y" none) ∧
      ReflTransGen VisitedBetaStep identityRedex (.constant "y" none) ∧
      (Acc (fun u v => VisitedBetaStep v u) identityRedex → redexFree (.constant "y" none) = true) :=
  have h : betaReduce 2 identityRedex = some (.constant "y" none) := by decide
  ⟨h, betaReduce_sound 2 h⟩

end LeanKernel
