import LeanKernel.Subst

/-!
# Instantiating metavariables

`instantiate` does not substitute inside a metavariable: it records the substitution as `inst`
entries on the metavariable's local context, to be applied when the metavariable is instantiated.
This module gives that deferred application its meaning and checks it against the eager one.

* `applyLocalContext` runs a local context on a term, from the oldest (rightmost) entry to the
  newest: `inst:k:v` is `instantiate(·, k, 1, [v])`, `lift:k:d` is `lift_free_vars(·, k, d)`.
* `instantiateMetavars σ` replaces every metavariable occurrence `?m[ctx]` that the assignment `σ`
  assigns by its context run on `σ ?m` (the values in the context instantiated first); unassigned
  metavariables keep their (instantiated) context.

The deferred entries agree with the eager substitution only for `s = 0`: for `s ≥ 1` the
metavariable branch of `instantiate_core` lifts `subst[i]` from cutoff `0` where the variable branch
keeps the variables below `s` fixed (`instantiate_metavars_instantiate_failing`).
-/

namespace LeanKernel

open Expr

/-- Running one local-context entry on a term. -/
def LocalEntry.run : LocalEntry Expr → Expr → Expr
  | .lift k d, t => liftFreeVars t k d
  | .inst k v, t => instantiate t k [v]

/-- Running a local context on a term, from the oldest (rightmost) entry to the newest. -/
def applyLocalContext : List (LocalEntry Expr) → Expr → Expr
  | [], t => t
  | e :: l, t => e.run (applyLocalContext l t)

mutual
/-- Modelled from the spec: `instantiate_metavars(e)` under the assignment `σ`: "traverse `e`,
replacing each assigned metavar occurrence by its value with the accumulated `LocalEntry` list
applied". The traversal visits what `replace` visits. -/
def instantiateMetavars (σ : Name → Option Expr) : Expr → Expr
  | .var i => .var i
  | .constant n t => .constant n t
  | .type l => .type l
  | .value v => .value v
  | .metavar m l =>
    match σ m with
    | some t => applyLocalContext (instantiateMetavarsCtx σ l) t
    | none => .metavar m (instantiateMetavarsCtx σ l)
  | .app f a as =>
    .app (instantiateMetavars σ f) (instantiateMetavars σ a) (instantiateMetavarsList σ as)
  | .abst k n d b => .abst k n (instantiateMetavars σ d) (instantiateMetavars σ b)
  | .let n none v b => .let n none (instantiateMetavars σ v) (instantiateMetavars σ b)
  | .let n (some t) v b =>
    .let n (some (instantiateMetavars σ t)) (instantiateMetavars σ v) (instantiateMetavars σ b)
  | .heq l r => .heq (instantiateMetavars σ l) (instantiateMetavars σ r)
  | .pair a b t =>
    .pair (instantiateMetavars σ a) (instantiateMetavars σ b) (instantiateMetavars σ t)
  | .proj i a => .proj i (instantiateMetavars σ a)
termination_by structural e => e
/-- `instantiateMetavars` on arguments. -/
def instantiateMetavarsList (σ : Name → Option Expr) : List Expr → List Expr
  | [] => []
  | e :: es => instantiateMetavars σ e :: instantiateMetavarsList σ es
/-- `instantiateMetavars` on the values of a local context. -/
def instantiateMetavarsCtx (σ : Name → Option Expr) :
    List (LocalEntry Expr) → List (LocalEntry Expr)
  | [] => []
  | .lift s n :: l => .lift s n :: instantiateMetavarsCtx σ l
  | .inst s v :: l => .inst s (instantiateMetavars σ v) :: instantiateMetavarsCtx σ l
end

/-- **The deferred substitution at `s = 1`.** Instantiating `Var 1, Var 2` of `?m[]` by
`[Var 0, c]` and then assigning `?m := Var 2` yields `c`; assigning first and then instantiating
yields `Var 0`, what the variable branch substitutes for `Var 2`. -/
theorem instantiate_metavars_instantiate_failing :
    instantiateMetavars (fun _ => some (.var 2))
        (instantiate (.metavar "m" []) 1 [.var 0, .constant "c" none]) = .constant "c" none ∧
      instantiate (instantiateMetavars (fun _ => some (.var 2)) (.metavar "m" [])) 1
        ([.var 0, .constant "c" none].map (instantiateMetavars fun _ => some (.var 2))) =
        .var 0 :=
  ⟨rfl, rfl⟩


/-! ## Instantiation from index `0` -/

/-- The callback of `instantiateMetavars` as a `replace` pass: it fires at metavariables only. -/
def mvFn (σ : Name → Option Expr) : Expr → Nat → Option Expr
  | .metavar m l, _ => some (instantiateMetavars σ (.metavar m l))
  | _, _ => none

theorem mvFn_leaf (σ : Name → Option Expr) : LeafFn (mvFn σ) := by
  intro e k h
  cases e <;> first | rfl | cases h

variable (σ : Name → Option Expr)

mutual
/-- `instantiateMetavars` is the `replace` pass of `mvFn`, from any offset. -/
theorem instantiateMetavars_eq_replace : ∀ (o : Nat) (e : Expr),
    instantiateMetavars σ e = replace (mvFn σ) o e
  | _, .var _ | _, .constant .. | _, .type _ | _, .value _ | _, .metavar .. => rfl
  | o, .app f a as => by
    rw [replace_app rfl, ← instantiateMetavars_eq_replace o f, ← instantiateMetavars_eq_replace o a,
      ← instantiateMetavarsList_eq_replaceList o as]
    rfl
  | o, .abst _ _ d b => by
    rw [replace_abst rfl, ← instantiateMetavars_eq_replace o d,
      ← instantiateMetavars_eq_replace (o + 1) b]
    rfl
  | o, .let _ none v b => by
    rw [replace_let_none rfl, ← instantiateMetavars_eq_replace o v,
      ← instantiateMetavars_eq_replace (o + 1) b]
    rfl
  | o, .let _ (some t) v b => by
    rw [replace_let_some rfl, ← instantiateMetavars_eq_replace o t,
      ← instantiateMetavars_eq_replace o v, ← instantiateMetavars_eq_replace (o + 1) b]
    rfl
  | o, .heq l r => by
    rw [replace_heq rfl, ← instantiateMetavars_eq_replace o l, ← instantiateMetavars_eq_replace o r]
    rfl
  | o, .pair a b t => by
    rw [replace_pair rfl, ← instantiateMetavars_eq_replace o a, ← instantiateMetavars_eq_replace o b,
      ← instantiateMetavars_eq_replace o t]
    rfl
  | o, .proj _ a => by
    rw [replace_proj rfl, ← instantiateMetavars_eq_replace o a]
    rfl
theorem instantiateMetavarsList_eq_replaceList : ∀ (o : Nat) (es : List Expr),
    instantiateMetavarsList σ es = replaceList (mvFn σ) o es
  | _, [] => rfl
  | o, e :: es => by
    rw [replaceList_cons, ← instantiateMetavars_eq_replace o e,
      ← instantiateMetavarsList_eq_replaceList o es]
    rfl
end

/-- **Instantiating metavariables commutes with lifting.** A lift recorded on a metavariable is
run on its value, which is the value lifted. -/
theorem instantiateMetavars_liftFn (s d o : Nat) (e : Expr) :
    instantiateMetavars σ (replace (liftFn s d) o e) =
      replace (liftFn s d) o (instantiateMetavars σ e) := by
  have h : replace (mvFn σ) (0 + o) (replace (liftFn s d) (0 + o) e) =
      replace (liftFn s d) (0 + o) (replace (mvFn σ) (0 + o) e) :=
    replace_replace_comm (liftFn_leaf s d) (mvFn_leaf σ) (mvFn_leaf σ) (liftFn_leaf s d)
      (fun x k hx => by
        cases x with
        | var i =>
          show replace (mvFn σ) _ (replace (liftFn s d) _ (.var i)) = replace (liftFn s d) _ (.var i)
          rw [replace_liftFn_var]
          split <;> rfl
        | metavar m l =>
          rw [Nat.zero_add]
          by_cases hd : d = 0
          · subst hd
            simp only [replace_liftFn_zero]
          · have hl : replace (liftFn s d) k (.metavar m l) = .metavar m (.lift (s + k) d :: l) := by
              simp only [replace_metavar_eq, liftFn, addLift, hd, if_false, Option.getD_some]
            rw [hl, ← instantiateMetavars_eq_replace, ← instantiateMetavars_eq_replace]
            cases hσ : σ m with
            | some t =>
              simp only [instantiateMetavars, instantiateMetavarsCtx, hσ, applyLocalContext,
                LocalEntry.run, liftFreeVars, replace_liftFn_shift]
            | none =>
              simp only [instantiateMetavars, instantiateMetavarsCtx, hσ, replace_metavar_eq, liftFn,
                addLift, hd, if_false, Option.getD_some]
        | _ => cases hx) o e
  rwa [Nat.zero_add, ← instantiateMetavars_eq_replace, ← instantiateMetavars_eq_replace] at h

theorem instantiateMetavars_liftFreeVars (e : Expr) (s d : Nat) :
    instantiateMetavars σ (liftFreeVars e s d) = liftFreeVars (instantiateMetavars σ e) s d :=
  instantiateMetavars_liftFn σ s d 0 e

/-- An `inst` entry of `instantiate` on a metavariable, run on its value. -/
theorem instantiateMetavars_metavar_inst {v : Expr} (hv : hasMetavar (instantiateMetavars σ v) = false)
    (m : Name) (l : List (LocalEntry Expr)) (p : Nat) :
    instantiateMetavars σ (.metavar m (.inst p (liftFreeVars v 0 p) :: l)) =
      replace (instantiateFn false 0 [instantiateMetavars σ v]) p (instantiateMetavars σ (.metavar m l)) := by
  have hlift := instantiateMetavars_liftFreeVars σ v 0 p
  cases hσ : σ m with
  | some t =>
    simp only [instantiateMetavars, instantiateMetavarsCtx, hσ, applyLocalContext, LocalEntry.run,
      hlift, instantiate, instantiateCore, replace_instantiateFn_lifted hv]
  | none =>
    simp only [instantiateMetavars, instantiateMetavarsCtx, hσ, hlift, replace_metavar_eq,
      instantiateFn, instMetavar, addInst, Option.getD_some, List.length_nil, Nat.add_zero,
      Bool.false_eq_true, if_false]

/-- The loop of `instantiate_core` at a metavariable, run on its value, is `instantiate` of the
value. -/
theorem instantiateMetavars_instMetavar (k : Nat) (m : Name) : ∀ (subst : List Expr)
    (l : List (LocalEntry Expr)), (∀ v ∈ subst, hasMetavar (instantiateMetavars σ v) = false) →
    instantiateMetavars σ (instMetavar false 0 k (.metavar m l) subst) =
      replace (instantiateFn false 0 (subst.map (instantiateMetavars σ))) k
        (instantiateMetavars σ (.metavar m l))
  | [], _, _ => (replace_instantiateFn_nil k _).symm
  | v :: rest, l, h => by
    have hv := h v (List.mem_cons_self _ _)
    rw [instMetavar, if_neg Bool.false_ne_true, addInst, Nat.add_zero,
      instantiateMetavars_instMetavar k m rest _ fun w hw => h w (List.mem_cons_of_mem _ hw),
      instantiateMetavars_metavar_inst σ hv, List.map_cons,
      ← replace_instantiateFn_cons hv (rest.map (instantiateMetavars σ)) k,
      List.length_map, Nat.add_comm k]

/-- **The eager and the deferred substitution agree from index `0`.** Instantiating metavariables
after `instantiate(e, 0, subst)` is instantiating `e` and `subst` first, when the values of `subst`
become metavariable-free. -/
theorem instantiateMetavars_instantiate (e : Expr) (subst : List Expr)
    (h : ∀ v ∈ subst, hasMetavar (instantiateMetavars σ v) = false) (o : Nat) :
    instantiateMetavars σ (replace (instantiateFn false 0 subst) o e) =
      replace (instantiateFn false 0 (subst.map (instantiateMetavars σ))) o (instantiateMetavars σ e) := by
  have hc : replace (mvFn σ) (0 + o) (replace (instantiateFn false 0 subst) (0 + o) e) =
      replace (instantiateFn false 0 (subst.map (instantiateMetavars σ))) (0 + o)
        (replace (mvFn σ) (0 + o) e) :=
    replace_replace_comm (instantiateFn_leaf _ _ _) (mvFn_leaf σ) (mvFn_leaf σ)
      (instantiateFn_leaf _ _ _) (fun x k hx => by
        cases x with
        | var i =>
          show replace (mvFn σ) _ (replace (instantiateFn false 0 subst) _ (.var i)) =
            replace (instantiateFn false 0 (subst.map (instantiateMetavars σ))) _ (.var i)
          rw [Nat.zero_add, replace_instantiateFn_zero_var, replace_instantiateFn_zero_var,
            List.length_map]
          split
          · split
            · rw [← instantiateMetavars_eq_replace, instantiateMetavars_liftFreeVars]
              congr 1
              rw [List.getD_eq_getElem?_getD, List.getD_eq_getElem?_getD, List.getElem?_map]
              cases subst[subst.length - (i - k) - 1]? <;> rfl
            · rfl
          · rfl
        | metavar m l =>
          rw [Nat.zero_add, replace_metavar_eq, instantiateFn, Option.getD_some,
            ← instantiateMetavars_eq_replace, instantiateMetavars_instMetavar σ k m subst l h]
          rfl
        | _ => cases hx) o e
  rwa [Nat.zero_add, ← instantiateMetavars_eq_replace, ← instantiateMetavars_eq_replace] at hc

end LeanKernel
