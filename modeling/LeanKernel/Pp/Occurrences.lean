import LeanKernel.Pp.Termination
import Mathlib.Algebra.Order.BigOperators.Group.Finset

/-!
# The occurrence counts of a scope

`mk_scope::update_num_occs(e)` (`pp.cpp`, lines 208-222) counts, in `m_num_occs`, how often each
term is met in a walk of `e` that enters an application only at its first occurrence; the
printer makes an alias only for a term counted more than once (`has_several_occs`). The source
walks with a worklist it pushes the arguments of an application onto and pops from the back, so
it visits an application's arguments last to first, each with all it reaches before the next. The
model (`updateNumOccs`) recurses on them first to last.

This module gives the counts in closed form and shows that the source's loop computes them too:

* `expandedApps m e` — the applications whose arguments the walk from the counts `m` pushes: `e`
  when it is an application not yet counted, and those of its arguments, as classes of `==`;
* `WalkedFrom m m' X` — `m'` is `m` with each class counted once more per root in `X` and per
  argument of an application the walks expand; `WalkedFrom.expand` is the pop of an application;
* `updateNumOccs_walked` — the model's recursion is such a walk;
* `updateNumOccsLoop_walked` — so is the source's loop, from any worklist, with fuel for every
  step; `walkLength_singleton_le` bounds the steps by the size of the term;
* `numOccs_refines_source` — **the model's counts are the source's**.
-/

namespace LeanKernel

/-! ## Classes of `==` -/

namespace Expr

mutual
theorem erase_erase : ∀ e : Expr, erase (erase e) = erase e
  | .var _ | .constant .. | .type _ | .value _ => rfl
  | .app f a as => by
    simp only [erase, erase_erase f, erase_erase a, eraseList_erase as]
  | .abst _ _ d b => by simp only [erase, erase_erase d, erase_erase b]
  | .let _ t v b => by simp only [erase, eraseOpt_erase t, erase_erase v, erase_erase b]
  | .heq l r => by simp only [erase, erase_erase l, erase_erase r]
  | .pair f s t => by simp only [erase, erase_erase f, erase_erase s, erase_erase t]
  | .proj _ a => by simp only [erase, erase_erase a]
  | .metavar _ l => by simp only [erase, eraseCtx_erase l]
termination_by structural e => e
theorem eraseOpt_erase : ∀ t : Option Expr, eraseOpt (eraseOpt t) = eraseOpt t
  | none => rfl
  | some t => by simp only [eraseOpt, erase_erase t]
theorem eraseList_erase : ∀ as : List Expr, eraseList (eraseList as) = eraseList as
  | [] => rfl
  | a :: as => by simp only [eraseList, erase_erase a, eraseList_erase as]
theorem eraseCtx_erase : ∀ l : List (LocalEntry Expr), eraseCtx (eraseCtx l) = eraseCtx l
  | [] => rfl
  | .lift .. :: l => by simp only [eraseCtx, eraseCtx_erase l]
  | .inst _ v :: l => by simp only [eraseCtx, erase_erase v, eraseCtx_erase l]
end

/-- `==` on terms, as equality of erasures. -/
theorem alphaEq_eq_decide (a b : Expr) : a.alphaEq b = decide (a.erase = b.erase) := by
  rw [Bool.eq_iff_iff, decide_eq_true_iff]
  exact alphaEq_iff

end Expr

open Expr

/-! ## The counts -/

/-- `m_num_occs[t]` depends on `t` only through its class. -/
theorem occsOf_erase (t : Expr) : ∀ m : List (Expr × Nat), occsOf (erase t) m = occsOf t m
  | [] => rfl
  | (e', k) :: m => by
    simp only [occsOf, alphaEq_eq_decide, erase_erase, occsOf_erase t m]

theorem occsOf_congr {t t' : Expr} (h : erase t = erase t') (m : List (Expr × Nat)) :
    occsOf t m = occsOf t' m := by
  rw [← occsOf_erase t, h, occsOf_erase]

/-- `m_num_occs[u]++` adds one to the count of the class of `u` and leaves the others. -/
theorem occsOf_bumpOcc (t u : Expr) :
    ∀ m : List (Expr × Nat),
      occsOf t (bumpOcc u m) = occsOf t m + if erase t = erase u then 1 else 0
  | [] => by simp only [bumpOcc, occsOf, alphaEq_eq_decide, decide_eq_true_eq]; split <;> rfl
  | (e', k) :: m => by
    have ih := occsOf_bumpOcc t u m
    by_cases hu : erase u = erase e'
    · have hb : bumpOcc u ((e', k) :: m) = (e', k + 1) :: m := by
        simp only [bumpOcc, alphaEq_eq_decide, hu, decide_True, if_true]
      rw [hb]
      by_cases ht : erase t = erase e'
      · simp only [occsOf, alphaEq_eq_decide, ht, hu, decide_True, if_true]
      · have htu : ¬erase t = erase u := hu ▸ ht
        simp only [occsOf, alphaEq_eq_decide, ht, htu, decide_False, Bool.false_eq_true, if_false,
          Nat.add_zero]
    · have hb : bumpOcc u ((e', k) :: m) = (e', k) :: bumpOcc u m := by
        simp only [bumpOcc, alphaEq_eq_decide, hu, decide_False, Bool.false_eq_true, if_false]
      rw [hb]
      by_cases ht : erase t = erase e'
      · have htu : ¬erase e' = erase u := fun h => hu h.symm
        simp only [occsOf, alphaEq_eq_decide, ht, htu, decide_True, if_true, if_false,
          Nat.add_zero]
      · simp only [occsOf, alphaEq_eq_decide, ht, decide_False, Bool.false_eq_true, if_false, ih]

/-! ## The source's loop -/

/-- The arguments `arg(e, 0)`, …, `arg(e, num_args(e) - 1)` of an application, the function
first; none of another term. -/
def Expr.args : Expr → List Expr
  | .app f a as => f :: a :: as
  | _ => []

/-- The worklist loop of `mk_scope::update_num_occs` (lines 208-222). `todo` is the buffer, its
back first: pop the back and count it; at the first occurrence of an application push its
arguments in order, so that the last is popped next. `fuel` bounds the loop. -/
def updateNumOccsLoop : Nat → List Expr → List (Expr × Nat) → List (Expr × Nat)
  | 0, _, m => m
  | _ + 1, [], m => m
  | fuel + 1, e :: todo, m =>
    let m := bumpOcc e m
    match e with
    | .app f a as =>
      if occsOf (.app f a as) m = 1 then
        updateNumOccsLoop fuel ((f :: a :: as).reverse ++ todo) m
      else updateNumOccsLoop fuel todo m
    | _ => updateNumOccsLoop fuel todo m

/-! ## The applications a walk expands -/

/-- Whether `e` is an application. -/
def Expr.isApp : Expr → Bool
  | .app .. => true
  | _ => false

mutual
/-- The classes (erasures) of the applications a walk from `e` expands from the counts `m`: `e`
when it is an application `m` does not count, with those of its arguments; none otherwise. -/
def expandedApps (m : List (Expr × Nat)) : Expr → Finset Expr
  | .app f a as =>
    if occsOf (.app f a as) m = 0 then
      insert (erase (.app f a as)) (expandedApps m f ∪ expandedApps m a ∪ expandedAppsList m as)
    else ∅
  | _ => ∅
termination_by structural e => e
/-- `expandedApps` over a list of roots. -/
def expandedAppsList (m : List (Expr × Nat)) : List Expr → Finset Expr
  | [] => ∅
  | e :: es => expandedApps m e ∪ expandedAppsList m es
end

/-- How many arguments of `u` are `t`. -/
def argCount (t u : Expr) : Nat := u.args.countP fun c => erase t = erase c

theorem Expr.isApp_erase : ∀ e : Expr, (erase e).isApp = e.isApp
  | .app .. | .var _ | .constant .. | .type _ | .value _ | .abst .. | .let .. | .heq ..
  | .pair .. | .proj .. | .metavar .. => rfl

theorem Expr.args_erase : ∀ e : Expr, (erase e).args = e.args.map erase
  | .app f a as => by simp only [erase, Expr.args, eraseList_eq, List.map_cons]
  | .var _ | .constant .. | .type _ | .value _ | .abst .. | .let .. | .heq ..
  | .pair .. | .proj .. | .metavar .. => rfl

theorem argCount_erase (t u : Expr) : argCount t (erase u) = argCount t u := by
  simp only [argCount, Expr.args_erase, List.countP_map, Function.comp_def, erase_erase]

mutual
theorem Expr.size_erase : ∀ e : Expr, (erase e).size = e.size
  | .var _ | .constant .. | .type _ | .value _ => rfl
  | .app f a as => by
    simp only [erase, Expr.size, Expr.size_erase f, Expr.size_erase a, Expr.sizeList_erase as]
  | .abst _ _ d b => by simp only [erase, Expr.size, Expr.size_erase d, Expr.size_erase b]
  | .let _ none v b => by simp only [erase, eraseOpt, Expr.size, Expr.size_erase v, Expr.size_erase b]
  | .let _ (some t) v b => by
    simp only [erase, eraseOpt, Expr.size, Expr.size_erase t, Expr.size_erase v, Expr.size_erase b]
  | .heq l r => by simp only [erase, Expr.size, Expr.size_erase l, Expr.size_erase r]
  | .pair f s t => by
    simp only [erase, Expr.size, Expr.size_erase f, Expr.size_erase s, Expr.size_erase t]
  | .proj _ a => by simp only [erase, Expr.size, Expr.size_erase a]
  | .metavar _ l => by simp only [erase, Expr.size, Expr.sizeCtx_erase l]
termination_by structural e => e
theorem Expr.sizeList_erase : ∀ as : List Expr, Expr.sizeList (eraseList as) = Expr.sizeList as
  | [] => rfl
  | a :: as => by simp only [eraseList, Expr.sizeList, Expr.size_erase a, Expr.sizeList_erase as]
theorem Expr.sizeCtx_erase :
    ∀ l : List (LocalEntry Expr), Expr.sizeCtx (eraseCtx l) = Expr.sizeCtx l
  | [] => rfl
  | .lift .. :: l => by simp only [eraseCtx, Expr.sizeCtx, Expr.sizeCtx_erase l]
  | .inst _ v :: l => by
    simp only [eraseCtx, Expr.sizeCtx, Expr.size_erase v, Expr.sizeCtx_erase l]
end

theorem Expr.size_lt_of_mem_args {x c : Expr} (h : c ∈ x.args) : c.size < x.size := by
  cases x with
  | app f a as =>
    rcases List.mem_cons.mp h with rfl | h
    · simp only [Expr.size]
      omega
    · exact Expr.size_lt_app_of_mem h
  | _ => exact absurd h (List.not_mem_nil c)

theorem Expr.size_eq_sizeList_args {x : Expr} (hx : x.isApp = true) :
    x.size = Expr.sizeList x.args + 1 := by
  cases x with
  | app f a as =>
    simp only [Expr.size, Expr.args, Expr.sizeList]
    omega
  | _ => cases hx

/-! ## Expansions -/

section Expansions

variable {m : List (Expr × Nat)}

theorem mem_expandedAppsList {u : Expr} :
    ∀ {L : List Expr}, u ∈ expandedAppsList m L ↔ ∃ y ∈ L, u ∈ expandedApps m y
  | [] => by simp [expandedAppsList]
  | y :: L => by simp [expandedAppsList, mem_expandedAppsList]

theorem expandedAppsList_append (L L' : List Expr) :
    expandedAppsList m (L ++ L') = expandedAppsList m L ∪ expandedAppsList m L' := by
  ext u
  simp only [Finset.mem_union, mem_expandedAppsList, List.mem_append, or_and_right, exists_or]

theorem expandedAppsList_perm {L L' : List Expr} (h : L.Perm L') :
    expandedAppsList m L = expandedAppsList m L' :=
  Finset.ext fun _ => by simp only [mem_expandedAppsList, h.mem_iff]

theorem expandedAppsList_congr {m' : List (Expr × Nat)} {L : List Expr}
    (h : ∀ c ∈ L, expandedApps m' c = expandedApps m c) :
    expandedAppsList m' L = expandedAppsList m L :=
  Finset.ext fun _ => by
    simp only [mem_expandedAppsList]
    exact exists_congr fun c => and_congr_right fun hc => by rw [h c hc]

/-- An application's expansion is itself with its arguments'. -/
theorem expandedApps_app {x : Expr} (hx : x.isApp = true) (h0 : occsOf x m = 0) :
    expandedApps m x = insert (erase x) (expandedAppsList m x.args) := by
  cases x with
  | app f a as =>
    simp only [expandedApps, h0, if_true, Expr.args, expandedAppsList, Finset.union_assoc]
  | _ => cases hx

/-- A term counted already, or not an application, expands nothing. -/
theorem expandedApps_eq_empty {x : Expr} (h : ¬(x.isApp = true ∧ occsOf x m = 0)) :
    expandedApps m x = ∅ := by
  cases x with
  | app f a as =>
    have h0 : occsOf (.app f a as) m ≠ 0 := fun h0 => h ⟨rfl, h0⟩
    simp only [expandedApps, h0, if_false]
  | _ => rfl

theorem mem_expandedApps_iff {x u : Expr} :
    u ∈ expandedApps m x ↔
      x.isApp = true ∧ occsOf x m = 0 ∧ (u = erase x ∨ ∃ c ∈ x.args, u ∈ expandedApps m c) := by
  by_cases hx : x.isApp = true ∧ occsOf x m = 0
  · rw [expandedApps_app hx.1 hx.2, Finset.mem_insert, mem_expandedAppsList]
    simp only [hx, true_and]
  · rw [expandedApps_eq_empty hx]
    exact iff_of_false (Finset.not_mem_empty u) fun h => hx ⟨h.1, h.2.1⟩

theorem self_mem_expandedApps {x : Expr} (hx : x.isApp = true) (h0 : occsOf x m = 0) :
    erase x ∈ expandedApps m x :=
  mem_expandedApps_iff.mpr ⟨hx, h0, .inl rfl⟩

theorem mem_expandedApps_of_arg {x c u : Expr} (hx : x.isApp = true) (h0 : occsOf x m = 0)
    (hc : c ∈ x.args) (hu : u ∈ expandedApps m c) : u ∈ expandedApps m x :=
  mem_expandedApps_iff.mpr ⟨hx, h0, .inr ⟨c, hc, hu⟩⟩

mutual
theorem expandedApps_erase : ∀ x : Expr, expandedApps m (erase x) = expandedApps m x
  | .app f a as => by
    have h := occsOf_erase (.app f a as) m
    simp only [erase] at h
    simp only [erase, expandedApps, h, expandedApps_erase f, expandedApps_erase a,
      expandedAppsList_erase as, erase_erase, eraseList_erase]
  | .var _ | .constant .. | .type _ | .value _ | .abst .. | .let .. | .heq ..
  | .pair .. | .proj .. | .metavar .. => rfl
termination_by structural x => x
theorem expandedAppsList_erase : ∀ L : List Expr, expandedAppsList m (eraseList L) = expandedAppsList m L
  | [] => rfl
  | y :: L => by
    simp only [eraseList, expandedAppsList, expandedApps_erase y, expandedAppsList_erase L]
end

/-- The members of an expansion are erasures of applications not counted. -/
theorem mem_expandedApps {x u : Expr} (h : u ∈ expandedApps m x) :
    erase u = u ∧ u.isApp = true ∧ occsOf u m = 0 := by
  obtain ⟨hx, h0, rfl | ⟨c, hc, hu⟩⟩ := mem_expandedApps_iff.mp h
  · exact ⟨erase_erase x, by rw [Expr.isApp_erase, hx], by rw [occsOf_erase, h0]⟩
  · exact mem_expandedApps hu
termination_by x.size
decreasing_by exact Expr.size_lt_of_mem_args hc

/-- A term expanded from `x` expands no more than `x`. -/
theorem expandedApps_subset {x u : Expr} (h : u ∈ expandedApps m x) :
    expandedApps m u ⊆ expandedApps m x := by
  obtain ⟨hx, h0, rfl | ⟨c, hc, hu⟩⟩ := mem_expandedApps_iff.mp h
  · exact fun v hv => by rwa [expandedApps_erase] at hv
  · exact fun v hv => mem_expandedApps_of_arg hx h0 hc (expandedApps_subset hu hv)
termination_by x.size
decreasing_by exact Expr.size_lt_of_mem_args hc

/-- A member of an expansion is its root or an argument of another member. -/
theorem mem_expandedApps_cases {x u : Expr} (h : u ∈ expandedApps m x) :
    u = erase x ∨ ∃ w ∈ expandedApps m x, ∃ c ∈ w.args, erase c = u := by
  obtain ⟨hx, h0, rfl | ⟨c, hc, hu⟩⟩ := mem_expandedApps_iff.mp h
  · exact .inl rfl
  · right
    rcases mem_expandedApps_cases hu with rfl | ⟨w, hw, c', hc', rfl⟩
    · refine ⟨erase x, self_mem_expandedApps hx h0, erase c, ?_, erase_erase c⟩
      rw [Expr.args_erase]
      exact List.mem_map_of_mem erase hc
    · exact ⟨w, mem_expandedApps_of_arg hx h0 hc hw, c', hc', rfl⟩
termination_by x.size
decreasing_by exact Expr.size_lt_of_mem_args hc

theorem size_le_of_mem_expandedApps {x u : Expr} (h : u ∈ expandedApps m x) : u.size ≤ x.size := by
  obtain ⟨-, -, rfl | ⟨c, hc, hu⟩⟩ := mem_expandedApps_iff.mp h
  · exact (Expr.size_erase x).le
  · exact (size_le_of_mem_expandedApps hu).trans (Expr.size_lt_of_mem_args hc).le
termination_by x.size
decreasing_by exact Expr.size_lt_of_mem_args hc

/-- An application is not expanded again from its own arguments. -/
theorem erase_not_mem_expandedAppsList_args (x : Expr) : erase x ∉ expandedAppsList m x.args :=
  fun h => by
    obtain ⟨c, hc, hx⟩ := mem_expandedAppsList.mp h
    have := size_le_of_mem_expandedApps hx
    rw [Expr.size_erase] at this
    exact absurd (Expr.size_lt_of_mem_args hc) (not_lt.mpr this)

/-- Nothing expands a term counted already or not an application. -/
theorem erase_not_mem_expandedApps {y : Expr} (hy : ¬(y.isApp = true ∧ occsOf y m = 0)) (z : Expr) :
    erase y ∉ expandedApps m z := fun h => by
  obtain ⟨-, h1, h2⟩ := mem_expandedApps h
  rw [Expr.isApp_erase] at h1
  rw [occsOf_erase] at h2
  exact hy ⟨h1, h2⟩

/-- An argument, not yet counted, of a member of an expansion is expanded too. -/
theorem erase_arg_mem_expandedApps {y w c : Expr} (hw : w ∈ expandedApps m y) (hc : c ∈ w.args)
    (hc1 : c.isApp = true) (hc0 : occsOf c m = 0) : erase c ∈ expandedApps m y := by
  obtain ⟨-, hw1, hw0⟩ := mem_expandedApps hw
  exact expandedApps_subset hw (mem_expandedApps_of_arg hw1 hw0 hc (self_mem_expandedApps hc1 hc0))

/-! ### One more count -/

/-- Counting `y` once more changes no expansion that does not reach it. -/
theorem expandedApps_bumpOcc_of_not_mem {y z : Expr} (hy : erase y ∉ expandedApps m z) :
    expandedApps (bumpOcc y m) z = expandedApps m z := by
  by_cases hz : z.isApp = true ∧ occsOf z m = 0
  · have hzy : ¬erase z = erase y := fun h => hy (h ▸ self_mem_expandedApps hz.1 hz.2)
    have h1 : occsOf z (bumpOcc y m) = 0 := by rw [occsOf_bumpOcc, hz.2, if_neg hzy]
    rw [expandedApps_app hz.1 h1, expandedApps_app hz.1 hz.2, expandedAppsList_congr fun c hc =>
      expandedApps_bumpOcc_of_not_mem fun h => hy (mem_expandedApps_of_arg hz.1 hz.2 hc h)]
  · have h1 : ¬(z.isApp = true ∧ occsOf z (bumpOcc y m) = 0) := fun h =>
      hz ⟨h.1, by have := h.2; rw [occsOf_bumpOcc] at this; omega⟩
    rw [expandedApps_eq_empty h1, expandedApps_eq_empty hz]
termination_by z.size
decreasing_by exact Expr.size_lt_of_mem_args hc

theorem expandedApps_bumpOcc_subset (y : Expr) {z : Expr} :
    expandedApps (bumpOcc y m) z ⊆ expandedApps m z := fun u hu => by
  obtain ⟨hz, h1, hu⟩ := mem_expandedApps_iff.mp hu
  have h0 : occsOf z m = 0 := by rw [occsOf_bumpOcc] at h1; omega
  exact mem_expandedApps_iff.mpr
    ⟨hz, h0, hu.imp_right fun ⟨c, hc, hc'⟩ => ⟨c, hc, expandedApps_bumpOcc_subset y hc'⟩⟩
termination_by z.size
decreasing_by exact Expr.size_lt_of_mem_args hc

theorem erase_not_mem_expandedApps_bumpOcc (y z : Expr) : erase y ∉ expandedApps (bumpOcc y m) z :=
  fun h => by
    have := (mem_expandedApps h).2.2
    rw [occsOf_erase, occsOf_bumpOcc, if_pos rfl] at this
    omega

/-- What counting `y` once more takes from an expansion, `y` expands. -/
theorem expandedApps_subset_bumpOcc (y : Expr) {z : Expr} :
    expandedApps m z ⊆ expandedApps (bumpOcc y m) z ∪ expandedApps m y := fun u hu => by
  obtain ⟨hz, h0, hu'⟩ := mem_expandedApps_iff.mp hu
  by_cases hzy : erase z = erase y
  · rw [← expandedApps_erase y, ← hzy, expandedApps_erase]
    exact Finset.mem_union_right _ hu
  · have h1 : occsOf z (bumpOcc y m) = 0 := by rw [occsOf_bumpOcc, h0, if_neg hzy]
    rcases hu' with rfl | ⟨c, hc, hc'⟩
    · exact Finset.mem_union_left _ (self_mem_expandedApps hz h1)
    · exact (Finset.mem_union.mp (expandedApps_subset_bumpOcc y hc')).elim
        (fun h => Finset.mem_union_left _ (mem_expandedApps_of_arg hz h1 hc h))
        (Finset.mem_union_right _)
termination_by z.size
decreasing_by exact Expr.size_lt_of_mem_args hc

/-- The pop of an application `x` not yet counted, from the worklist `x :: Y`: its class, with
what the walks from its arguments and from `Y` expand once it is counted, is what the worklist
expanded before. -/
theorem expandedAppsList_expand {x : Expr} (hx : x.isApp = true) (h0 : occsOf x m = 0)
    (Y : List Expr) :
    insert (erase x) (expandedAppsList (bumpOcc x m) (x.args ++ Y)) = expandedAppsList m (x :: Y) := by
  have hargs : expandedAppsList (bumpOcc x m) x.args = expandedAppsList m x.args :=
    expandedAppsList_congr fun c hc => expandedApps_bumpOcc_of_not_mem fun h =>
      erase_not_mem_expandedAppsList_args x (mem_expandedAppsList.mpr ⟨c, hc, h⟩)
  ext v
  simp only [expandedAppsList, expandedAppsList_append, hargs, expandedApps_app hx h0,
    Finset.mem_insert, Finset.mem_union]
  constructor
  · rintro (h | h | h)
    · exact .inl (.inl h)
    · exact .inl (.inr h)
    · obtain ⟨c, hc, h⟩ := mem_expandedAppsList.mp h
      exact .inr (mem_expandedAppsList.mpr ⟨c, hc, expandedApps_bumpOcc_subset x h⟩)
  · rintro ((h | h) | h)
    · exact .inl h
    · exact .inr (.inl h)
    · obtain ⟨c, hc, h⟩ := mem_expandedAppsList.mp h
      rcases Finset.mem_union.mp (expandedApps_subset_bumpOcc x h) with h | h
      · exact .inr (.inr (mem_expandedAppsList.mpr ⟨c, hc, h⟩))
      · rw [expandedApps_app hx h0, Finset.mem_insert] at h
        exact h.imp_right .inl

theorem sum_expandedAppsList_expand {x : Expr} (hx : x.isApp = true) (h0 : occsOf x m = 0)
    (Y : List Expr) (g : Expr → Nat) :
    ∑ u ∈ expandedAppsList m (x :: Y), g u =
      g (erase x) + ∑ u ∈ expandedAppsList (bumpOcc x m) (x.args ++ Y), g u := by
  rw [← expandedAppsList_expand hx h0 Y, Finset.sum_insert fun h =>
    let ⟨c, _, hc⟩ := mem_expandedAppsList.mp h
    erase_not_mem_expandedApps_bumpOcc x c hc]

end Expansions

/-! ## The counts after a walk -/

/-- The counts `m'` are those of `m` after walks from each of the roots `X` in turn: each class
gains one per root in it and one per argument in it of each application the walks expand. -/
def WalkedFrom (m m' : List (Expr × Nat)) (X : List Expr) : Prop :=
  ∀ t, occsOf t m' = occsOf t m + X.countP (fun y => erase t = erase y) +
    ∑ u ∈ expandedAppsList m X, argCount t u

namespace WalkedFrom

variable {m m' m'' : List (Expr × Nat)} {X Y : List Expr}

theorem nil (m : List (Expr × Nat)) : WalkedFrom m m [] := fun t => by
  simp only [List.countP_nil, expandedAppsList, Finset.sum_empty, Nat.add_zero]

theorem count_singleton {x : Expr} (hW : WalkedFrom m m' [x]) (t : Expr) :
    occsOf t m' = occsOf t m + (if erase t = erase x then 1 else 0) +
      ∑ u ∈ expandedApps m x, argCount t u := by
  rw [hW t]
  simp only [List.countP_cons, List.countP_nil, decide_eq_true_eq, Nat.zero_add, expandedAppsList,
    Finset.union_empty]

/-- Counting a term that expands nothing. -/
theorem bumpOcc {x : Expr} (hx : ¬(x.isApp = true ∧ occsOf x m = 0)) :
    WalkedFrom m (bumpOcc x m) [x] := fun t => by
  simp only [occsOf_bumpOcc, List.countP_cons, List.countP_nil, decide_eq_true_eq, Nat.zero_add,
    expandedAppsList, expandedApps_eq_empty hx, Finset.empty_union, Finset.sum_empty, Nat.add_zero]

/-- The order of the roots does not matter. -/
theorem perm (h : X.Perm Y) (hW : WalkedFrom m m' X) : WalkedFrom m m' Y := fun t => by
  rw [hW t, h.countP_eq, expandedAppsList_perm h]

/-- An application is left uncounted by the walks from `X` iff it was uncounted and they do not
expand it. -/
theorem occsOf_eq_zero (hW : WalkedFrom m m' X) {z : Expr} (hz : z.isApp = true) :
    occsOf z m' = 0 ↔ occsOf z m = 0 ∧ erase z ∉ expandedAppsList m X := by
  rw [hW z]
  constructor
  · intro h
    refine ⟨by omega, fun hm => ?_⟩
    obtain ⟨y, hy, hzy⟩ := mem_expandedAppsList.mp hm
    rcases mem_expandedApps_cases hzy with h' | ⟨w, hw, c, hc, h'⟩
    · have : 0 < X.countP fun y => erase z = erase y :=
        List.countP_pos_iff.mpr ⟨y, hy, decide_eq_true h'⟩
      omega
    · have hpos : 0 < argCount z w := List.countP_pos_iff.mpr ⟨c, hc, decide_eq_true h'.symm⟩
      have : argCount z w ≤ ∑ u ∈ expandedAppsList m X, argCount z u :=
        Finset.single_le_sum (fun _ _ => Nat.zero_le _) (mem_expandedAppsList.mpr ⟨y, hy, hw⟩)
      omega
  · rintro ⟨h0, hzX⟩
    have hcount : X.countP (fun y => erase z = erase y) = 0 :=
      List.countP_eq_zero.mpr fun y hy hzy => hzX <| by
        have hzy : erase z = erase y := of_decide_eq_true hzy
        have hy1 : y.isApp = true := by rw [← Expr.isApp_erase, ← hzy, Expr.isApp_erase, hz]
        rw [hzy]
        exact mem_expandedAppsList.mpr ⟨y, hy, self_mem_expandedApps hy1 ((occsOf_congr hzy m).symm.trans h0)⟩
    have hsum : ∑ u ∈ expandedAppsList m X, argCount z u = 0 :=
      Finset.sum_eq_zero fun w hw => List.countP_eq_zero.mpr fun c hc hzc => hzX <| by
        have hzc : erase z = erase c := of_decide_eq_true hzc
        have hc1 : c.isApp = true := by rw [← Expr.isApp_erase, ← hzc, Expr.isApp_erase, hz]
        obtain ⟨y, hy, hw⟩ := mem_expandedAppsList.mp hw
        rw [hzc]
        exact mem_expandedAppsList.mpr
          ⟨y, hy, erase_arg_mem_expandedApps hw hc hc1 ((occsOf_congr hzc m).symm.trans h0)⟩
    omega

/-- After the walks from `X`, an expansion is what it was less what they expanded. -/
theorem expandedApps_eq (hW : WalkedFrom m m' X) (z : Expr) :
    expandedApps m' z = expandedApps m z \ expandedAppsList m X := by
  ext u
  rw [Finset.mem_sdiff, mem_expandedApps_iff, mem_expandedApps_iff]
  constructor
  · rintro ⟨hz, h1, hu⟩
    obtain ⟨h0, hzX⟩ := (hW.occsOf_eq_zero hz).mp h1
    rcases hu with rfl | ⟨c, hc, hu⟩
    · exact ⟨⟨hz, h0, .inl rfl⟩, hzX⟩
    · rw [WalkedFrom.expandedApps_eq hW c, Finset.mem_sdiff] at hu
      exact ⟨⟨hz, h0, .inr ⟨c, hc, hu.1⟩⟩, hu.2⟩
  · rintro ⟨⟨hz, h0, hu⟩, huX⟩
    have hzX : erase z ∉ expandedAppsList m X := fun h => huX <| by
      obtain ⟨y, hy, h⟩ := mem_expandedAppsList.mp h
      have hu' : u ∈ expandedApps m (erase z) := by
        rw [expandedApps_erase]
        exact mem_expandedApps_iff.mpr ⟨hz, h0, hu⟩
      exact mem_expandedAppsList.mpr ⟨y, hy, expandedApps_subset h hu'⟩
    refine ⟨hz, (hW.occsOf_eq_zero hz).mpr ⟨h0, hzX⟩, hu.imp_right fun ⟨c, hc, hc'⟩ => ⟨c, hc, ?_⟩⟩
    rw [WalkedFrom.expandedApps_eq hW c]
    exact Finset.mem_sdiff.mpr ⟨hc', huX⟩
termination_by z.size
decreasing_by all_goals exact Expr.size_lt_of_mem_args hc

theorem expandedAppsList_eq (hW : WalkedFrom m m' X) :
    ∀ L : List Expr, expandedAppsList m' L = expandedAppsList m L \ expandedAppsList m X
  | [] => (Finset.empty_sdiff _).symm
  | y :: L => by
    simp only [expandedAppsList, hW.expandedApps_eq y, expandedAppsList_eq hW L,
      Finset.union_sdiff_distrib]

/-- Walks in turn from `X` and then from `Y` are walks from `X ++ Y`. -/
theorem append (h1 : WalkedFrom m m' X) (h2 : WalkedFrom m' m'' Y) : WalkedFrom m m'' (X ++ Y) :=
  fun t => by
    have hsum : ∑ u ∈ expandedAppsList m (X ++ Y), argCount t u =
        ∑ u ∈ expandedAppsList m X, argCount t u + ∑ u ∈ expandedAppsList m' Y, argCount t u := by
      rw [h1.expandedAppsList_eq, expandedAppsList_append, ← Finset.union_sdiff_self_eq_union,
        Finset.sum_union Finset.disjoint_sdiff]
    rw [h2 t, h1 t, List.countP_append, hsum]
    omega

/-- The pop of an application `x` not yet counted: count it, then walk from its arguments pushed
on the rest of the worklist. -/
theorem expand {x : Expr} (hx : x.isApp = true) (h0 : occsOf x m = 0)
    (hW : WalkedFrom (LeanKernel.bumpOcc x m) m' (x.args ++ Y)) : WalkedFrom m m' (x :: Y) := fun t => by
  rw [hW t, occsOf_bumpOcc, List.countP_append, sum_expandedAppsList_expand hx h0, argCount_erase,
    List.countP_cons]
  simp only [argCount, decide_eq_true_eq]
  omega

end WalkedFrom

/-! ## The model's walk and the source's loop -/

theorem updateNumOccs_eq (m : List (Expr × Nat)) (x : Expr) :
    updateNumOccs m x =
      if x.isApp = true ∧ occsOf x m = 0 then updateNumOccsList (bumpOcc x m) x.args
      else bumpOcc x m := by
  cases x with
  | app f a as =>
    have h : occsOf (.app f a as) (bumpOcc (.app f a as) m) = occsOf (.app f a as) m + 1 := by
      rw [occsOf_bumpOcc, if_pos rfl]
    simp only [updateNumOccs, h, Nat.add_left_eq_self, Expr.isApp, true_and, Expr.args,
      updateNumOccsList]
  | _ => rfl

mutual
/-- The model's walk from `x`. -/
theorem updateNumOccs_walked : ∀ (m : List (Expr × Nat)) (x : Expr),
    WalkedFrom m (updateNumOccs m x) [x]
  | m, .app f a as => by
    rw [updateNumOccs_eq]
    split
    · next h =>
      refine WalkedFrom.expand (Y := []) h.1 h.2 ?_
      rw [List.append_nil]
      exact (updateNumOccs_walked _ f).append
        ((updateNumOccs_walked _ a).append (updateNumOccsList_walked _ as))
    · next h => exact WalkedFrom.bumpOcc h
  | m, .var _ | m, .constant .. | m, .type _ | m, .value _ | m, .abst .. | m, .let .. | m, .heq ..
  | m, .pair .. | m, .proj .. | m, .metavar .. => WalkedFrom.bumpOcc fun h => Bool.false_ne_true h.1
termination_by structural _ x => x
theorem updateNumOccsList_walked : ∀ (m : List (Expr × Nat)) (L : List Expr),
    WalkedFrom m (updateNumOccsList m L) L
  | m, [] => WalkedFrom.nil m
  | m, y :: L => (updateNumOccs_walked m y).append (updateNumOccsList_walked _ L)
end

/-- The steps left to the source's loop: one per term on the worklist and one per argument of
each application its walks expand. -/
def walkLength (m : List (Expr × Nat)) (todo : List Expr) : Nat :=
  todo.length + ∑ u ∈ expandedAppsList m todo, u.args.length

theorem updateNumOccsLoop_cons (fuel : Nat) (y : Expr) (todo : List Expr) (m : List (Expr × Nat)) :
    updateNumOccsLoop (fuel + 1) (y :: todo) m =
      if y.isApp = true ∧ occsOf y m = 0 then
        updateNumOccsLoop fuel (y.args.reverse ++ todo) (bumpOcc y m)
      else updateNumOccsLoop fuel todo (bumpOcc y m) := by
  cases y with
  | app f a as =>
    have h : occsOf (.app f a as) (bumpOcc (.app f a as) m) = occsOf (.app f a as) m + 1 := by
      rw [occsOf_bumpOcc, if_pos rfl]
    simp only [updateNumOccsLoop, h, Nat.add_left_eq_self, Expr.isApp, true_and, Expr.args]
  | _ => rfl

/-- The source's loop, from any worklist and counts, with fuel for every step. -/
theorem updateNumOccsLoop_walked : ∀ (fuel : Nat) (todo : List Expr) (m : List (Expr × Nat)),
    walkLength m todo ≤ fuel → WalkedFrom m (updateNumOccsLoop fuel todo m) todo
  | 0, todo, m, h => by
    have : todo = [] := List.eq_nil_of_length_eq_zero (by unfold walkLength at h; omega)
    subst this
    exact WalkedFrom.nil m
  | _ + 1, [], m, _ => WalkedFrom.nil m
  | fuel + 1, y :: todo, m, h => by
    rw [updateNumOccsLoop_cons]
    split
    · next hy =>
      have hsum := sum_expandedAppsList_expand hy.1 hy.2 todo fun u => u.args.length
      have hlen : walkLength (bumpOcc y m) (y.args.reverse ++ todo) ≤ fuel := by
        simp only [walkLength, List.length_cons, List.length_append, List.length_reverse,
          expandedAppsList_perm (List.reverse_perm _ |>.append_right todo), Expr.args_erase,
          List.length_map] at h hsum ⊢
        omega
      exact WalkedFrom.expand hy.1 hy.2 ((updateNumOccsLoop_walked fuel _ _ hlen).perm
        (List.reverse_perm _ |>.append_right todo))
    · next hy =>
      have hR : expandedAppsList (bumpOcc y m) todo = expandedAppsList m todo :=
        expandedAppsList_congr fun c _ => expandedApps_bumpOcc_of_not_mem (erase_not_mem_expandedApps hy c)
      have hlen : walkLength (bumpOcc y m) todo ≤ fuel := by
        simp only [walkLength, hR, List.length_cons, expandedAppsList, expandedApps_eq_empty hy,
          Finset.empty_union] at h ⊢
        omega
      exact (WalkedFrom.bumpOcc hy).append (updateNumOccsLoop_walked fuel todo _ hlen)

/-! ## The bound -/

theorem sum_expandedAppsList_le (m : List (Expr × Nat)) (g : Expr → Nat) :
    ∀ L : List Expr, (∀ c ∈ L, ∑ u ∈ expandedApps m c, g u < c.size) →
      ∑ u ∈ expandedAppsList m L, g u + L.length ≤ Expr.sizeList L
  | [] => fun _ => by simp only [expandedAppsList, Finset.sum_empty, List.length_nil, Expr.sizeList, le_refl]
  | y :: L => fun h => by
    have hy := h y (List.mem_cons_self y L)
    have hL := sum_expandedAppsList_le m g L fun c hc => h c (List.mem_cons_of_mem y hc)
    have hunion : ∑ u ∈ expandedApps m y ∪ expandedAppsList m L, g u +
        ∑ u ∈ expandedApps m y ∩ expandedAppsList m L, g u =
          ∑ u ∈ expandedApps m y, g u + ∑ u ∈ expandedAppsList m L, g u :=
      Finset.sum_union_inter
    simp only [expandedAppsList, List.length_cons, Expr.sizeList]
    omega

/-- The source's loop from `x` takes fewer steps than `x` has nodes. -/
theorem sum_expandedApps_args_lt (m : List (Expr × Nat)) (x : Expr) :
    ∑ u ∈ expandedApps m x, u.args.length < x.size := by
  by_cases hx : x.isApp = true ∧ occsOf x m = 0
  · have hL := sum_expandedAppsList_le m (fun u => u.args.length) x.args fun c hc =>
      sum_expandedApps_args_lt m c
    dsimp only at hL
    rw [expandedApps_app hx.1 hx.2, Finset.sum_insert (erase_not_mem_expandedAppsList_args x),
      Expr.args_erase, List.length_map, Expr.size_eq_sizeList_args hx.1]
    omega
  · rw [expandedApps_eq_empty hx, Finset.sum_empty]
    exact x.size_pos
termination_by x.size
decreasing_by exact Expr.size_lt_of_mem_args hc

theorem walkLength_singleton_le (m : List (Expr × Nat)) (x : Expr) : walkLength m [x] ≤ x.size := by
  have := sum_expandedApps_args_lt m x
  simp only [walkLength, List.length_singleton, expandedAppsList, Finset.union_empty]
  omega

/-! ## Refinement -/

/-- **The model's counts are the source's.** From the empty map of a new scope, with fuel for
every step (the size of `e`), the source's worklist loop leaves each term with the count
`updateNumOccs` gives it: one for `e` itself when it is `e`, and one per argument equal to it of
each application the walk expands. -/
theorem numOccs_refines_source (e : Expr) (fuel : Nat) (hfuel : e.size ≤ fuel) (t : Expr) :
    occsOf t (updateNumOccsLoop fuel [e] []) = occsOf t (updateNumOccs [] e) ∧
      occsOf t (updateNumOccs [] e) =
        (if erase t = erase e then 1 else 0) + ∑ u ∈ expandedApps [] e, argCount t u := by
  have hmodel := (updateNumOccs_walked [] e).count_singleton t
  have hloop := (updateNumOccsLoop_walked fuel [e] [] ((walkLength_singleton_le [] e).trans hfuel)).count_singleton t
  simp only [occsOf, Nat.zero_add] at hmodel hloop
  exact ⟨hloop.trans hmodel.symm, hmodel⟩

/-- `f (g #0) (g #0)`: an argument met twice. -/
def repeatedArg : Expr :=
  .app (.constant "f" none) (.app (.constant "g" none) (.var 0) []) [.app (.constant "g" none) (.var 0) []]

theorem numOccs_refines_source_repeatedArg :
    repeatedArg.size ≤ 8 ∧
      (occsOf (.app (.constant "g" none) (.var 0) []) (updateNumOccsLoop 8 [repeatedArg] []) =
          occsOf (.app (.constant "g" none) (.var 0) []) (updateNumOccs [] repeatedArg) ∧
        occsOf (.app (.constant "g" none) (.var 0) []) (updateNumOccs [] repeatedArg) =
          (if erase (.app (.constant "g" none) (.var 0) []) = erase repeatedArg then 1 else 0) +
            ∑ u ∈ expandedApps [] repeatedArg, argCount (.app (.constant "g" none) (.var 0) []) u) :=
  ⟨by decide, numOccs_refines_source repeatedArg 8 (by decide) _⟩

example : occsOf (.app (.constant "g" none) (.var 0) []) (updateNumOccsLoop 8 [repeatedArg] []) = 2 ∧
    occsOf (.var 0) (updateNumOccsLoop 8 [repeatedArg] []) = 1 := by decide

end LeanKernel
