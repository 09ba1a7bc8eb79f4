import LeanKernel.Instantiate

/-!
# The substitution algebra

`lift_free_vars` and `instantiate_core` are `replace` passes whose callbacks act on variables and
metavariables only (`LeafFn`). Two such passes in a row are one pass when they agree on every leaf
the traversal reaches, at the number of binders crossed there (`replace_replace`). The traversal's
induction is done once, here; each identity of lifting and instantiation below is then a check on
one variable and one metavariable.

- `Leaves pv pm o e`: every variable and metavariable `replace` reaches from offset `o` satisfies
  `pv`, `pm` at the offset it is reached at. Having no free variable from `s` and having no
  metavariable are both of this form (`leaves_of_hasFreeVarFrom`, `leaves_of_hasMetavar`).
- `replace_none`, `replace_replace`, `replace_eq_self`: the traversal lemmas.
- Lifting a term without free variables changes nothing (`liftFreeVars_of_closed`); so the closed
  and the general `instantiate_core` coincide on closed substitutions (`instantiateCore_closed`).
- An instantiation undoes a lift that vacated the instantiated variables
  (`instantiate_liftFreeVars`).
-/

namespace LeanKernel

open Expr

/-! ## Leaves -/

/-- Variables and metavariables, the nodes a `LeafFn` may replace. -/
def Expr.isLeaf : Expr → Bool
  | .var _ | .metavar .. => true
  | _ => false

/-- A callback that replaces only variables and metavariables, and descends everywhere else. -/
def LeafFn (f : Expr → Nat → Option Expr) : Prop := ∀ e k, e.isLeaf = false → f e k = none

mutual
/-- Every variable `var i` and every metavariable that `replace` reaches from offset `o`
satisfies `pv i k` or `pm m l k`, where `k` is the offset it is reached at. -/
def Leaves (pv : Nat → Nat → Prop) (pm : Name → List (LocalEntry Expr) → Nat → Prop) (o : Nat) :
    Expr → Prop
  | .var i => pv i o
  | .metavar m l => pm m l o
  | .constant .. | .type _ | .value _ => True
  | .app f a as => Leaves pv pm o f ∧ Leaves pv pm o a ∧ LeavesList pv pm o as
  | .abst _ _ d b => Leaves pv pm o d ∧ Leaves pv pm (o + 1) b
  | .let _ none v b => Leaves pv pm o v ∧ Leaves pv pm (o + 1) b
  | .let _ (some t) v b => Leaves pv pm o t ∧ Leaves pv pm o v ∧ Leaves pv pm (o + 1) b
  | .heq l r => Leaves pv pm o l ∧ Leaves pv pm o r
  | .pair a b t => Leaves pv pm o a ∧ Leaves pv pm o b ∧ Leaves pv pm o t
  | .proj _ a => Leaves pv pm o a
termination_by structural e => e
/-- `Leaves` on the arguments of an application. -/
def LeavesList (pv : Nat → Nat → Prop) (pm : Name → List (LocalEntry Expr) → Nat → Prop)
    (o : Nat) : List Expr → Prop
  | [] => True
  | e :: es => Leaves pv pm o e ∧ LeavesList pv pm o es
end

section Mono

variable {pv pv' : Nat → Nat → Prop} {pm pm' : Name → List (LocalEntry Expr) → Nat → Prop}

mutual
theorem Leaves.mono (hv : ∀ i k, pv i k → pv' i k) (hm : ∀ m l k, pm m l k → pm' m l k) :
    ∀ (o : Nat) (e : Expr), Leaves pv pm o e → Leaves pv' pm' o e
  | _, .var i, h => hv i _ h
  | _, .metavar m l, h => hm m l _ h
  | _, .constant .., _ | _, .type _, _ | _, .value _, _ => trivial
  | o, .app f a as, ⟨h₁, h₂, h₃⟩ =>
    ⟨Leaves.mono hv hm o f h₁, Leaves.mono hv hm o a h₂, LeavesList.mono hv hm o as h₃⟩
  | o, .abst _ _ d b, ⟨h₁, h₂⟩ | o, .let _ none d b, ⟨h₁, h₂⟩ =>
    ⟨Leaves.mono hv hm o d h₁, Leaves.mono hv hm (o + 1) b h₂⟩
  | o, .heq l r, ⟨h₁, h₂⟩ => ⟨Leaves.mono hv hm o l h₁, Leaves.mono hv hm o r h₂⟩
  | o, .let _ (some t) v b, ⟨h₁, h₂, h₃⟩ =>
    ⟨Leaves.mono hv hm o t h₁, Leaves.mono hv hm o v h₂, Leaves.mono hv hm (o + 1) b h₃⟩
  | o, .pair a b t, ⟨h₁, h₂, h₃⟩ =>
    ⟨Leaves.mono hv hm o a h₁, Leaves.mono hv hm o b h₂, Leaves.mono hv hm o t h₃⟩
  | o, .proj _ a, h => Leaves.mono hv hm o a h
theorem LeavesList.mono (hv : ∀ i k, pv i k → pv' i k) (hm : ∀ m l k, pm m l k → pm' m l k) :
    ∀ (o : Nat) (es : List Expr), LeavesList pv pm o es → LeavesList pv' pm' o es
  | _, [], _ => trivial
  | o, e :: es, ⟨h₁, h₂⟩ => ⟨Leaves.mono hv hm o e h₁, LeavesList.mono hv hm o es h₂⟩
end

end Mono

mutual
/-- No free variable from `low` on means every variable reached at offset `k` lies below
`low + k`, and no metavariable is reached. -/
theorem leaves_of_hasFreeVarFrom (low : Nat) : ∀ (o : Nat) (e : Expr),
    hasFreeVarFrom low o e = false → Leaves (fun i k => i < low + k) (fun _ _ _ => False) o e
  | _, .var _, h => by simpa [hasFreeVarFrom] using h
  | _, .metavar .., h => Bool.noConfusion h
  | _, .constant .., _ | _, .type _, _ | _, .value _, _ => trivial
  | o, .app f a as, h => by
    simp only [hasFreeVarFrom, Bool.or_eq_false_iff] at h
    exact ⟨leaves_of_hasFreeVarFrom low o f h.1.1, leaves_of_hasFreeVarFrom low o a h.1.2,
      leavesList_of_hasFreeVarFrom low o as h.2⟩
  | o, .abst _ _ d b, h | o, .let _ none d b, h => by
    simp only [hasFreeVarFrom, Bool.or_eq_false_iff] at h
    exact ⟨leaves_of_hasFreeVarFrom low o d h.1, leaves_of_hasFreeVarFrom low (o + 1) b h.2⟩
  | o, .heq l r, h => by
    simp only [hasFreeVarFrom, Bool.or_eq_false_iff] at h
    exact ⟨leaves_of_hasFreeVarFrom low o l h.1, leaves_of_hasFreeVarFrom low o r h.2⟩
  | o, .let _ (some t) v b, h => by
    simp only [hasFreeVarFrom, Bool.or_eq_false_iff] at h
    exact ⟨leaves_of_hasFreeVarFrom low o t h.1.1, leaves_of_hasFreeVarFrom low o v h.1.2,
      leaves_of_hasFreeVarFrom low (o + 1) b h.2⟩
  | o, .pair a b t, h => by
    simp only [hasFreeVarFrom, Bool.or_eq_false_iff] at h
    exact ⟨leaves_of_hasFreeVarFrom low o a h.1.1, leaves_of_hasFreeVarFrom low o b h.1.2,
      leaves_of_hasFreeVarFrom low o t h.2⟩
  | o, .proj _ a, h => leaves_of_hasFreeVarFrom low o a h
theorem leavesList_of_hasFreeVarFrom (low : Nat) : ∀ (o : Nat) (es : List Expr),
    hasFreeVarFromList low o es = false →
      LeavesList (fun i k => i < low + k) (fun _ _ _ => False) o es
  | _, [], _ => trivial
  | o, e :: es, h => by
    simp only [hasFreeVarFromList, Bool.or_eq_false_iff] at h
    exact ⟨leaves_of_hasFreeVarFrom low o e h.1, leavesList_of_hasFreeVarFrom low o es h.2⟩
end

mutual
/-- A term without metavariables reaches no metavariable, from any offset. -/
theorem leaves_of_hasMetavar : ∀ (o : Nat) (e : Expr),
    hasMetavar e = false → Leaves (fun _ _ => True) (fun _ _ _ => False) o e
  | _, .var _, _ | _, .constant .., _ | _, .type _, _ | _, .value _, _ => trivial
  | _, .metavar .., h => Bool.noConfusion h
  | o, .app f a as, h => by
    simp only [hasMetavar, Bool.or_eq_false_iff] at h
    exact ⟨leaves_of_hasMetavar o f h.1.1, leaves_of_hasMetavar o a h.1.2,
      leavesList_of_hasMetavar o as h.2⟩
  | o, .abst _ _ d b, h | o, .let _ none d b, h => by
    simp only [hasMetavar, Bool.or_eq_false_iff] at h
    exact ⟨leaves_of_hasMetavar o d h.1, leaves_of_hasMetavar (o + 1) b h.2⟩
  | o, .heq l r, h => by
    simp only [hasMetavar, Bool.or_eq_false_iff] at h
    exact ⟨leaves_of_hasMetavar o l h.1, leaves_of_hasMetavar o r h.2⟩
  | o, .let _ (some t) v b, h => by
    simp only [hasMetavar, Bool.or_eq_false_iff] at h
    exact ⟨leaves_of_hasMetavar o t h.1.1, leaves_of_hasMetavar o v h.1.2,
      leaves_of_hasMetavar (o + 1) b h.2⟩
  | o, .pair a b t, h => by
    simp only [hasMetavar, Bool.or_eq_false_iff] at h
    exact ⟨leaves_of_hasMetavar o a h.1.1, leaves_of_hasMetavar o b h.1.2,
      leaves_of_hasMetavar o t h.2⟩
  | o, .proj _ a, h => leaves_of_hasMetavar o a h
theorem leavesList_of_hasMetavar : ∀ (o : Nat) (es : List Expr),
    hasMetavarList es = false → LeavesList (fun _ _ => True) (fun _ _ _ => False) o es
  | _, [], _ => trivial
  | o, e :: es, h => by
    simp only [hasMetavarList, Bool.or_eq_false_iff] at h
    exact ⟨leaves_of_hasMetavar o e h.1, leavesList_of_hasMetavar o es h.2⟩
end

section Everywhere

variable {pv : Nat → Nat → Prop} {pm : Name → List (LocalEntry Expr) → Nat → Prop}

mutual
/-- Predicates that hold at every leaf hold at the leaves of every term. -/
theorem leaves_of_forall (hv : ∀ i k, pv i k) (hm : ∀ m l k, pm m l k) :
    ∀ (o : Nat) (e : Expr), Leaves pv pm o e
  | _, .var i => hv i _
  | _, .metavar m l => hm m l _
  | _, .constant .. | _, .type _ | _, .value _ => trivial
  | o, .app f a as => ⟨leaves_of_forall hv hm o f, leaves_of_forall hv hm o a,
      leavesList_of_forall hv hm o as⟩
  | o, .abst _ _ d b | o, .let _ none d b =>
    ⟨leaves_of_forall hv hm o d, leaves_of_forall hv hm (o + 1) b⟩
  | o, .heq l r => ⟨leaves_of_forall hv hm o l, leaves_of_forall hv hm o r⟩
  | o, .let _ (some t) v b =>
    ⟨leaves_of_forall hv hm o t, leaves_of_forall hv hm o v, leaves_of_forall hv hm (o + 1) b⟩
  | o, .pair a b t =>
    ⟨leaves_of_forall hv hm o a, leaves_of_forall hv hm o b, leaves_of_forall hv hm o t⟩
  | o, .proj _ a => leaves_of_forall hv hm o a
theorem leavesList_of_forall (hv : ∀ i k, pv i k) (hm : ∀ m l k, pm m l k) :
    ∀ (o : Nat) (es : List Expr), LeavesList pv pm o es
  | _, [] => trivial
  | o, e :: es => ⟨leaves_of_forall hv hm o e, leavesList_of_forall hv hm o es⟩
end

end Everywhere

/-! ## The traversal lemmas -/

mutual
/-- A pass whose callback never fires is the identity. -/
theorem replace_none : ∀ (o : Nat) (e : Expr), replace (fun _ _ => none) o e = e
  | _, .var _ | _, .constant .. | _, .type _ | _, .value _ | _, .metavar .. => rfl
  | o, .app f a as => by
    rw [replace_app rfl, replace_none o f, replace_none o a, replaceList_none o as]
  | o, .abst _ _ d b => by rw [replace_abst rfl, replace_none o d, replace_none (o + 1) b]
  | o, .let _ none v b => by rw [replace_let_none rfl, replace_none o v, replace_none (o + 1) b]
  | o, .let _ (some t) v b => by
    rw [replace_let_some rfl, replace_none o t, replace_none o v, replace_none (o + 1) b]
  | o, .heq l r => by rw [replace_heq rfl, replace_none o l, replace_none o r]
  | o, .pair a b t => by rw [replace_pair rfl, replace_none o a, replace_none o b, replace_none o t]
  | o, .proj _ a => by rw [replace_proj rfl, replace_none o a]
theorem replaceList_none : ∀ (o : Nat) (es : List Expr), replaceList (fun _ _ => none) o es = es
  | _, [] => rfl
  | o, e :: es => by rw [replaceList_cons, replace_none o e, replaceList_none o es]
end

section Fuse

variable {F G H : Expr → Nat → Option Expr} {cF cG cH : Nat}

/-- The pass `G` (from offset `cG`) after the pass `F` (from `cF`) agrees with the pass `H` (from
`cH`) on the leaf `x` reached after `k` binders. -/
def FuseAt (F G H : Expr → Nat → Option Expr) (cF cG cH : Nat) (x : Expr) (k : Nat) : Prop :=
  replace G (cG + k) (replace F (cF + k) x) = replace H (cH + k) x

mutual
/-- **Fusion.** Two passes of leaf callbacks in a row are the pass `H` when they agree with it on
every leaf reached. -/
theorem replace_replace (hF : LeafFn F) (hG : LeafFn G) (hH : LeafFn H) : ∀ (o : Nat) (e : Expr),
    Leaves (fun i => FuseAt F G H cF cG cH (.var i)) (fun m l => FuseAt F G H cF cG cH (.metavar m l))
      o e →
    replace G (cG + o) (replace F (cF + o) e) = replace H (cH + o) e
  | _, .var _, h | _, .metavar .., h => h
  | _, .constant .., _ => by
    rw [replace_constant (hF _ _ rfl), replace_constant (hG _ _ rfl), replace_constant (hH _ _ rfl)]
  | _, .type _, _ => by
    rw [replace_type (hF _ _ rfl), replace_type (hG _ _ rfl), replace_type (hH _ _ rfl)]
  | _, .value _, _ => by
    rw [replace_value (hF _ _ rfl), replace_value (hG _ _ rfl), replace_value (hH _ _ rfl)]
  | o, .app f a as, ⟨h₁, h₂, h₃⟩ => by
    rw [replace_app (hF _ _ rfl), replace_app (hG _ _ rfl), replace_app (hH _ _ rfl),
      replace_replace hF hG hH o f h₁, replace_replace hF hG hH o a h₂,
      replaceList_replaceList hF hG hH o as h₃]
  | o, .abst k n d b, ⟨h₁, h₂⟩ => by
    rw [replace_abst (hF _ _ rfl), replace_abst (hG _ _ rfl), replace_abst (hH _ _ rfl),
      replace_replace hF hG hH o d h₁]
    exact congrArg (Expr.abst k n _) (replace_replace hF hG hH (o + 1) b h₂)
  | o, .let n none v b, ⟨h₁, h₂⟩ => by
    rw [replace_let_none (hF _ _ rfl), replace_let_none (hG _ _ rfl), replace_let_none (hH _ _ rfl),
      replace_replace hF hG hH o v h₁]
    exact congrArg (Expr.let n none _) (replace_replace hF hG hH (o + 1) b h₂)
  | o, .let n (some t) v b, ⟨h₁, h₂, h₃⟩ => by
    rw [replace_let_some (hF _ _ rfl), replace_let_some (hG _ _ rfl), replace_let_some (hH _ _ rfl),
      replace_replace hF hG hH o t h₁, replace_replace hF hG hH o v h₂]
    exact congrArg (Expr.let n _ _) (replace_replace hF hG hH (o + 1) b h₃)
  | o, .heq l r, ⟨h₁, h₂⟩ => by
    rw [replace_heq (hF _ _ rfl), replace_heq (hG _ _ rfl), replace_heq (hH _ _ rfl),
      replace_replace hF hG hH o l h₁, replace_replace hF hG hH o r h₂]
  | o, .pair a b t, ⟨h₁, h₂, h₃⟩ => by
    rw [replace_pair (hF _ _ rfl), replace_pair (hG _ _ rfl), replace_pair (hH _ _ rfl),
      replace_replace hF hG hH o a h₁, replace_replace hF hG hH o b h₂,
      replace_replace hF hG hH o t h₃]
  | o, .proj _ a, h => by
    rw [replace_proj (hF _ _ rfl), replace_proj (hG _ _ rfl), replace_proj (hH _ _ rfl),
      replace_replace hF hG hH o a h]
theorem replaceList_replaceList (hF : LeafFn F) (hG : LeafFn G) (hH : LeafFn H) :
    ∀ (o : Nat) (es : List Expr),
    LeavesList (fun i => FuseAt F G H cF cG cH (.var i))
      (fun m l => FuseAt F G H cF cG cH (.metavar m l)) o es →
    replaceList G (cG + o) (replaceList F (cF + o) es) = replaceList H (cH + o) es
  | _, [], _ => rfl
  | o, e :: es, ⟨h₁, h₂⟩ => by
    rw [replaceList_cons, replaceList_cons, replaceList_cons, replace_replace hF hG hH o e h₁,
      replaceList_replaceList hF hG hH o es h₂]
end

end Fuse

theorem leafFn_none : LeafFn fun _ _ => none := fun _ _ _ => rfl

theorem liftFn_leaf (s d : Nat) : LeafFn (liftFn s d) := by
  intro e k h
  cases e <;> first | rfl | cases h

theorem instantiateFn_leaf (closedSubst : Bool) (s : Nat) (subst : List Expr) :
    LeafFn (instantiateFn closedSubst s subst) := by
  intro e k h
  cases e <;> first | rfl | cases h

theorem replace_var_eq (f : Expr → Nat → Option Expr) (o i : Nat) :
    replace f o (.var i) = (f (.var i) o).getD (.var i) := rfl

theorem replace_metavar_eq (f : Expr → Nat → Option Expr) (o : Nat) (m : Name)
    (l : List (LocalEntry Expr)) : replace f o (.metavar m l) = (f (.metavar m l) o).getD (.metavar m l) :=
  rfl

/-- The general `instantiate_core` on a variable, `o` binders deep. -/
theorem replace_instantiateFn_var (s o i : Nat) (subst : List Expr) :
    replace (instantiateFn false s subst) o (.var i) =
      if o + s ≤ i then
        if i < o + s + subst.length then
          liftFreeVars (subst.getD (subst.length - (i - s - o) - 1) default) 0 o
        else .var (i - subst.length)
      else .var i := by
  simp only [replace_var_eq, instantiateFn, Bool.false_eq_true, if_false]
  split <;> (try split) <;> rfl

/-- `lift_free_vars` on a variable, `o` binders deep. -/
theorem replace_liftFn_var (s d o i : Nat) :
    replace (liftFn s d) o (.var i) = if s + o ≤ i then .var (i + d) else .var i := by
  simp only [replace_var_eq, liftFn]
  split <;> rfl

/-- A pass of a leaf callback that fixes every leaf reached is the identity. -/
theorem replace_eq_self {F : Expr → Nat → Option Expr} (hF : LeafFn F) {c o : Nat} {e : Expr}
    (h : Leaves (fun i k => replace F (c + k) (.var i) = .var i)
      (fun m l k => replace F (c + k) (.metavar m l) = .metavar m l) o e) :
    replace F (c + o) e = e := by
  have fuse : replace (fun _ _ => none) (0 + o) (replace F (c + o) e) =
      replace (fun _ _ => none) (0 + o) e :=
    replace_replace hF leafFn_none leafFn_none o e
      (Leaves.mono (fun i k hi => by simp only [FuseAt, replace_none, hi])
        (fun m l k hm => by simp only [FuseAt, replace_none, hm]) o e h)
  rwa [replace_none, replace_none] at fuse

/-- **Passes that agree on the leaves are equal.** -/
theorem replace_congr {F H : Expr → Nat → Option Expr} (hF : LeafFn F) (hH : LeafFn H) {cF cH : Nat}
    (h : ∀ (x : Expr) (k : Nat), x.isLeaf = true → replace F (cF + k) x = replace H (cH + k) x)
    (o : Nat) (e : Expr) : replace F (cF + o) e = replace H (cH + o) e := by
  have fuse : replace (fun _ _ => none) (0 + o) (replace F (cF + o) e) = replace H (cH + o) e :=
    replace_replace hF leafFn_none hH o e (leaves_of_forall
      (fun i k => by simp only [FuseAt, replace_none]; exact h _ k rfl)
      (fun m l k => by simp only [FuseAt, replace_none]; exact h _ k rfl) o e)
  rwa [replace_none] at fuse

/-! ## Lifting closed terms -/

/-- **Lifting changes nothing where there is nothing to lift.** -/
theorem liftFreeVars_of_hasFreeVar {e : Expr} {s : Nat} (h : hasFreeVar e s = false) (d : Nat) :
    liftFreeVars e s d = e :=
  replace_eq_self (liftFn_leaf s d) (Leaves.mono
    (fun i k hi => by simp only [replace_var_eq, liftFn, Nat.zero_add]; rw [if_neg (by omega)]; rfl)
    (fun _ _ _ hm => hm.elim) 0 e (leaves_of_hasFreeVarFrom s 0 e h))

theorem getD_mem_of_lt {l : List Expr} {j : Nat} (hj : j < l.length) : l.getD j default ∈ l := by
  rw [List.getD_eq_getElem?_getD, List.getElem?_eq_getElem hj, Option.getD_some]
  exact List.getElem_mem hj

section Closed

variable {subst : List Expr} (hs : ∀ v ∈ subst, hasFreeVar v 0 = false)
include hs

/-- At a metavariable, the closed and the general loop record the same entries. -/
theorem instMetavar_closed (s o : Nat) (r : Expr) :
    instMetavar true s o r subst = instMetavar false s o r subst := by
  induction subst generalizing r with
  | nil => rfl
  | cons v rest ih =>
    simp only [instMetavar, if_true, Bool.false_eq_true, if_false,
      liftFreeVars_of_hasFreeVar (hs v (List.mem_cons_self _ _))]
    exact ih (fun w hw => hs w (List.mem_cons_of_mem _ hw)) _

/-- On a closed substitution the two callbacks of `instantiate_core` are the same function. -/
theorem instantiateFn_closed (s : Nat) : instantiateFn true s subst = instantiateFn false s subst := by
  funext e o
  cases e with
  | var i =>
    simp only [instantiateFn, if_true, Bool.false_eq_true, if_false]
    by_cases h₁ : o + s ≤ i
    · by_cases h₂ : i < o + s + subst.length
      · rw [if_pos h₁, if_pos h₂, if_pos h₁, if_pos h₂,
          liftFreeVars_of_hasFreeVar (hs _ (getD_mem_of_lt (by omega)))]
      · rw [if_pos h₁, if_neg h₂, if_pos h₁, if_neg h₂]
    · rw [if_neg h₁, if_neg h₁]
  | metavar m l => exact congrArg some (instMetavar_closed hs s o _)
  | _ => rfl

end Closed

/-- **The fast path agrees with the general path.** On a substitution whose terms have no free
variable (`has_free_var(sᵢ, 0, UINT_MAX)` false, the precondition `instantiate_with_closed`
asserts), `instantiate_with_closed(e, n, s)` and `instantiate(e, n, s)` are the same term. -/
theorem instantiateWithClosed_eq_instantiate (e : Expr) (subst : List Expr)
    (hs : ∀ v ∈ subst, hasFreeVar v 0 = false) :
    instantiateWithClosed e subst = instantiate e 0 subst := by
  unfold instantiateWithClosed instantiate instantiateCore
  rw [instantiateFn_closed hs]

example :
    (∀ v ∈ [Expr.constant "c" none], hasFreeVar v 0 = false) ∧
      instantiateWithClosed (.abst .lambda "x" (.var 0) (.app (.var 1) (.var 0) [])) [.constant "c" none] =
        instantiate (.abst .lambda "x" (.var 0) (.app (.var 1) (.var 0) [])) 0 [.constant "c" none] :=
  ⟨by decide, instantiateWithClosed_eq_instantiate _ _ (by decide)⟩

/-! ## Instantiation after a lift -/

/-- On a variable, instantiating `n` variables from `s` undoes a lift by `n` from `s`. -/
theorem instantiateFn_liftFn_var (s k i : Nat) (subst : List Expr) :
    replace (instantiateFn false s subst) k (replace (liftFn s subst.length) k (.var i)) = .var i := by
  simp only [replace_var_eq, liftFn]
  by_cases h : s + k ≤ i
  · rw [if_pos h, Option.getD_some, replace_var_eq, instantiateFn, if_pos (by omega),
      if_neg (by omega), Option.getD_some, Nat.add_sub_cancel]
  · rw [if_neg h, Option.getD_none, replace_var_eq, instantiateFn, if_neg (by omega)]
    rfl

/-- **A lift undone.** For a term without metavariables, instantiating the `n` variables from `s`
that `lift_free_vars(e, s, n)` has just vacated gives back `e`. -/
theorem instantiate_liftFreeVars (e : Expr) (s : Nat) (subst : List Expr)
    (he : hasMetavar e = false) : instantiate (liftFreeVars e s subst.length) s subst = e := by
  have fuse : replace (instantiateFn false s subst) (0 + 0) (replace (liftFn s subst.length) (0 + 0) e) =
      replace (fun _ _ => none) (0 + 0) e :=
    replace_replace (liftFn_leaf _ _) (instantiateFn_leaf _ _ _) leafFn_none 0 e
      (Leaves.mono
        (fun i k _ => by simp only [FuseAt, Nat.zero_add, replace_none, instantiateFn_liftFn_var])
        (fun _ _ _ hm => hm.elim) 0 e (leaves_of_hasMetavar 0 e he))
  rwa [replace_none] at fuse

theorem instantiate_liftFreeVars_app :
    hasMetavar (.app (.var 0) (.var 3) [.constant "c" none]) = false ∧
      instantiate (liftFreeVars (.app (.var 0) (.var 3) [.constant "c" none]) 1 2) 1
          [.constant "a" none, .constant "b" none] =
        .app (.var 0) (.var 3) [.constant "c" none] :=
  ⟨rfl, instantiate_liftFreeVars _ 1 [.constant "a" none, .constant "b" none] rfl⟩


/-! ## Composing passes -/

section Compose

variable {F G F' G' : Expr → Nat → Option Expr} {cF cG cF' cG' : Nat}

/-- The pass `G` (from `cG`) after the pass `F` (from `cF`), as one callback on the leaves. -/
def fuseFn (F G : Expr → Nat → Option Expr) (cF cG : Nat) (x : Expr) (k : Nat) : Option Expr :=
  if x.isLeaf then some (replace G (cG + k) (replace F (cF + k) x)) else none

theorem fuseFn_leaf (F G : Expr → Nat → Option Expr) (cF cG : Nat) : LeafFn (fuseFn F G cF cG) :=
  fun _ _ h => by simp only [fuseFn, h, Bool.false_eq_true, if_false]

/-- Two leaf passes in a row are the one pass of `fuseFn`. -/
theorem replace_replace_fuseFn (hF : LeafFn F) (hG : LeafFn G) (o : Nat) (e : Expr) :
    replace G (cG + o) (replace F (cF + o) e) = replace (fuseFn F G cF cG) (0 + o) e :=
  replace_replace hF hG (fuseFn_leaf F G cF cG) o e (leaves_of_forall
    (fun i k => by simp only [FuseAt, replace_var_eq, fuseFn, Expr.isLeaf, if_true, Option.getD_some,
      Nat.zero_add])
    (fun m l k => by simp only [FuseAt, replace_metavar_eq, fuseFn, Expr.isLeaf, if_true,
      Option.getD_some, Nat.zero_add]) o e)

/-- **Commuting passes.** Two compositions of leaf passes are equal when they agree on every
leaf. -/
theorem replace_replace_comm (hF : LeafFn F) (hG : LeafFn G) (hF' : LeafFn F') (hG' : LeafFn G')
    (h : ∀ (x : Expr) (k : Nat), x.isLeaf = true →
      replace G (cG + k) (replace F (cF + k) x) = replace G' (cG' + k) (replace F' (cF' + k) x))
    (o : Nat) (e : Expr) :
    replace G (cG + o) (replace F (cF + o) e) = replace G' (cG' + o) (replace F' (cF' + o) e) := by
  rw [replace_replace_fuseFn hF hG, replace_replace_fuseFn hF' hG']
  congr 1
  funext x k
  unfold fuseFn
  by_cases hx : x.isLeaf = true
  · rw [if_pos hx, if_pos hx, h x k hx]
  · rw [if_neg hx, if_neg hx]

end Compose

/-! ## Lifts -/

/-- Lifting from `s` at `k` binders deep is lifting from `s + k` at the root. -/
theorem replace_liftFn_shift (s k d : Nat) (u : Expr) :
    replace (liftFn (s + k) d) 0 u = replace (liftFn s d) k u := by
  have h : replace (liftFn (s + k) d) (0 + 0) u = replace (liftFn s d) (k + 0) u :=
    replace_congr (liftFn_leaf _ _) (liftFn_leaf _ _) (fun x j hx => by
      cases x with
      | var i => simp only [replace_liftFn_var, Nat.zero_add, Nat.add_assoc]
      | metavar m l => simp only [replace_metavar_eq, liftFn, Nat.zero_add, Nat.add_assoc]
      | _ => cases hx) 0 u
  simpa only [Nat.add_zero] using h

/-- A lift by `0` changes nothing. -/
theorem replace_liftFn_zero (s o : Nat) (e : Expr) : replace (liftFn s 0) o e = e := by
  have h : replace (liftFn s 0) (0 + o) e = replace (fun _ _ => none) (0 + o) e :=
    replace_congr (liftFn_leaf _ _) leafFn_none (fun x k hx => by
      cases x with
      | var i => rw [replace_liftFn_var, replace_none]; split <;> rfl
      | metavar m l => simp [replace_metavar_eq, liftFn, addLift, replace_none]
      | _ => cases hx) o e
  rwa [Nat.zero_add, replace_none] at h

/-- Two lifts from `0` add up, on a term without metavariables. -/
theorem liftFreeVars_liftFreeVars {b : Expr} (hb : hasMetavar b = false) (p q : Nat) :
    liftFreeVars (liftFreeVars b 0 p) 0 q = liftFreeVars b 0 (p + q) := by
  have fuse : replace (liftFn 0 q) (0 + 0) (replace (liftFn 0 p) (0 + 0) b) =
      replace (liftFn 0 (p + q)) (0 + 0) b :=
    replace_replace (liftFn_leaf _ _) (liftFn_leaf _ _) (liftFn_leaf _ _) 0 b
      (Leaves.mono (fun i k _ => by
          simp only [FuseAt, replace_liftFn_var, Nat.zero_add]
          by_cases hi : k ≤ i
          · rw [if_pos hi, if_pos hi, replace_liftFn_var, if_pos (by omega), Nat.add_assoc]
          · rw [if_neg hi, if_neg hi, replace_liftFn_var, Nat.zero_add, if_neg hi])
        (fun _ _ _ hm => hm.elim) 0 b (leaves_of_hasMetavar 0 b hb))
  simpa only [Nat.add_zero] using fuse

/-! ## Splitting an instantiation -/

/-- The general `instantiate` from index `0` on a variable, `o` binders deep. -/
theorem replace_instantiateFn_zero_var (o i : Nat) (subst : List Expr) :
    replace (instantiateFn false 0 subst) o (.var i) =
      if o ≤ i then
        if i < o + subst.length then
          liftFreeVars (subst.getD (subst.length - (i - o) - 1) default) 0 o
        else .var (i - subst.length)
      else .var i := by
  simp only [replace_instantiateFn_var, Nat.add_zero, Nat.sub_zero]

/-- Instantiating no variable changes nothing. -/
theorem replace_instantiateFn_nil (o : Nat) (e : Expr) :
    replace (instantiateFn false 0 []) o e = e := by
  have h : replace (instantiateFn false 0 []) (0 + o) e = replace (fun _ _ => none) (0 + o) e :=
    replace_congr (instantiateFn_leaf false 0 []) leafFn_none (fun x k hx => by
      cases x with
      | var i =>
        rw [replace_instantiateFn_zero_var, replace_none]
        by_cases hi : 0 + k ≤ i
        · rw [if_pos hi, if_neg (by simp only [List.length_nil]; omega), List.length_nil, Nat.sub_zero]
        · rw [if_neg hi]
      | metavar m l => rfl
      | _ => cases hx) o e
  rwa [Nat.zero_add, replace_none] at h

/-- Lifting `a` over `|as| + k` binders and then instantiating the `|as|` variables above the
first `k` leaves `a` lifted over `k`. -/
theorem instantiate_liftFreeVars_shift {a : Expr} (ha : hasMetavar a = false) (as : List Expr)
    (k : Nat) :
    replace (instantiateFn false 0 as) k (liftFreeVars a 0 (as.length + k)) = liftFreeVars a 0 k := by
  have fuse : replace (instantiateFn false 0 as) (k + 0)
      (replace (liftFn 0 (as.length + k)) (0 + 0) a) = replace (liftFn 0 k) (0 + 0) a :=
    replace_replace (liftFn_leaf _ _) (instantiateFn_leaf _ _ _) (liftFn_leaf _ _) 0 a
      (Leaves.mono (fun i d _ => by
          simp only [FuseAt, replace_liftFn_var, Nat.zero_add]
          by_cases hi : d ≤ i
          · rw [if_pos hi, if_pos hi, replace_instantiateFn_zero_var, if_pos (by omega),
              if_neg (by omega)]
            congr 1
            omega
          · rw [if_neg hi, if_neg hi, replace_instantiateFn_zero_var, if_neg (by omega)])
        (fun _ _ _ hm => hm.elim) 0 a (leaves_of_hasMetavar 0 a ha))
  simpa only [Nat.add_zero] using fuse

/-- **One instantiation is two.** Instantiating `a :: as` from `o` is instantiating `a` at the
outermost index `o + |as|`, then `as` from `o`, when `a` has no metavariables. -/
theorem replace_instantiateFn_cons {a : Expr} (ha : hasMetavar a = false) (as : List Expr)
    (o : Nat) (e : Expr) :
    replace (instantiateFn false 0 as) o (replace (instantiateFn false 0 [a]) (as.length + o) e) =
      replace (instantiateFn false 0 (a :: as)) o e := by
  have fuse : replace (instantiateFn false 0 as) (0 + o)
      (replace (instantiateFn false 0 [a]) (as.length + o) e) =
      replace (instantiateFn false 0 (a :: as)) (0 + o) e :=
    replace_replace (instantiateFn_leaf _ _ _) (instantiateFn_leaf _ _ _) (instantiateFn_leaf _ _ _)
      o e (leaves_of_forall (fun i k => ?_) (fun m l k => ?_) o e)
  · rwa [Nat.zero_add] at fuse
  · simp only [FuseAt, Nat.zero_add, replace_instantiateFn_zero_var, List.length_cons,
      List.length_nil]
    by_cases h₁ : i < k
    · rw [if_neg (by omega), if_neg (by omega), replace_instantiateFn_zero_var, if_neg (by omega)]
    by_cases h₂ : i < k + as.length
    · have hj : as.length + 1 - (i - k) - 1 = (as.length - (i - k) - 1) + 1 := by omega
      rw [if_neg (by omega), if_pos (by omega), if_pos (by omega), replace_instantiateFn_zero_var,
        if_pos (by omega), if_pos h₂, hj, List.getD_cons_succ]
    by_cases h₃ : i = as.length + k
    · have hj : as.length + 1 - (i - k) - 1 = 0 := by omega
      have hj' : 1 - (i - (as.length + k)) - 1 = 0 := by omega
      rw [if_pos (by omega), if_pos (by omega), if_pos (by omega), if_pos (by omega), hj, hj',
        List.getD_cons_zero, List.getD_cons_zero]
      exact instantiate_liftFreeVars_shift ha as k
    · rw [if_pos (by omega), if_neg (by omega), if_pos (by omega), if_neg (by omega),
        replace_instantiateFn_zero_var, if_pos (by omega), if_neg (by omega), Nat.sub_sub,
        Nat.add_comm 1]
  · simp only [FuseAt, replace_metavar_eq, instantiateFn, Option.getD_some, instMetavar, addInst,
      List.length_nil, List.length_cons, Nat.zero_add, Nat.add_zero, Bool.false_eq_true, if_false,
      Nat.add_comm k]

/-- Instantiating `Var p` by `b` lifted over `p` is instantiating from `0` by `b`, `p` binders deep,
for `b` without metavariables: the entry `inst:p:(lift b p)` that `instantiate` records. -/
theorem replace_instantiateFn_lifted {b : Expr} (hb : hasMetavar b = false) (p : Nat) (u : Expr) :
    replace (instantiateFn false p [liftFreeVars b 0 p]) 0 u =
      replace (instantiateFn false 0 [b]) p u := by
  have h : replace (instantiateFn false p [liftFreeVars b 0 p]) (0 + 0) u =
      replace (instantiateFn false 0 [b]) (p + 0) u :=
    replace_congr (instantiateFn_leaf _ _ _) (instantiateFn_leaf _ _ _) (fun x k hx => by
      cases x with
      | var i =>
        rw [replace_instantiateFn_var, replace_instantiateFn_zero_var]
        simp only [Nat.zero_add, List.length_cons, List.length_nil]
        by_cases h₁ : k + p ≤ i
        · by_cases h₂ : i < k + p + 1
          · have hj : 1 - (i - p - k) - 1 = 0 := by omega
            have hj' : 1 - (i - (p + k)) - 1 = 0 := by omega
            rw [if_pos h₁, if_pos h₂, if_pos (by omega), if_pos (by omega), hj, hj',
              List.getD_cons_zero, List.getD_cons_zero, liftFreeVars_liftFreeVars hb]
          · rw [if_pos h₁, if_neg h₂, if_pos (by omega), if_neg (by omega)]
        · rw [if_neg h₁, if_neg (by omega)]
      | metavar m l =>
        simp only [replace_metavar_eq, instantiateFn, instMetavar, Option.getD_some, List.length_nil,
          Nat.add_zero, Nat.zero_add, Bool.false_eq_true, if_false, liftFreeVars_liftFreeVars hb,
          Nat.add_comm k p]
      | _ => cases hx) 0 u
  simpa only [Nat.add_zero] using h

end LeanKernel
