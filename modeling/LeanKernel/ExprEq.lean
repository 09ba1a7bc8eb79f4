import LeanKernel.Heap

/-!
# `kernel/expr_eq.h`

`expr_eq_fn<N, UseHash>::apply` on the heap: the pointer test, the hash test (when `UseHash`), the
normaliser `N` on both sides, the kind test, and, for two shared cells, the visited set of pointer
pairs that answers `true` for a pair already entered. The HEq, Pair and Proj cases compare their
children with the plain `operator==` (a fresh `expr_eq_fn<>`), the others recurse through `apply`.

The recursion is bounded by `fuel` (`none` when it runs out), which also stands for the C++ stack
on a normaliser that never reaches a fixpoint. `N` maps pointers to pointers, as `expr const & N(expr
const &)` does.
-/

namespace LeanKernel

/-- The visited set `m_eq_visited` of pointer pairs. -/
abbrev Visited : Type := List (Nat × Nat)

/-- Continue with `k` only while the answer is `true`: `&&`, and the loops' early `return false`. -/
def andThen (r : Option (Bool × Visited)) (k : Visited → Option (Bool × Visited)) :
    Option (Bool × Visited) :=
  match r with
  | some (true, V) => k V
  | r => r

/-- `&&` of two answers of `operator==`. -/
def andEq (r : Option Bool) (k : Unit → Option Bool) : Option Bool :=
  match r with
  | some true => k ()
  | r => r

/-- The loop over the arguments of two applications of equal arity. -/
def applyAll (apply : Visited → Nat → Nat → Option (Bool × Visited)) (V : Visited) :
    List Nat → List Nat → Option (Bool × Visited)
  | a :: as, b :: bs => andThen (apply V a b) fun V => applyAll apply V as bs
  | _, _ => some (true, V)

/-- `apply` on the optional types of two lets: both absent, or both present and equal. -/
def applyOpt (apply : Visited → Nat → Nat → Option (Bool × Visited)) (V : Visited) :
    Option Nat → Option Nat → Option (Bool × Visited)
  | none, none => some (true, V)
  | some a, some b => apply V a b
  | _, _ => some (false, V)

/-- `compare(metavar_lctx(a), metavar_lctx(b), …)`: walk both contexts in step, entries of the same
kind and start, `inst` values compared by `apply`, `lift` amounts by `==`; stop at the first
mismatch, and succeed iff both end together. -/
def applyCtx (apply : Visited → Nat → Nat → Option (Bool × Visited)) (V : Visited) :
    List (LocalEntry Nat) → List (LocalEntry Nat) → Option (Bool × Visited)
  | [], [] => some (true, V)
  | .lift s n :: l, .lift s' n' :: l' =>
    if s = s' ∧ n = n' then applyCtx apply V l l' else some (false, V)
  | .inst s v :: l, .inst s' v' :: l' =>
    if s = s' then andThen (apply V v v') fun V => applyCtx apply V l l' else some (false, V)
  | _, _ => some (false, V)

/-- The `switch` of `apply` on two nodes of the same kind (variables are handled before it), with
`apply` the recursive comparison and `eq` the plain `operator==`. -/
def exprEqNodes (apply : Visited → Nat → Nat → Option (Bool × Visited))
    (eq : Nat → Nat → Option Bool) (V : Visited) : Node Nat → Node Nat → Option (Bool × Visited)
  | .constant n _, b => match b with | .constant m _ => some (n == m, V) | _ => some (false, V)
  | .app f a as, b => match b with
    | .app g c cs =>
      if as.length = cs.length then applyAll apply V (f :: a :: as) (g :: c :: cs)
      else some (false, V)
    | _ => some (false, V)
  | .heq l r, b => match b with
    | .heq l' r' => (andEq (eq l l') fun _ => eq r r').map (·, V)
    | _ => some (false, V)
  | .pair x y t, b => match b with
    | .pair x' y' t' =>
      (andEq (eq x x') fun _ => andEq (eq y y') fun _ => eq t t').map (·, V)
    | _ => some (false, V)
  | .proj i x, b => match b with
    | .proj j y => (andEq (some (i == j)) fun _ => eq x y).map (·, V)
    | _ => some (false, V)
  | .abst _ _ d t, b => match b with
    | .abst _ _ d' t' => andThen (apply V d d') fun V => apply V t t'
    | _ => some (false, V)
  | .type l, b => match b with | .type l' => some (l == l', V) | _ => some (false, V)
  | .value v, b => match b with | .value w => some (v == w, V) | _ => some (false, V)
  | .let _ t v w, b => match b with
    | .let _ t' v' w' =>
      andThen (applyOpt apply V t t') fun V =>
        andThen (apply V v v') fun V => apply V w w'
    | _ => some (false, V)
  | .metavar m l, b => match b with
    | .metavar m' l' => if m = m' then applyCtx apply V l l' else some (false, V)
    | _ => some (false, V)
  | .var _, _ => some (false, V)

/-- `expr_eq_fn<N, UseHash>::apply(a0, b0)` with the visited set `V`, at most `fuel` calls deep. -/
def exprEqApply (h : Heap) : (Nat → Nat) → Bool → Nat → Visited → Nat → Nat →
    Option (Bool × Visited)
  | _, _, 0, _, _, _ => none
  | N, useHash, fuel + 1, V, a0, b0 =>
    if a0 = b0 then some (true, V)
    else if useHash && h.hashOf a0 != h.hashOf b0 then some (false, V)
    else
      let a := N a0
      let b := N b0
      match h[a]?, h[b]? with
      | some ca, some cb =>
        if ca.node.kind ≠ cb.node.kind then some (false, V)
        else
          match ca.node with
          | .var i => some (cb.node == .var i, V)
          | na =>
            if ca.shared && cb.shared && (a, b) ∈ V then some (true, V)
            else
              exprEqNodes (exprEqApply h N useHash fuel)
                (fun x y => (exprEqApply h id true fuel [] x y).map Prod.fst)
                (if ca.shared && cb.shared then (a, b) :: V else V) na cb.node
      | _, _ => none

/-- `operator==` on heap expressions: a fresh `expr_eq_fn<>` with enough fuel for `a`'s depth. -/
def exprEq (h : Heap) (a b : Nat) : Bool :=
  ((exprEqApply h id true (a + 1) [] a b).map Prod.fst).getD false

end LeanKernel

namespace LeanKernel

/-! ## Correctness of `operator==` -/

namespace Heap

/-- The trees at `p` and `q` are alpha-equivalent. -/
def alpha (h : Heap) (p q : Nat) : Bool := Expr.alphaEq (h.expr p) (h.expr q)

/-- The visited pairs whose first cell lies below `k` are alpha-equivalent. The others belong to
comparisons still in progress, whose cells lie above every cell they reach. -/
def VisitedSound (h : Heap) (V : Visited) (k : Nat) : Prop :=
  ∀ p q, (p, q) ∈ V → p < k → h.alpha p q = true

/-- `V'` extends `V` by alpha-equivalent pairs only. -/
def VisitedGrows (h : Heap) (V V' : Visited) : Prop :=
  ∀ p q, (p, q) ∈ V' → (p, q) ∈ V ∨ h.alpha p q = true

/-- The result `r` of a comparison started from `V` is the answer `b`, and an answer `true` adds
only equivalent pairs to `V`. -/
def Answers (h : Heap) (V : Visited) (r : Option (Bool × Visited)) (b : Bool) : Prop :=
  ∃ V', r = some (b, V') ∧ (b = true → h.VisitedGrows V V')

/-- A comparison is correct below `k`: from a visited set sound above `x` it answers `alpha x y`
for every valid `x < k` and `y`. -/
def CmpSpec (h : Heap) (apply : Visited → Nat → Nat → Option (Bool × Visited)) (k : Nat) : Prop :=
  ∀ V x y, x < k → x < h.length → y < h.length → h.VisitedSound V (x + 1) →
    h.Answers V (apply V x y) (h.alpha x y)

variable {h : Heap} {V V' V'' : Visited} {k : Nat}

theorem VisitedSound.mono (hV : h.VisitedSound V k) {k' : Nat} (hk : k' ≤ k) :
    h.VisitedSound V k' :=
  fun p q hpq hp => hV p q hpq (Nat.lt_of_lt_of_le hp hk)

theorem VisitedSound.grow (hV : h.VisitedSound V k) (hg : h.VisitedGrows V V') :
    h.VisitedSound V' k :=
  fun p q hpq hp => (hg p q hpq).elim (fun hm => hV p q hm hp) id

theorem VisitedGrows.refl : h.VisitedGrows V V := fun _ _ hpq => .inl hpq

theorem VisitedGrows.trans (h₁ : h.VisitedGrows V V') (h₂ : h.VisitedGrows V' V'') :
    h.VisitedGrows V V'' :=
  fun p q hpq => (h₂ p q hpq).elim (fun hm => h₁ p q hm) .inr

theorem CmpSpec.mono {apply : Visited → Nat → Nat → Option (Bool × Visited)}
    (happ : h.CmpSpec apply k) {k' : Nat} (hk : k' ≤ k) : h.CmpSpec apply k' :=
  fun V x y hx => happ V x y (Nat.lt_of_lt_of_le hx hk)

theorem Answers.ret {b : Bool} : h.Answers V (some (b, V)) b := ⟨V, rfl, fun _ => .refl⟩

/-- **Sequencing.** `andThen` answers the conjunction of its two parts. -/
theorem Answers.andThen {r : Option (Bool × Visited)} {b₁ b₂ : Bool}
    {k : Visited → Option (Bool × Visited)} (h₁ : h.Answers V r b₁)
    (h₂ : ∀ V₁, h.VisitedGrows V V₁ → h.Answers V₁ (k V₁) b₂) :
    h.Answers V (LeanKernel.andThen r k) (b₁ && b₂) := by
  obtain ⟨V₁, rfl, g₁⟩ := h₁
  cases b₁
  · exact ⟨V₁, rfl, fun hb => absurd hb Bool.false_ne_true⟩
  · obtain ⟨V₂, e₂, g₂⟩ := h₂ V₁ (g₁ rfl)
    exact ⟨V₂, e₂, fun hb => (g₁ rfl).trans (g₂ hb)⟩

/-- An answer from a visited set that only added equivalent pairs to `V` is an answer from `V`. -/
theorem Answers.of_push {r : Option (Bool × Visited)} {b : Bool} (hr : h.Answers V' r b)
    (hg : b = true → h.VisitedGrows V V') : h.Answers V r b :=
  let ⟨V'', e, g⟩ := hr
  ⟨V'', e, fun hb => (hg hb).trans (g hb)⟩

theorem andEq_some (b₁ b₂ : Bool) : andEq (some b₁) (fun _ => some b₂) = some (b₁ && b₂) := by
  cases b₁ <;> rfl

theorem alphaEqList_map_cons (x y : Nat) (xs ys : List Nat) :
    Expr.alphaEqList ((x :: xs).map h.expr) ((y :: ys).map h.expr) =
      (h.alpha x y && Expr.alphaEqList (xs.map h.expr) (ys.map h.expr)) := rfl

section Loops

variable {apply : Visited → Nat → Nat → Option (Bool × Visited)} (happ : h.CmpSpec apply k)
  (hk : k ≤ h.length)
include happ hk

/-- The argument loop answers the pointwise conjunction. -/
theorem applyAll_spec :
    ∀ (xs ys : List Nat) (V : Visited), (∀ x ∈ xs, x < k) → (∀ y ∈ ys, y < h.length) →
      h.VisitedSound V k → xs.length = ys.length →
      h.Answers V (applyAll apply V xs ys) (Expr.alphaEqList (xs.map h.expr) (ys.map h.expr))
  | [], [], V, _, _, _, _ => .ret
  | x :: xs, y :: ys, V, hxs, hys, hV, hl => by
    simp only [List.forall_mem_cons] at hxs hys
    rw [alphaEqList_map_cons]
    exact (happ V x y hxs.1 (by omega) hys.1 (hV.mono hxs.1)).andThen fun V₁ g₁ =>
      applyAll_spec xs ys V₁ hxs.2 hys.2 (hV.grow g₁) (Nat.succ.inj hl)
  | [], _ :: _, _, _, _, _, hl | _ :: _, [], _, _, _, _, hl => absurd hl (by simp)

/-- The optional types of two lets. -/
theorem applyOpt_spec (t t' : Option Nat) (ht : ∀ x ∈ t, x < k) (ht' : ∀ y ∈ t', y < h.length)
    (hV : h.VisitedSound V k) :
    h.Answers V (applyOpt apply V t t') (Expr.alphaEqOpt (t.map h.expr) (t'.map h.expr)) := by
  cases t with
  | none => cases t' <;> exact .ret
  | some x =>
    cases t' with
    | none => exact .ret
    | some y =>
      have hx := ht x rfl
      exact happ V x y hx (by omega) (ht' y rfl) (hV.mono hx)

/-- The local contexts of two metavariables. -/
theorem applyCtx_spec :
    ∀ (l l' : List (LocalEntry Nat)) (V : Visited), (∀ x ∈ LocalEntry.values l, x < k) →
      (∀ y ∈ LocalEntry.values l', y < h.length) → h.VisitedSound V k →
      h.Answers V (applyCtx apply V l l')
        (Expr.alphaEqCtx (l.map (LocalEntry.map h.expr)) (l'.map (LocalEntry.map h.expr)))
  | [], [], _, _, _, _ => .ret
  | .lift s n :: l, .lift s' n' :: l', V, hl, hl', hV => by
    show h.Answers V (if s = s' ∧ n = n' then _ else _) (s == s' && n == n' &&
      Expr.alphaEqCtx (l.map (LocalEntry.map h.expr)) (l'.map (LocalEntry.map h.expr)))
    by_cases hs : s = s' ∧ n = n'
    · obtain ⟨rfl, rfl⟩ := hs
      rw [if_pos ⟨rfl, rfl⟩, beq_self_eq_true, beq_self_eq_true, Bool.true_and, Bool.true_and]
      exact applyCtx_spec l l' V hl hl' hV
    · have hb : (s == s' && n == n') = false := by simpa using hs
      rw [if_neg hs, hb, Bool.false_and]
      exact .ret
  | .inst s v :: l, .inst s' v' :: l', V, hl, hl', hV => by
    simp only [LocalEntry.values, List.forall_mem_cons] at hl hl'
    show h.Answers V (if s = s' then _ else _) (s == s' && h.alpha v v' &&
      Expr.alphaEqCtx (l.map (LocalEntry.map h.expr)) (l'.map (LocalEntry.map h.expr)))
    by_cases hs : s = s'
    · subst hs
      rw [if_pos rfl, beq_self_eq_true, Bool.true_and]
      exact (happ V v v' hl.1 (by omega) hl'.1 (hV.mono hl.1)).andThen fun V₁ g₁ =>
        applyCtx_spec l l' V₁ hl.2 hl'.2 (hV.grow g₁)
    · rw [if_neg hs, (beq_eq_false_iff_ne).mpr hs, Bool.false_and, Bool.false_and]
      exact .ret
  | [], _ :: _, _, _, _, _ | .lift .. :: _, [], _, _, _, _ | .inst .. :: _, [], _, _, _, _
  | .lift .. :: _, .inst .. :: _, _, _, _, _ | .inst .. :: _, .lift .. :: _, _, _, _, _ => .ret

variable {eq : Nat → Nat → Option Bool}
  (heq : ∀ x y, x < k → y < h.length → eq x y = some (h.alpha x y))
include heq

/-- **One node.** The `switch` of `apply`, on two nodes of the same kind other than variables,
answers the alpha-equivalence of the trees they root. -/
theorem exprEqNodes_spec {na nb : Node Nat} (hkind : na.kind = nb.kind) (hvar : ∀ i, na ≠ .var i)
    (hna : ∀ x ∈ na.children, x < k) (hnb : ∀ y ∈ nb.children, y < h.length)
    (hV : h.VisitedSound V k) :
    h.Answers V (exprEqNodes apply eq V na nb)
      (Expr.alphaEq (na.map h.expr).toExpr (nb.map h.expr).toExpr) := by
  have call : ∀ V x y, x < k → y < h.length → h.VisitedSound V k →
      h.Answers V (apply V x y) (h.alpha x y) :=
    fun V x y hx hy hV => happ V x y hx (by omega) hy (hV.mono hx)
  cases na with
  | var i => exact absurd rfl (hvar i)
  | constant | type | value => cases nb <;> exact .ret
  | app f a as =>
    cases nb with
    | app g c cs =>
      show h.Answers V (if as.length = cs.length then applyAll apply V _ _ else _)
        (h.alpha f g && h.alpha a c && Expr.alphaEqList (as.map h.expr) (cs.map h.expr))
      by_cases hl : as.length = cs.length
      · rw [if_pos hl, Bool.and_assoc]
        exact applyAll_spec happ hk (f :: a :: as) (g :: c :: cs) V hna hnb hV (by simp [hl])
      · have hb : Expr.alphaEqList (as.map h.expr) (cs.map h.expr) = false :=
          Bool.eq_false_iff.mpr fun he => hl (by simpa using Expr.alphaEqList_length he)
        rw [if_neg hl, hb, Bool.and_false]
        exact .ret
    | _ => exact .ret
  | heq l r =>
    cases nb with
    | heq l' r' =>
      simp only [Node.children, List.forall_mem_cons] at hna hnb
      show h.Answers V ((andEq (eq l l') fun _ => eq r r').map (·, V)) (h.alpha l l' && h.alpha r r')
      rw [heq l l' hna.1 hnb.1, heq r r' hna.2.1 hnb.2.1, andEq_some]
      exact .ret
    | _ => exact .ret
  | pair x y t =>
    cases nb with
    | pair x' y' t' =>
      simp only [Node.children, List.forall_mem_cons] at hna hnb
      show h.Answers V ((andEq (eq x x') fun _ => andEq (eq y y') fun _ => eq t t').map (·, V))
        (h.alpha x x' && h.alpha y y' && h.alpha t t')
      rw [heq x x' hna.1 hnb.1, heq y y' hna.2.1 hnb.2.1, heq t t' hna.2.2.1 hnb.2.2.1]
      simp only [andEq_some, Bool.and_assoc]
      exact .ret
    | _ => exact .ret
  | proj i x =>
    cases nb with
    | proj j y =>
      simp only [Node.children, List.forall_mem_cons] at hna hnb
      show h.Answers V ((andEq (some (i == j)) fun _ => eq x y).map (·, V)) ((i == j) && h.alpha x y)
      rw [heq x y hna.1 hnb.1, andEq_some]
      exact .ret
    | _ => exact .ret
  | abst kd n d t =>
    cases nb with
    | abst kd' n' d' t' =>
      obtain rfl : kd = kd' := by cases kd <;> cases kd' <;> first | rfl | cases hkind
      simp only [Node.children, List.forall_mem_cons] at hna hnb
      show h.Answers V (andThen (apply V d d') fun V => apply V t t')
        ((kd == kd) && h.alpha d d' && h.alpha t t')
      rw [beq_self_eq_true, Bool.true_and]
      exact (call V d d' hna.1 hnb.1 hV).andThen fun V₁ g₁ =>
        call V₁ t t' hna.2.1 hnb.2.1 (hV.grow g₁)
    | _ => exact .ret
  | «let» n t v w =>
    cases nb with
    | «let» n' t' v' w' =>
      simp only [Node.children, List.forall_mem_append, Option.mem_toList,
        List.forall_mem_cons] at hna hnb
      show h.Answers V (andThen (applyOpt apply V t t') fun V =>
          andThen (apply V v v') fun V => apply V w w')
        (Expr.alphaEqOpt (t.map h.expr) (t'.map h.expr) && h.alpha v v' && h.alpha w w')
      rw [Bool.and_assoc]
      exact (applyOpt_spec happ hk t t' hna.1 hnb.1 hV).andThen fun V₁ g₁ =>
        (call V₁ v v' hna.2.1 hnb.2.1 (hV.grow g₁)).andThen fun V₂ g₂ =>
          call V₂ w w' hna.2.2.1 hnb.2.2.1 ((hV.grow g₁).grow g₂)
    | _ => exact .ret
  | metavar m l =>
    cases nb with
    | metavar m' l' =>
      show h.Answers V (if m = m' then applyCtx apply V l l' else some (false, V))
        ((m == m') && Expr.alphaEqCtx (l.map (LocalEntry.map h.expr))
          (l'.map (LocalEntry.map h.expr)))
      by_cases hm : m = m'
      · subst hm
        rw [if_pos rfl, beq_self_eq_true, Bool.true_and]
        exact applyCtx_spec happ hk l l' V hna hnb hV
      · have hb : (m == m') = false := by simpa using hm
        rw [if_neg hm, hb, Bool.false_and]
        exact .ret
    | _ => exact .ret

end Loops

theorem alpha_self (p : Nat) : h.alpha p p = true := Expr.alphaEq_refl _

theorem alpha_symm {p q : Nat} (hpq : h.alpha p q = true) : h.alpha q p = true :=
  Expr.alphaEq_symm hpq

theorem alpha_trans {p q r : Nat} (hpq : h.alpha p q = true) (hqr : h.alpha q r = true) :
    h.alpha p r = true :=
  Expr.alphaEq_trans hpq hqr

/-- Cells of different kinds never root equivalent trees. -/
theorem alpha_eq_false_of_kind_ne (hwf : h.WF) {a b : Nat} {ca cb : Cell} (hca : h[a]? = some ca)
    (hcb : h[b]? = some cb) (hk : ca.node.kind ≠ cb.node.kind) : h.alpha a b = false := by
  refine Bool.eq_false_iff.mpr fun he => hk ?_
  rw [alpha, expr_of_cell hwf hca, expr_of_cell hwf hcb, Node.alphaEq_toExpr] at he
  simpa using congrArg Node.kind he

/-- **Correctness of `expr_eq_fn<>::apply`.** On a well-formed heap under the hash proviso, with
more fuel than the first pointer, the comparison answers alpha-equivalence. -/
theorem exprEqApply_spec (hwf : h.WF) (hh : h.HashProviso) :
    ∀ fuel, h.CmpSpec (exprEqApply h id true fuel) fuel
  | 0 => fun _ _ _ hx => absurd hx (Nat.not_lt_zero _)
  | fuel + 1 => fun V a b ha hal hbl hV => by
    have ih := exprEqApply_spec hwf hh fuel
    obtain ⟨ca, hca⟩ : ∃ c, h[a]? = some c := ⟨_, List.getElem?_eq_getElem hal⟩
    obtain ⟨cb, hcb⟩ : ∃ c, h[b]? = some c := ⟨_, List.getElem?_eq_getElem hbl⟩
    by_cases hab : a = b
    · subst hab
      simp only [exprEqApply, if_pos rfl]
      rw [alpha_self]
      exact .ret
    simp only [exprEqApply, if_neg hab]
    by_cases hhash : h.hashOf a ≠ h.hashOf b
    · have hne : h.alpha a b = false := Bool.eq_false_iff.mpr fun he =>
        hhash (hashOf_eq_of_alphaEq hwf hh (max a b + 1) a b (by omega) (by omega) hal hbl he)
      rw [if_pos (by simpa using hhash), hne]
      exact .ret
    rw [if_neg (by simpa using hhash)]
    simp only [id_eq, hca, hcb]
    by_cases hk : ca.node.kind ≠ cb.node.kind
    · rw [if_pos hk, alpha_eq_false_of_kind_ne hwf hca hcb hk]
      exact .ret
    rw [if_neg hk]
    have hexpr : h.alpha a b =
        Expr.alphaEq (ca.node.map h.expr).toExpr (cb.node.map h.expr).toExpr := by
      rw [alpha, expr_of_cell hwf hca, expr_of_cell hwf hcb]
    have hk : ca.node.kind = cb.node.kind := not_not.mp hk
    split
    · rename_i i hi
      obtain ⟨j, hj⟩ : ∃ j, cb.node = .var j := by
        cases hn : cb.node with
        | var j => exact ⟨j, rfl⟩
        | abst kd => cases kd <;> simp [hi, hn, Node.kind] at hk
        | _ => simp [hi, hn, Node.kind] at hk
      rw [hexpr, hi, hj, show (Node.var j == Node.var i) = (i == j) by simp [eq_comm]]
      exact .ret
    · rename_i hvar
      by_cases hvis : (ca.shared && cb.shared && decide ((a, b) ∈ V)) = true
      · rw [if_pos hvis, hV a b (by simp at hvis; exact hvis.2) (Nat.lt_succ_self a)]
        exact .ret
      rw [if_neg hvis, hexpr]
      have hV₀ : h.VisitedSound (if (ca.shared && cb.shared) = true then (a, b) :: V else V) a := by
        split
        · intro p q hpq hp
          rcases List.mem_cons.mp hpq with hpq | hpq
          · cases hpq; omega
          · exact hV p q hpq (by omega)
        · exact hV.mono (Nat.le_succ a)
      have heq : ∀ x y, x < a → y < h.length →
          (exprEqApply h id true fuel [] x y).map Prod.fst = some (h.alpha x y) := fun x y hx hy => by
        obtain ⟨V', e, -⟩ := ih [] x y (by omega) (by omega) hy fun _ _ hm => absurd hm (by simp)
        rw [e]
        rfl
      refine (exprEqNodes_spec (ih.mono (by omega)) (Nat.le_of_lt hal) heq hk
        (fun i hi => hvar i hi) (fun x hx => hwf a ca hca x hx)
        (fun y hy => Nat.lt_trans (hwf b cb hcb y hy) hbl) hV₀).of_push fun hb => ?_
      split
      · intro p q hpq
        rcases List.mem_cons.mp hpq with hpq | hpq
        · cases hpq
          exact .inr (hexpr.trans hb)
        · exact .inl hpq
      · exact .refl


/-- `operator==` on two valid cells of a well-formed heap under the proviso. -/
theorem exprEq_eq_alpha (hwf : h.WF) (hh : h.HashProviso) {a b : Nat} (ha : a < h.length)
    (hb : b < h.length) : exprEq h a b = h.alpha a b := by
  obtain ⟨V', e, -⟩ := exprEqApply_spec hwf hh (a + 1) [] a b (Nat.lt_succ_self a) ha hb
    fun _ _ hm => absurd hm (List.not_mem_nil _)
  rw [exprEq, e]
  rfl

end Heap

/-- **`operator==` is alpha-equivalence.** On a well-formed heap whose hashes follow the proviso,
whatever cells are shared, the pointer test, the hash test and the visited set never change the
answer. -/
theorem exprEq_eq_alphaEq {h : Heap} (hwf : h.WF) (hh : h.HashProviso) {a b : Nat}
    (ha : a < h.length) (hb : b < h.length) :
    exprEq h a b = Expr.alphaEq (h.expr a) (h.expr b) :=
  Heap.exprEq_eq_alpha hwf hh ha hb

/-- `λ x : #0, #0` and `λ y : #0, #0` in separate shared cells, hashed by
`mix (λ d b) = d + b + 1`. -/
def renamedLambdas : Heap :=
  [⟨.var 0, 0, true, false⟩, ⟨.var 0, 0, true, false⟩,
   ⟨.abst .lambda "x" 0 0, 1, true, false⟩, ⟨.abst .lambda "y" 1 1, 1, true, false⟩]

theorem exprEq_renamedLambdas :
    renamedLambdas.WF ∧ renamedLambdas.HashProviso ∧ 2 < renamedLambdas.length ∧
      3 < renamedLambdas.length ∧
      exprEq renamedLambdas 2 3 = Expr.alphaEq (renamedLambdas.expr 2) (renamedLambdas.expr 3) :=
  have hh : renamedLambdas.HashProviso :=
    Heap.hashProviso_of (fun | .abst _ _ d b => d + b + 1 | _ => 0) (by decide)
  ⟨by decide, hh, by decide, by decide, exprEq_eq_alphaEq (by decide) hh (by decide) (by decide)⟩

/-- `c : Type` and `c : Type 1`, hashed by `mix (c : t) = t + 10`, `mix Type = 1` and
`mix (Type 1) = 2`: a function of the kind, the payload without names and the children's hashes,
the annotation's among them. -/
def annotatedConstants : Heap :=
  [⟨.type .zero, 1, true, false⟩, ⟨.type (.succ .zero), 2, true, false⟩,
   ⟨.constant "c" (some 0), 11, false, false⟩, ⟨.constant "c" (some 1), 12, false, false⟩]

/-- **A hash that reads a constant's annotation breaks `operator==`.** `c : Type` and `c : Type 1`
are alpha-equivalent, but their hashes differ and the hash test answers `false`. -/
theorem exprEq_annotatedConstants :
    annotatedConstants.WF ∧ annotatedConstants.MixProviso ∧ exprEq annotatedConstants 2 3 = false ∧
      Expr.alphaEq (annotatedConstants.expr 2) (annotatedConstants.expr 3) = true :=
  ⟨by decide, Heap.mixProviso_of
    (fun | .constant _ (some t) => t + 10 | .type .zero => 1 | .type _ => 2 | _ => 0) (by decide),
    by decide, by decide⟩

/-! ## Comparison modulo a normaliser -/

/-- Equality modulo `N` at every depth: the normal forms of the two cells have the same kind and
the same payload apart from binder names, and corresponding children are again equal modulo `N`.
The children are those `alphaEq` compares, so a constant's type annotation is not one. -/
inductive EqModulo (h : Heap) (N : Nat → Nat) : Nat → Nat → Prop
  | intro {a b : Nat} {ca cb : Cell} (hca : h[N a]? = some ca) (hcb : h[N b]? = some cb)
      (shape : ca.node.eraseNames.map (fun _ => ()) = cb.node.eraseNames.map (fun _ => ()))
      (children : ∀ x y, (x, y) ∈ ca.node.eraseNames.children.zip cb.node.eraseNames.children →
        EqModulo h N x y) :
      EqModulo h N a b

/-- Constants `p` and `q`, and `HEq p p`, `HEq q q`. -/
def unionFindHeq : Heap :=
  [⟨.constant "p" none, 1, true, false⟩, ⟨.constant "q" none, 2, true, false⟩,
   ⟨.heq 0 0, 3, false, false⟩, ⟨.heq 1 1, 4, false, false⟩]

/-- A union-find root map that sends `p` to `q`. -/
def unionFindRoot (p : Nat) : Nat := if p = 0 then 1 else p

/-- **The sides of an `HEq` are compared without the normaliser.** `HEq p p` and `HEq q q` are
equal modulo a map sending `p` to `q`, but `expr_eq_fn<N, false>` compares the sides with the
plain `operator==` and answers `false`. -/
theorem exprEqApply_heq_plain_eq :
    EqModulo unionFindHeq unionFindRoot 2 3 ∧
      (exprEqApply unionFindHeq unionFindRoot false 4 [] 2 3).map Prod.fst = some false := by
  have hpq : EqModulo unionFindHeq unionFindRoot 0 1 :=
    .intro rfl rfl rfl fun _ _ hm => absurd hm (List.not_mem_nil _)
  refine ⟨@EqModulo.intro _ _ 2 3 ⟨.heq 0 0, 3, false, false⟩ ⟨.heq 1 1, 4, false, false⟩
    rfl rfl rfl fun x y hxy => ?_, by decide⟩
  obtain ⟨rfl, rfl⟩ : x = 0 ∧ y = 1 := by simpa [Node.eraseNames, Node.children] using hxy
  exact hpq

end LeanKernel
