import LeanKernel.Alpha

/-!
# The expression DAG

Expressions as the C++ kernel holds them: reference-counted cells, each with its node (kind,
payload and the pointers to its children), its cached hash and two flags, `is_shared` (more than one
reference) and `max_shared`. A `Heap` is a list of cells addressed by position.

* `Node α` — one layer of an expression with children of type `α`: pointers in a cell, hashes in the
  hash shape, expressions in `Node.toExpr`;
* `Heap.WF` — every child of a cell lies below it, so the cells form a DAG;
* `Heap.expr` — the tree a pointer denotes;
* `Heap.HashProviso` — the proviso of `expr_eq`: a cell's cached hash depends only on its kind, its
  payload without binder names, and the hashes of its children other than a constant's type
  annotation; `Heap.MixProviso` is the wider reading of the spec's `mix(constructor_tag,
  children_hashes, payload_hash)`, in which the annotation's hash may count.

Addresses are positions, so any finite DAG, numbered children first, is a well-formed heap; the code
only compares pointers and uses them as keys, so the numbering does not matter.
-/

namespace LeanKernel

/-- The kinds of `expr_kind`. -/
inductive ExprKind where
  | var | constant | type | value | app | lambda | pi | sigma | «let» | heq | pair | proj | metavar
  deriving DecidableEq, Repr

/-- One layer of an expression, with children of type `α`. -/
inductive Node (α : Type) where
  | var (idx : Nat)
  | constant (name : Name) (type : Option α)
  | type (level : Level)
  | value (v : Value)
  | app (fn arg : α) (args : List α)
  | abst (kind : AbstKind) (name : Name) (domain body : α)
  | «let» (name : Name) (type : Option α) (value body : α)
  | heq (lhs rhs : α)
  | pair (first second type : α)
  | proj (first : Bool) (arg : α)
  | metavar (name : Name) (lctx : List (LocalEntry α))
  deriving DecidableEq, Repr

/-- The values of a local context's entries. -/
def LocalEntry.values : List (LocalEntry α) → List α
  | [] => []
  | .lift _ _ :: l => values l
  | .inst _ v :: l => v :: values l

/-- Apply `g` to an entry's value. -/
def LocalEntry.map (g : α → β) : LocalEntry α → LocalEntry β
  | .lift s n => .lift s n
  | .inst s v => .inst s (g v)

namespace Node

variable {α β γ : Type}

/-- `a.kind()`. -/
def kind : Node α → ExprKind
  | .var _ => .var
  | .constant .. => .constant
  | .type _ => .type
  | .value _ => .value
  | .app .. => .app
  | .abst .lambda .. => .lambda
  | .abst .pi .. => .pi
  | .abst .sigma .. => .sigma
  | .let .. => .let
  | .heq .. => .heq
  | .pair .. => .pair
  | .proj .. => .proj
  | .metavar .. => .metavar

/-- The children of a node, the constant's type annotation included. -/
def children : Node α → List α
  | .var _ | .type _ | .value _ => []
  | .constant _ t => t.toList
  | .app f a as => f :: a :: as
  | .abst _ _ d b => [d, b]
  | .let _ t v b => t.toList ++ [v, b]
  | .heq l r => [l, r]
  | .pair a b t => [a, b, t]
  | .proj _ a => [a]
  | .metavar _ l => LocalEntry.values l

/-- Apply `g` to every child. -/
def map (g : α → β) : Node α → Node β
  | .var i => .var i
  | .constant n t => .constant n (t.map g)
  | .type l => .type l
  | .value v => .value v
  | .app f a as => .app (g f) (g a) (as.map g)
  | .abst k n d b => .abst k n (g d) (g b)
  | .let n t v b => .let n (t.map g) (g v) (g b)
  | .heq l r => .heq (g l) (g r)
  | .pair a b t => .pair (g a) (g b) (g t)
  | .proj i a => .proj i (g a)
  | .metavar m l => .metavar m (l.map (LocalEntry.map g))

/-- Forget binder names and the constant's type annotation: what alpha-equivalence ignores. -/
def eraseNames : Node α → Node α
  | .constant n _ => .constant n none
  | .abst k _ d b => .abst k default d b
  | .let _ t v b => .let default t v b
  | n => n

/-- Forget every name of the node, and keep its payload and all its children, a constant's type
annotation included. -/
def eraseAllNames : Node α → Node α
  | .constant _ t => .constant default t
  | .abst k _ d b => .abst k default d b
  | .let _ t v b => .let default t v b
  | .metavar _ l => .metavar default l
  | n => n

/-- The expression with this node at its root. -/
def toExpr : Node Expr → Expr
  | .var i => .var i
  | .constant n t => .constant n t
  | .type l => .type l
  | .value v => .value v
  | .app f a as => .app f a as
  | .abst k n d b => .abst k n d b
  | .let n t v b => .let n t v b
  | .heq l r => .heq l r
  | .pair a b t => .pair a b t
  | .proj i a => .proj i a
  | .metavar m l => .metavar m l

theorem map_map (g : α → β) (g' : β → γ) (n : Node α) : (n.map g).map g' = n.map (g' ∘ g) := by
  have hl : ∀ l : List (LocalEntry α),
      (l.map (LocalEntry.map g)).map (LocalEntry.map g') = l.map (LocalEntry.map (g' ∘ g)) := by
    intro l; simp only [List.map_map]; congr 1; funext e; cases e <;> rfl
  cases n <;> simp [map, Option.map_map, List.map_map, hl]

theorem map_congr {g g' : α → β} {n : Node α} (h : ∀ x ∈ n.children, g x = g' x) :
    n.map g = n.map g' := by
  have hl : ∀ l : List (LocalEntry α), (∀ x ∈ LocalEntry.values l, g x = g' x) →
      l.map (LocalEntry.map g) = l.map (LocalEntry.map g') := by
    intro l hl
    induction l with
    | nil => rfl
    | cons e l ih =>
      cases e with
      | lift s k => exact congrArg _ (ih hl)
      | inst s v =>
        simp only [LocalEntry.values, List.mem_cons, forall_eq_or_imp] at hl
        simp only [List.map_cons, LocalEntry.map, hl.1, ih hl.2]
  cases n with
  | var | type | value => rfl
  | metavar m l => exact congrArg _ (hl l h)
  | app f a as =>
    simp only [children, List.mem_cons, forall_eq_or_imp] at h
    simp only [map, h.1, h.2.1, List.map_congr_left h.2.2]
  | constant _ t | «let» _ t =>
    cases t <;>
      simp only [children, Option.toList, List.mem_cons, List.mem_append, List.not_mem_nil,
        or_false, false_or, forall_eq_or_imp, forall_eq] at h <;>
      simp only [map, Option.map, h]
  | abst | heq | pair | proj =>
    simp only [children, List.mem_cons, List.not_mem_nil, or_false, forall_eq_or_imp,
      forall_eq] at h
    simp only [map, h]

@[simp] theorem kind_map (g : α → β) (n : Node α) : (n.map g).kind = n.kind := by
  cases n with
  | abst k => cases k <;> rfl
  | _ => rfl

@[simp] theorem kind_eraseNames (n : Node α) : n.eraseNames.kind = n.kind := by
  cases n with
  | abst k => cases k <;> rfl
  | _ => rfl

theorem eraseNames_map (g : α → β) (n : Node α) : (n.map g).eraseNames = n.eraseNames.map g := by
  cases n <;> rfl

theorem mem_children_of_eraseNames {x : α} {n : Node α} (hx : x ∈ n.eraseNames.children) :
    x ∈ n.children := by
  cases n <;> simp_all [eraseNames, children]

theorem toExpr_injective {n n' : Node Expr} (h : n.toExpr = n'.toExpr) : n = n' := by
  cases n <;> cases n' <;> cases h <;> rfl

theorem erase_toExpr (n : Node Expr) : n.toExpr.erase = (n.eraseNames.map Expr.erase).toExpr := by
  cases n with
  | app f a as => exact congrArg _ (Expr.eraseList_eq as)
  | «let» _ t _ _ => exact congrArg (fun t => Expr.let _ t _ _) (Expr.eraseOpt_eq t)
  | metavar m l =>
    refine congrArg (Expr.metavar m) ((Expr.eraseCtx_eq l).trans ?_)
    congr 1; funext e; cases e <;> rfl
  | _ => rfl

/-- Alpha-equivalence of two one-layer expressions: equal kinds and payloads up to binder names,
and equal erased children. -/
theorem alphaEq_toExpr {n n' : Node Expr} :
    Expr.alphaEq n.toExpr n'.toExpr = true ↔
      n.eraseNames.map Expr.erase = n'.eraseNames.map Expr.erase := by
  rw [Expr.alphaEq_iff, erase_toExpr, erase_toExpr]
  exact ⟨toExpr_injective, congrArg _⟩

/-- A map that `G` determines on the children: `G x = G y → H x = H y` for all children `x`, `y`
of `n` and `n'`. Then `n.map G = n'.map G` forces `n.map H = n'.map H`. -/
theorem map_eq_of_map_eq [Inhabited γ] {G : α → β} {H : α → γ} {n n' : Node α}
    (hG : n.map G = n'.map G)
    (hGH : ∀ x ∈ n.children ++ n'.children, ∀ y ∈ n.children ++ n'.children, G x = G y → H x = H y) :
    n.map H = n'.map H := by
  classical
  let K : β → γ := fun b =>
    if hb : ∃ x ∈ n.children ++ n'.children, G x = b then H hb.choose else default
  have hK : ∀ x ∈ n.children ++ n'.children, H x = K (G x) := by
    intro x hx
    have hb : ∃ y ∈ n.children ++ n'.children, G y = G x := ⟨x, hx, rfl⟩
    simp only [K, dif_pos hb]
    exact (hGH _ hb.choose_spec.1 x hx hb.choose_spec.2).symm
  calc n.map H = (n.map G).map K := by
        rw [map_map]; exact map_congr fun x hx => hK x (List.mem_append_left _ hx)
    _ = (n'.map G).map K := by rw [hG]
    _ = n'.map H := by
        rw [map_map]; exact (map_congr fun x hx => hK x (List.mem_append_right _ hx)).symm

end Node

/-- A heap cell: `expr_cell` with its node, cached hash and flags. -/
structure Cell where
  node : Node Nat
  hash : UInt32
  /-- `is_shared`: the cell has more than one reference -/
  shared : Bool
  /-- the `max_shared` flag -/
  maxShared : Bool
  deriving DecidableEq, Repr

/-- The cells, addressed by position. -/
abbrev Heap : Type := List Cell

namespace Heap

/-- Well-formed heaps: every child of a cell lies below it. -/
def WF (h : Heap) : Prop := ∀ (p : Nat) (c : Cell), h[p]? = some c → ∀ x ∈ c.node.children, x < p

/-- The tree below `p`, unfolding at most `fuel` cells deep. -/
def exprAux (h : Heap) : Nat → Nat → Expr
  | 0, _ => default
  | fuel + 1, p =>
    match h[p]? with
    | some c => (c.node.map (exprAux h fuel)).toExpr
    | none => default

/-- The tree a pointer denotes. On a well-formed heap `p + 1` levels are enough. -/
def expr (h : Heap) (p : Nat) : Expr := h.exprAux (p + 1) p

/-- `a.hash()`, the cached hash. -/
def hashOf (h : Heap) (p : Nat) : UInt32 := (h[p]?.map Cell.hash).getD 0

/-- The proviso of `expr_eq`: a cell's hash is a function of its node with binder names and a
constant's type annotation dropped (`Node.eraseNames`), the children replaced by their hashes. So
neither a binder name nor an annotation, both ignored by alpha-equivalence, takes part in it. -/
def HashProviso (h : Heap) : Prop :=
  ∃ mix : Node UInt32 → UInt32, ∀ (p : Nat) (c : Cell), h[p]? = some c → c.hash = mix (c.node.map h.hashOf).eraseNames

/-- `hash = mix(constructor_tag, children_hashes, payload_hash)` as the spec words it, with names
left out of the payload: a cell's hash is a function of its node without its names
(`Node.eraseAllNames`), the children, a constant's type annotation among them, replaced by their
hashes. -/
def MixProviso (h : Heap) : Prop :=
  ∃ mix : Node UInt32 → UInt32, ∀ (p : Nat) (c : Cell), h[p]? = some c →
    c.hash = mix (c.node.map h.hashOf).eraseAllNames

variable {h : Heap}

/-- Well-formedness checked cell by cell, the form `decide` evaluates. -/
theorem wf_iff : h.WF ↔ ∀ p : Fin h.length, ∀ x ∈ (h.get p).node.children, x < p := by
  refine ⟨fun hwf p => hwf p (h.get p) (by simp), fun H p c hc => ?_⟩
  obtain ⟨hp, rfl⟩ := List.getElem?_eq_some_iff.mp hc
  exact H ⟨p, hp⟩

instance : DecidablePred WF := fun _ => decidable_of_iff _ wf_iff.symm

/-- The proviso for a given mixing function, checked cell by cell. -/
theorem hashProviso_of (mix : Node UInt32 → UInt32)
    (H : ∀ p : Fin h.length, (h.get p).hash = mix ((h.get p).node.map h.hashOf).eraseNames) :
    h.HashProviso :=
  ⟨mix, fun p c hc => by
    obtain ⟨hp, rfl⟩ := List.getElem?_eq_some_iff.mp hc
    exact H ⟨p, hp⟩⟩

/-- The wider proviso for a given mixing function, checked cell by cell. -/
theorem mixProviso_of (mix : Node UInt32 → UInt32)
    (H : ∀ p : Fin h.length, (h.get p).hash = mix ((h.get p).node.map h.hashOf).eraseAllNames) :
    h.MixProviso :=
  ⟨mix, fun p c hc => by
    obtain ⟨hp, rfl⟩ := List.getElem?_eq_some_iff.mp hc
    exact H ⟨p, hp⟩⟩

theorem exprAux_congr (hwf : h.WF) :
    ∀ n m p, p < n → p < m → h.exprAux n p = h.exprAux m p
  | 0, _, _, hn, _ => absurd hn (Nat.not_lt_zero _)
  | _ + 1, 0, _, _, hm => absurd hm (Nat.not_lt_zero _)
  | n + 1, m + 1, p, hn, hm => by
    simp only [exprAux]
    cases hc : h[p]? with
    | none => rfl
    | some c =>
      simp only
      congr 1
      exact Node.map_congr fun x hx => exprAux_congr hwf n m x
        (by have := hwf p c hc x hx; omega) (by have := hwf p c hc x hx; omega)

/-- **Unfolding the denotation** one cell deep. -/
theorem expr_of_cell (hwf : h.WF) {p : Nat} {c : Cell} (hc : h[p]? = some c) :
    h.expr p = (c.node.map h.expr).toExpr := by
  simp only [expr, exprAux, hc]
  congr 1
  exact Node.map_congr fun x hx =>
    exprAux_congr hwf p (x + 1) x (hwf p c hc x hx) (Nat.lt_succ_self x)

theorem hashOf_of_cell {p : Nat} {c : Cell} (hc : h[p]? = some c) : h.hashOf p = c.hash := by
  simp [hashOf, hc]

/-- **Under the proviso, alpha-equivalent cells have equal hashes**, so the hash test of
`expr_eq_fn` never rejects an equivalent pair. -/
theorem hashOf_eq_of_alphaEq (hwf : h.WF) (hh : h.HashProviso) :
    ∀ b p q, p < b → q < b → p < h.length → q < h.length →
      Expr.alphaEq (h.expr p) (h.expr q) = true → h.hashOf p = h.hashOf q
  | 0, _, _, hp, _, _, _, _ => absurd hp (Nat.not_lt_zero _)
  | b + 1, p, q, hpb, hqb, hp, hq, hpq => by
    obtain ⟨mix, hmix⟩ := hh
    obtain ⟨cp, hcp⟩ : ∃ c, h[p]? = some c := ⟨_, List.getElem?_eq_getElem hp⟩
    obtain ⟨cq, hcq⟩ : ∃ c, h[q]? = some c := ⟨_, List.getElem?_eq_getElem hq⟩
    rw [hashOf_of_cell hcp, hashOf_of_cell hcq, hmix p cp hcp, hmix q cq hcq,
      Node.eraseNames_map, Node.eraseNames_map]
    rw [expr_of_cell hwf hcp, expr_of_cell hwf hcq, Node.alphaEq_toExpr, Node.eraseNames_map,
      Node.eraseNames_map, Node.map_map, Node.map_map] at hpq
    congr 1
    refine Node.map_eq_of_map_eq hpq fun x hx y hy hxy => ?_
    have child : ∀ z ∈ cp.node.eraseNames.children ++ cq.node.eraseNames.children,
        z < b ∧ z < h.length := by
      intro z hz
      rcases List.mem_append.mp hz with hz | hz
      · have := hwf p cp hcp z (Node.mem_children_of_eraseNames hz); omega
      · have := hwf q cq hcq z (Node.mem_children_of_eraseNames hz); omega
    exact hashOf_eq_of_alphaEq hwf ⟨mix, hmix⟩ b x y (child x hx).1 (child y hy).1 (child x hx).2
      (child y hy).2 (Expr.alphaEq_iff.mpr hxy)

/-! ## Reachability and growing heaps -/

/-- `q` is reachable from `p` through children, constants' type annotations included. -/
inductive Reach (h : Heap) : Nat → Nat → Prop
  | refl (p : Nat) : Reach h p p
  | child {p c q : Nat} {cell : Cell} : h[p]? = some cell → c ∈ cell.node.children → Reach h c q →
      Reach h p q

/-- `h'` grows `h`: every cell of `h` keeps its node and its hash; only flags may change, and cells
may be added. -/
structure Sub (h h' : Heap) : Prop where
  length_le : h.length ≤ h'.length
  cell : ∀ (p : Nat) (c : Cell), h[p]? = some c →
    ∃ c' : Cell, h'[p]? = some c' ∧ c'.node = c.node ∧ c'.hash = c.hash

theorem Sub.refl (h : Heap) : h.Sub h :=
  ⟨Nat.le_refl _, fun _ c hc => ⟨c, hc, rfl, rfl⟩⟩

theorem Sub.trans {h₁ h₂ h₃ : Heap} (s₁ : h₁.Sub h₂) (s₂ : h₂.Sub h₃) : h₁.Sub h₃ :=
  ⟨Nat.le_trans s₁.1 s₂.1, fun p c hc =>
    let ⟨c₂, hc₂, hn₂, hh₂⟩ := s₁.2 p c hc
    let ⟨c₃, hc₃, hn₃, hh₃⟩ := s₂.2 p c₂ hc₂
    ⟨c₃, hc₃, hn₃.trans hn₂, hh₃.trans hh₂⟩⟩

section Sub

variable {h h' : Heap} (hs : h.Sub h')
include hs

theorem Sub.hashOf {p : Nat} (hp : p < h.length) : h'.hashOf p = h.hashOf p := by
  obtain ⟨c, hc⟩ : ∃ c, h[p]? = some c := ⟨_, List.getElem?_eq_getElem hp⟩
  obtain ⟨c', hc', -, hh⟩ := hs.2 p c hc
  rw [hashOf_of_cell hc, hashOf_of_cell hc', hh]

theorem Sub.exprAux (hwf : h.WF) : ∀ n p, p < h.length → h'.exprAux n p = h.exprAux n p
  | 0, _, _ => rfl
  | n + 1, p, hp => by
    obtain ⟨c, hc⟩ : ∃ c, h[p]? = some c := ⟨_, List.getElem?_eq_getElem hp⟩
    obtain ⟨c', hc', hn, -⟩ := hs.2 p c hc
    simp only [Heap.exprAux, hc, hc', hn]
    exact congrArg Node.toExpr (Node.map_congr fun x hx =>
      Sub.exprAux hwf n x (Nat.lt_trans (hwf p c hc x hx) hp))

theorem Sub.expr (hwf : h.WF) {p : Nat} (hp : p < h.length) : h'.expr p = h.expr p :=
  hs.exprAux hwf (p + 1) p hp

/-- Reachability from an old cell is the same in the grown heap. -/
theorem Sub.reach_of (hwf : h.WF) {p q : Nat} (hp : p < h.length) (hr : h'.Reach p q) :
    h.Reach p q := by
  induction hr with
  | refl => exact .refl _
  | @child p x q cell' hc' hx _ ih =>
    obtain ⟨c, hc⟩ : ∃ c, h[p]? = some c := ⟨_, List.getElem?_eq_getElem hp⟩
    obtain ⟨c'', hc'', hn, -⟩ := hs.2 p c hc
    rw [hc'] at hc''
    cases hc''
    have hxc : x ∈ c.node.children := hn ▸ hx
    exact .child hc hxc (ih (Nat.lt_trans (hwf p c hc x hxc) hp))

end Sub

theorem Reach.eq_or_child {p q : Nat} (hr : h.Reach p q) :
    q = p ∨ ∃ cell x, h[p]? = some cell ∧ x ∈ cell.node.children ∧ h.Reach x q := by
  cases hr with
  | refl => exact .inl rfl
  | child hc hx hr => exact .inr ⟨_, _, hc, hx, hr⟩

theorem Reach.lt (hwf : h.WF) {p q : Nat} (hr : h.Reach p q) (hp : p < h.length) : q < h.length := by
  induction hr with
  | refl => exact hp
  | child hc hx _ ih => exact ih (Nat.lt_trans (hwf _ _ hc _ hx) hp)

end Heap

end LeanKernel
