import LeanKernel.ExprEq
import Mathlib.Data.List.Forall2

/-!
# `kernel/max_sharing.cpp`

`max_sharing_fn::imp::apply` on the heap. The object's state is its cache `m_cache`, an
`unordered_set` keyed by `expr_hash` and `operator==`, and it writes the `max_shared` flag of the
cells it caches. One call on `a`:

1. a cached cell `== a` is returned (`find`);
2. a cell already flagged `max_shared` is inserted as it is, its children unvisited;
3. otherwise the children are processed left to right, the node is rebuilt by `update_*` (the
   cell itself when every child came back unchanged, else a fresh cell), flagged and inserted
   (`cache`).

`insert` on a set keyed by `operator==` does nothing when an equal element is present, and
`operator==` ignores constants' type annotations, which the traversal does visit. The functions
of `expr.h` that are not in src are modelled here: `update_*` returns the cell itself when no child
changed and otherwise a fresh cell, whose hash is `mix` of its kind, payload and children's
hashes. The C++ argument order of `make_pair`/`make_tuple` is unspecified; the model processes
children left to right, in the order of `Node.children`.
-/

namespace LeanKernel

/-! ## Rebuilding a node -/

/-- Replace the values of the `inst` entries of a local context, in order. -/
def LocalEntry.withValues : List (LocalEntry Nat) → List Nat → List (LocalEntry Nat)
  | [], _ => []
  | .lift s n :: l, vs => .lift s n :: withValues l vs
  | .inst s _ :: l, vs => .inst s (vs.getD 0 0) :: withValues l vs.tail

/-- The node with its children replaced by `cs`, in the order of `Node.children`, its payload
kept: what `update_*` builds from the new children. -/
def Node.withChildren : Node Nat → List Nat → Node Nat
  | .constant n t, cs => .constant n (t.map fun _ => cs.getD 0 0)
  | .app .., cs => .app (cs.getD 0 0) (cs.getD 1 0) (cs.drop 2)
  | .abst k n .., cs => .abst k n (cs.getD 0 0) (cs.getD 1 0)
  | .let n none .., cs => .let n none (cs.getD 0 0) (cs.getD 1 0)
  | .let n (some _) .., cs => .let n (some (cs.getD 0 0)) (cs.getD 1 0) (cs.getD 2 0)
  | .heq .., cs => .heq (cs.getD 0 0) (cs.getD 1 0)
  | .pair .., cs => .pair (cs.getD 0 0) (cs.getD 1 0) (cs.getD 2 0)
  | .proj i _, cs => .proj i (cs.getD 0 0)
  | .metavar m l, cs => .metavar m (LocalEntry.withValues l cs)
  | n, _ => n

theorem LocalEntry.values_withValues :
    ∀ (l : List (LocalEntry Nat)) (vs : List Nat), vs.length = (values l).length →
      values (withValues l vs) = vs
  | [], [], _ => rfl
  | .lift _ _ :: l, vs, h => values_withValues l vs h
  | .inst _ _ :: l, v :: vs, h => congrArg (v :: ·) (values_withValues l vs (Nat.succ.inj h))
  | [], _ :: _, h | .inst _ _ :: _, [], h => absurd h (by simp [values])

theorem LocalEntry.map_withValues {β : Type} (g : Nat → β) :
    ∀ (l : List (LocalEntry Nat)) (vs : List Nat), vs.map g = (values l).map g →
      (withValues l vs).map (LocalEntry.map g) = l.map (LocalEntry.map g)
  | [], _, _ => rfl
  | .lift _ _ :: l, vs, h => by
    simp only [withValues, List.map_cons, map_withValues g l vs h]
  | .inst s v :: l, w :: vs, h => by
    simp only [values, List.map_cons, List.cons.injEq] at h
    simp only [withValues, List.getD_cons_zero, List.tail_cons, List.map_cons, LocalEntry.map,
      h.1, map_withValues g l vs h.2]
  | .inst _ _ :: _, [], h => absurd h (by simp [values])

namespace Node

theorem children_withChildren {n : Node Nat} {cs : List Nat} (h : cs.length = n.children.length) :
    (n.withChildren cs).children = cs := by
  rcases n with _ | ⟨_, _ | _⟩ | _ | _ | _ | _ | ⟨_, _ | _, _, _⟩ | _ | _ | _ | _
  all_goals first
    | exact LocalEntry.values_withValues _ cs h
    | (rcases cs with _ | ⟨_, _ | ⟨_, _ | ⟨_, _ | ⟨_, _⟩⟩⟩⟩ <;>
        first | rfl | exact absurd h (by simp [children]))

/-- Rebuilding with children that `g` cannot tell from the old ones gives a node `g` cannot tell
from the old one. -/
theorem map_withChildren {β : Type} (g : Nat → β) {n : Node Nat} {cs : List Nat}
    (h : cs.map g = n.children.map g) : (n.withChildren cs).map g = n.map g := by
  rcases n with _ | ⟨_, _ | _⟩ | _ | _ | _ | _ | ⟨_, _ | _, _, _⟩ | _ | _ | _ | _
  all_goals first
    | exact congrArg (Node.metavar _) (LocalEntry.map_withValues g _ cs h)
    | (rcases cs with _ | ⟨_, _ | ⟨_, _ | ⟨_, _ | ⟨_, _⟩⟩⟩⟩ <;>
        simp_all [withChildren, children, map])

end Node

/-- Run `f` on each element, left to right, threading a state. -/
def mapState {σ : Type} (f : σ → Nat → Option (σ × Nat)) : σ → List Nat → Option (σ × List Nat)
  | s, [] => some (s, [])
  | s, x :: xs =>
    match f s x with
    | some (s', y) => (mapState f s' xs).map fun (s'', ys) => (s'', y :: ys)
    | none => none

/-- **The child loop.** If each call, from any state satisfying `P` that the loop can have reached
(`Q` from the start), succeeds into a state satisfying `P` with `R` between argument and result,
then the loop succeeds over the whole list, and `R` holds pointwise in its final state. -/
theorem mapState_spec {σ : Type} {f : σ → Nat → Option (σ × Nat)} {P : σ → Prop}
    {Q : σ → σ → Prop} {R : σ → Nat → Nat → Prop} (hrefl : ∀ s, Q s s)
    (htrans : ∀ s₁ s₂ s₃, P s₁ → P s₂ → Q s₁ s₂ → Q s₂ s₃ → Q s₁ s₃)
    (hR : ∀ s s' x y, P s → Q s s' → R s x y → R s' x y) :
    ∀ (xs : List Nat) (s : σ), P s →
      (∀ x ∈ xs, ∀ s', P s' → Q s s' →
        ∃ s'' y, f s' x = some (s'', y) ∧ P s'' ∧ Q s' s'' ∧ R s'' x y) →
      ∃ s' ys, mapState f s xs = some (s', ys) ∧ P s' ∧ Q s s' ∧ List.Forall₂ (R s') xs ys
  | [], s, hP, _ => ⟨s, [], rfl, hP, hrefl s, .nil⟩
  | x :: xs, s, hP, hf => by
    obtain ⟨s₁, y, e₁, hP₁, hQ₁, hR₁⟩ := hf x (List.mem_cons_self _ _) s hP (hrefl s)
    obtain ⟨s₂, ys, e₂, hP₂, hQ₂, hR₂⟩ := mapState_spec hrefl htrans hR xs s₁ hP₁
      fun x' hx' s' hP' hQ' => hf x' (List.mem_cons_of_mem _ hx') s' hP' (htrans _ _ _ hP hP₁ hQ₁ hQ')
    refine ⟨s₂, y :: ys, by simp only [mapState, e₁, e₂, Option.map_some'], hP₂,
      htrans _ _ _ hP hP₁ hQ₁ hQ₂, .cons (hR _ _ _ _ hP₁ hQ₂ hR₁) hR₂⟩

/-! ## Annotations -/

/-- A constant carrying a type annotation: the one child that `operator==` does not compare but
the traversal visits. -/
def Node.annotated {α : Type} : Node α → Bool
  | .constant _ (some _) => true
  | _ => false

theorem LocalEntry.mem_values {α : Type} {x : α} :
    ∀ {l : List (LocalEntry α)}, x ∈ values l → ∃ s, LocalEntry.inst s x ∈ l
  | [], h => absurd h (List.not_mem_nil _)
  | .lift _ _ :: l, h => let ⟨s, hs⟩ := mem_values (l := l) h; ⟨s, List.mem_cons_of_mem _ hs⟩
  | .inst s v :: l, h => by
    rcases List.mem_cons.mp h with rfl | h
    · exact ⟨s, List.mem_cons_self _ _⟩
    · obtain ⟨s', hs⟩ := mem_values (l := l) h
      exact ⟨s', List.mem_cons_of_mem _ hs⟩

/-- Every child of an unannotated node is strictly smaller than the expression it roots. -/
theorem Node.sizeOf_lt_toExpr {n : Node Expr} (hn : n.annotated = false) {x : Expr}
    (hx : x ∈ n.children) : sizeOf x < sizeOf n.toExpr := by
  rcases n with _ | ⟨_, _ | _⟩ | _ | _ | _ | _ | ⟨_, _ | _, _, _⟩ | _ | _ | _ | _
  all_goals simp only [children, annotated, Option.toList, List.mem_cons, List.mem_nil_iff,
    or_false, List.nil_append, List.singleton_append, List.cons_append] at hx hn
  case app f a as =>
    simp only [toExpr, Expr.app.sizeOf_spec]
    rcases hx with rfl | rfl | hx
    · omega
    · omega
    · have := List.sizeOf_lt_of_mem hx
      omega
  case metavar m l =>
    obtain ⟨s, hs⟩ := LocalEntry.mem_values hx
    have h₁ := List.sizeOf_lt_of_mem hs
    have h₂ : sizeOf x < sizeOf (LocalEntry.inst s x) := by
      rw [LocalEntry.inst.sizeOf_spec]; omega
    simp [toExpr]
    omega
  all_goals first
    | exact absurd hx id
    | (rcases hx with rfl | rfl | rfl <;> simp [toExpr] <;> omega)

theorem Node.annotated_map {α β : Type} (g : α → β) (n : Node α) :
    (n.map g).annotated = n.annotated := by
  rcases n with _ | ⟨_, _ | _⟩ | _ <;> rfl

theorem Node.children_map {α β : Type} (g : α → β) (n : Node α) :
    (n.map g).children = n.children.map g := by
  rcases n with _ | ⟨_, _ | _⟩ | _ | _ | _ | _ | ⟨_, _ | _, _, _⟩ | _ | _ | _ | ⟨_, l⟩ <;>
    simp [map, children]
  induction l with
  | nil => rfl
  | cons e l ih => cases e <;> simp [LocalEntry.values, LocalEntry.map, ih]

theorem Node.eraseNames_of_unannotated {α : Type} {n : Node α} (hn : n.annotated = false) :
    n.eraseNames.children = n.children ∧ n.eraseNames.annotated = false := by
  rcases n with _ | ⟨_, _ | _⟩ | _ | _ | _ | _ | ⟨_, _ | _, _, _⟩ <;>
    first | exact ⟨rfl, rfl⟩ | exact absurd hn (by simp [annotated])

/-- Without annotations, a child denotes a strictly smaller tree up to alpha-equivalence. -/
theorem Heap.sizeOf_erase_child {h : Heap} (hwf : h.WF) {p x : Nat} {c : Cell}
    (hc : h[p]? = some c) (hn : c.node.annotated = false) (hx : x ∈ c.node.children) :
    sizeOf (h.expr x).erase < sizeOf (h.expr p).erase := by
  rw [Heap.expr_of_cell hwf hc, Node.erase_toExpr]
  have hn' : (c.node.map h.expr).annotated = false := by rw [Node.annotated_map, hn]
  obtain ⟨hch, hann⟩ := Node.eraseNames_of_unannotated hn'
  apply Node.sizeOf_lt_toExpr (by rw [Node.annotated_map, hann])
  rw [Node.children_map, hch, Node.children_map, List.map_map]
  exact List.mem_map_of_mem _ hx

/-! ## The object -/

/-- The heap and the cache `m_cache` of a `max_sharing_fn` object. -/
structure Sharing where
  heap : Heap
  cache : List Nat
  deriving DecidableEq

namespace Sharing

/-- `m_cache.find(a)`: a cached cell with `a`'s hash that is `== a`. -/
def find (s : Sharing) (a : Nat) : Option Nat :=
  s.cache.find? fun p => s.heap.hashOf p == s.heap.hashOf a && exprEq s.heap p a

/-- `m_cache.insert(a)`: nothing happens when an element `== a` is present. -/
def insert (s : Sharing) (a : Nat) : Sharing :=
  if (s.find a).isSome then s else { s with cache := s.cache ++ [a] }

/-- `a.raw()->set_max_shared()`. -/
def setMaxShared (s : Sharing) (a : Nat) : Sharing :=
  match s.heap[a]? with
  | some c => { s with heap := s.heap.set a { c with maxShared := true } }
  | none => s

/-- `cache(a)`: flag the cell, then insert it. -/
def cacheCell (s : Sharing) (a : Nat) : Sharing := (s.setMaxShared a).insert a

/-- A fresh cell for the node `n`, hashed by `mix`. -/
def mkCell (mix : Node UInt32 → UInt32) (s : Sharing) (n : Node Nat) : Sharing × Nat :=
  ({ s with heap := s.heap ++ [⟨n, mix (n.map s.heap.hashOf).eraseNames, false, false⟩] },
    s.heap.length)

/-- `update_*(a, …)`: the cell `a` itself when the rebuilt node is its node, a fresh cell
otherwise. -/
def update (mix : Node UInt32 → UInt32) (s : Sharing) (a : Nat) (old new : Node Nat) :
    Sharing × Nat :=
  if new = old then (s, a) else mkCell mix s new

/-- `max_sharing_fn::imp::apply(a)`, at most `fuel` calls deep. -/
def apply (mix : Node UInt32 → UInt32) : Nat → Sharing → Nat → Option (Sharing × Nat)
  | 0, _, _ => none
  | fuel + 1, s, a =>
    match s.find a with
    | some r => some (s, r)
    | none =>
      match s.heap[a]? with
      | none => none
      | some c =>
        if c.maxShared then some (s.insert a, a)
        else
          match mapState (apply mix fuel) s c.node.children with
          | none => none
          | some (s', cs) =>
            let u := update mix s' a c.node (c.node.withChildren cs)
            some (u.1.cacheCell u.2, u.2)

end Sharing

/-- `max_sharing(a)`: a flagged cell is returned as it is, otherwise a fresh `max_sharing_fn`
object is applied. Returns the final heap, the object's cache and the result. -/
def maxSharing (mix : Node UInt32 → UInt32) (h : Heap) (a : Nat) : Option (Sharing × Nat) :=
  if (h[a]?.map Cell.maxShared).getD false then some (⟨h, []⟩, a)
  else Sharing.apply mix (a + 1) ⟨h, []⟩ a

/-- A sequence of calls `F(a₁), F(a₂), …` on one object, with no `clear()` in between. -/
def Sharing.calls (mix : Node UInt32 → UInt32) (s : Sharing) : List Nat → Option (Sharing × List Nat)
  | [] => some (s, [])
  | a :: as =>
    match Sharing.apply mix (s.heap.length + 1) s a with
    | some (s', r) => (Sharing.calls mix s' as).map fun (s'', rs) => (s'', r :: rs)
    | none => none

/-! ## The invariant -/

namespace Sharing

/-- The cell `p` carries the `max_shared` flag. -/
def Flagged (h : Heap) (p : Nat) : Prop := h[p]?.map Cell.maxShared = some true

/-- Every cell's hash is `mix` of its node with binder names and a constant's type annotation
dropped (`Node.eraseNames`), the children replaced by their hashes: the hash proviso of `expr_eq`,
for the constructors' own `mix`. Neither a binder name nor an annotation, which `operator==`
ignores, takes part in the hash. -/
def HashedBy (mix : Node UInt32 → UInt32) (h : Heap) : Prop :=
  ∀ (p : Nat) (c : Cell), h[p]? = some c → c.hash = mix (c.node.map h.hashOf).eraseNames

/-- The invariant of a `max_sharing_fn` object: a well-formed heap hashed by `mix`, and a cache of
flagged cells holding at most one cell per alpha-equivalence class. -/
structure Inv (mix : Node UInt32 → UInt32) (s : Sharing) : Prop where
  wf : s.heap.WF
  hashed : HashedBy mix s.heap
  valid : ∀ p ∈ s.cache, p < s.heap.length
  flagged : ∀ p ∈ s.cache, Flagged s.heap p
  unique : ∀ p ∈ s.cache, ∀ q ∈ s.cache, s.heap.alpha p q = true → p = q

/-- `s'` is a later state of the object that was in state `s`: the heap has grown and the cache
has only gained cells. -/
structure Extends (s s' : Sharing) : Prop where
  sub : s.heap.Sub s'.heap
  cache : ∀ p ∈ s.cache, p ∈ s'.cache

variable {mix : Node UInt32 → UInt32} {s s' s'' : Sharing}

theorem Inv.proviso (hi : Inv mix s) : s.heap.HashProviso := ⟨mix, hi.hashed⟩

theorem Extends.refl (s : Sharing) : Extends s s := ⟨.refl _, fun _ => id⟩

theorem Extends.trans (h₁ : Extends s s') (h₂ : Extends s' s'') : Extends s s'' :=
  ⟨h₁.sub.trans h₂.sub, fun p hp => h₂.cache p (h₁.cache p hp)⟩

theorem Extends.alpha (he : Extends s s') (hwf : s.heap.WF) {p q : Nat} (hp : p < s.heap.length)
    (hq : q < s.heap.length) : s'.heap.alpha p q = s.heap.alpha p q := by
  simp only [Heap.alpha, he.sub.expr hwf hp, he.sub.expr hwf hq]

/-! ### `find` -/

/-- The test `find` applies to a cached cell is alpha-equivalence. -/
theorem find_test (hi : Inv mix s) {p a : Nat} (hp : p < s.heap.length) (ha : a < s.heap.length) :
    (s.heap.hashOf p == s.heap.hashOf a && exprEq s.heap p a) = s.heap.alpha p a := by
  rw [Heap.exprEq_eq_alpha hi.wf hi.proviso hp ha]
  cases hpa : s.heap.alpha p a
  · exact Bool.and_false _
  · rw [Heap.hashOf_eq_of_alphaEq hi.wf hi.proviso (max p a + 1) p a (by omega) (by omega) hp ha hpa]
    simp

theorem find_eq_some (hi : Inv mix s) {a r : Nat} (ha : a < s.heap.length) (hf : s.find a = some r) :
    r ∈ s.cache ∧ s.heap.alpha r a = true := by
  have hr := List.mem_of_find?_eq_some hf
  have ht := List.find?_some hf
  rw [find_test hi (hi.valid r hr) ha] at ht
  exact ⟨hr, ht⟩

theorem find_eq_none (hi : Inv mix s) {a : Nat} (ha : a < s.heap.length) (hf : s.find a = none) :
    ∀ p ∈ s.cache, s.heap.alpha p a = false := fun p hp => by
  have := List.find?_eq_none.mp hf p hp
  rwa [find_test hi (hi.valid p hp) ha, Bool.not_eq_true] at this

/-- A cached cell finds itself. -/
theorem find_of_mem (hi : Inv mix s) {a : Nat} (ha : a ∈ s.cache) : s.find a = some a := by
  cases hf : s.find a with
  | none =>
    have := find_eq_none hi (hi.valid a ha) hf a ha
    rw [Heap.alpha_self] at this
    cases this
  | some r =>
    obtain ⟨hr, hra⟩ := find_eq_some hi (hi.valid a ha) hf
    rw [hi.unique r hr a ha hra]

/-! ### The operations -/

@[simp] theorem insert_heap (a : Nat) : (s.insert a).heap = s.heap := by
  unfold insert
  split <;> rfl

theorem mem_insert {a p : Nat} :
    p ∈ (s.insert a).cache ↔ p ∈ s.cache ∨ (p = a ∧ s.find a = none) := by
  unfold insert
  cases hf : s.find a <;> simp [hf]

theorem Extends.insert (a : Nat) : Extends s (s.insert a) :=
  ⟨by rw [insert_heap]; exact .refl _, fun _ hp => mem_insert.mpr (.inl hp)⟩

/-- `insert` keeps the invariant: a cell is added only when no cached cell is equivalent to it. -/
theorem Inv.insert (hi : Inv mix s) {a : Nat} (ha : a < s.heap.length) (hfl : Flagged s.heap a) :
    Inv mix (s.insert a) := by
  have mem : ∀ {p}, p ∈ (s.insert a).cache → p ∈ s.cache ∨ (p = a ∧ s.find a = none) :=
    mem_insert.mp
  refine ⟨by simpa using hi.wf, by simpa using hi.hashed, fun p hp => ?_, fun p hp => ?_,
    fun p hp q hq hpq => ?_⟩
  · rcases mem hp with hp | ⟨rfl, -⟩
    exacts [by simpa using hi.valid p hp, by simpa using ha]
  · rcases mem hp with hp | ⟨rfl, -⟩
    exacts [by simpa using hi.flagged p hp, by simpa using hfl]
  · rw [insert_heap] at hpq
    rcases mem hp with hp' | ⟨rfl, hf⟩
    · rcases mem hq with hq' | ⟨rfl, hf⟩
      · exact hi.unique p hp' q hq' hpq
      · exact absurd hpq (by rw [find_eq_none hi ha hf p hp']; simp)
    · rcases mem hq with hq' | ⟨rfl, -⟩
      · have := find_eq_none hi ha hf q hq'
        rw [Heap.alpha_symm hpq] at this
        cases this
      · rfl

theorem getElem?_setMaxShared (a p : Nat) :
    (s.setMaxShared a).heap[p]? =
      s.heap[p]?.map fun c => if p = a then { c with maxShared := true } else c := by
  unfold setMaxShared
  cases hc : s.heap[a]? with
  | none =>
    by_cases hpa : p = a
    · subst hpa
      rw [hc]
      rfl
    · simp [hpa]
  | some c =>
    simp only [List.getElem?_set]
    by_cases hpa : a = p
    · subst hpa
      have : a < s.heap.length := (List.getElem?_eq_some_iff.mp hc).1
      simp [hc, this]
    · simp [hpa, Ne.symm hpa]

@[simp] theorem setMaxShared_cache (a : Nat) : (s.setMaxShared a).cache = s.cache := by
  unfold setMaxShared
  split <;> rfl

@[simp] theorem setMaxShared_length (a : Nat) : (s.setMaxShared a).heap.length = s.heap.length := by
  unfold setMaxShared
  split <;> simp

theorem setMaxShared_cell {a p : Nat} {c : Cell} (hc : s.heap[p]? = some c) :
    ∃ c', (s.setMaxShared a).heap[p]? = some c' ∧ c'.node = c.node ∧ c'.hash = c.hash := by
  rw [getElem?_setMaxShared, hc]
  exact ⟨_, rfl, by split <;> rfl, by split <;> rfl⟩

theorem setMaxShared_cell' {a p : Nat} {c : Cell} (hc : (s.setMaxShared a).heap[p]? = some c) :
    ∃ c', s.heap[p]? = some c' ∧ c'.node = c.node ∧ c'.hash = c.hash := by
  rw [getElem?_setMaxShared] at hc
  obtain ⟨c', hc', rfl⟩ := Option.map_eq_some'.mp hc
  exact ⟨c', hc', by split <;> rfl, by split <;> rfl⟩

theorem Extends.setMaxShared (a : Nat) : Extends s (s.setMaxShared a) :=
  ⟨⟨by simp, fun _ _ => setMaxShared_cell⟩, fun _ hp => by simpa using hp⟩

/-- Setting a flag changes neither nodes nor hashes: the old heap grows the new one too. -/
theorem setMaxShared_sub (a : Nat) : (s.setMaxShared a).heap.Sub s.heap :=
  ⟨by simp, fun _ _ => setMaxShared_cell'⟩

theorem flagged_setMaxShared {a : Nat} (ha : a < s.heap.length) :
    Flagged (s.setMaxShared a).heap a := by
  simp [Flagged, getElem?_setMaxShared, List.getElem?_eq_getElem ha]

theorem Flagged.setMaxShared {a p : Nat} (hp : Flagged s.heap p) :
    Flagged (s.setMaxShared a).heap p := by
  unfold Flagged at hp ⊢
  rw [getElem?_setMaxShared]
  cases hc : s.heap[p]? with
  | none => simp [hc] at hp
  | some c =>
    simp only [hc, Option.map_some', Option.some.injEq] at hp ⊢
    split <;> simp [hp]

theorem Inv.setMaxShared (hi : Inv mix s) (a : Nat) : Inv mix (s.setMaxShared a) := by
  have back := setMaxShared_sub (s := s) a
  have fwd := (Extends.setMaxShared (s := s) a).sub
  have hlen := setMaxShared_length (s := s) a
  have hash : ∀ p, (s.setMaxShared a).heap.hashOf p = s.heap.hashOf p := fun p => by
    simp only [Heap.hashOf, getElem?_setMaxShared, Option.map_map]
    congr 2
    funext c
    split <;> rfl
  refine ⟨fun p c hc x hx => ?_, fun p c hc => ?_, fun p hp => ?_, fun p hp => ?_,
    fun p hp q hq hpq => ?_⟩
  · obtain ⟨c', hc', hn, -⟩ := setMaxShared_cell' hc
    exact hi.wf p c' hc' x (hn ▸ hx)
  · obtain ⟨c', hc', hn, hh⟩ := setMaxShared_cell' hc
    rw [← hh, hi.hashed p c' hc', hn]
    congr 2
    exact Node.map_congr fun x _ => (hash x).symm
  · rw [setMaxShared_cache] at hp
    rw [hlen]
    exact hi.valid p hp
  · rw [setMaxShared_cache] at hp
    exact (hi.flagged p hp).setMaxShared
  · rw [setMaxShared_cache] at hp hq
    rw [(Extends.setMaxShared a).alpha hi.wf (hi.valid p hp) (hi.valid q hq)] at hpq
    exact hi.unique p hp q hq hpq

theorem Extends.cacheCell (a : Nat) : Extends s (s.cacheCell a) :=
  (Extends.setMaxShared a).trans (Extends.insert a)

theorem Inv.cacheCell (hi : Inv mix s) {a : Nat} (ha : a < s.heap.length) : Inv mix (s.cacheCell a) :=
  (hi.setMaxShared a).insert (by simpa using ha) (flagged_setMaxShared ha)

theorem mem_cacheCell {a p : Nat} :
    p ∈ (s.cacheCell a).cache ↔ p ∈ s.cache ∨ (p = a ∧ (s.setMaxShared a).find a = none) := by
  rw [cacheCell, mem_insert, setMaxShared_cache]

@[simp] theorem cacheCell_heap (a : Nat) : (s.cacheCell a).heap = (s.setMaxShared a).heap :=
  insert_heap a

/-- The cell a `cache` call adds is flagged; cells flagged by it are either flagged before or
cached. -/
theorem flagged_cacheCell {a p : Nat} (hp : Flagged (s.cacheCell a).heap p) :
    Flagged s.heap p ∨ p = a := by
  unfold Flagged at hp ⊢
  rw [cacheCell_heap, getElem?_setMaxShared] at hp
  cases hc : s.heap[p]? with
  | none => simp [hc] at hp
  | some c =>
    simp only [hc, Option.map_some', Option.some.injEq] at hp ⊢
    split at hp
    · exact .inr ‹_›
    · exact .inl hp

@[simp] theorem mkCell_snd (n : Node Nat) : (mkCell mix s n).2 = s.heap.length := rfl

@[simp] theorem mkCell_cache (n : Node Nat) : (mkCell mix s n).1.cache = s.cache := rfl

theorem mkCell_length (n : Node Nat) : (mkCell mix s n).1.heap.length = s.heap.length + 1 := by
  simp [mkCell]

theorem mkCell_old {n : Node Nat} {p : Nat} (hp : p < s.heap.length) :
    (mkCell mix s n).1.heap[p]? = s.heap[p]? :=
  List.getElem?_append_left hp

theorem mkCell_new (n : Node Nat) :
    (mkCell mix s n).1.heap[s.heap.length]? =
      some ⟨n, mix (n.map s.heap.hashOf).eraseNames, false, false⟩ :=
  List.getElem?_concat_length _ _

theorem Extends.mkCell (n : Node Nat) : Extends s (mkCell mix s n).1 :=
  ⟨⟨by simp [mkCell_length], fun p c hc =>
    ⟨c, by rw [mkCell_old (List.getElem?_eq_some_iff.mp hc).1, hc], rfl, rfl⟩⟩, fun _ => id⟩

/-- A fresh cell whose children are old cells keeps the invariant. -/
theorem Inv.mkCell (hi : Inv mix s) {n : Node Nat} (hn : ∀ x ∈ n.children, x < s.heap.length) :
    Inv mix (mkCell mix s n).1 := by
  have he : Extends s (Sharing.mkCell mix s n).1 := Extends.mkCell n
  have cell : ∀ {p c}, (Sharing.mkCell mix s n).1.heap[p]? = some c →
      (p < s.heap.length ∧ s.heap[p]? = some c) ∨
        (p = s.heap.length ∧ c = ⟨n, mix (n.map s.heap.hashOf).eraseNames, false, false⟩) := by
    intro p c hc
    rcases Nat.lt_or_ge p s.heap.length with hp | hp
    · exact .inl ⟨hp, by rwa [mkCell_old hp] at hc⟩
    · have hlt := (List.getElem?_eq_some_iff.mp hc).1
      rw [mkCell_length] at hlt
      obtain rfl : p = s.heap.length := by omega
      rw [mkCell_new] at hc
      exact .inr ⟨rfl, (Option.some.inj hc).symm⟩
  have hash : ∀ (m : Node Nat), (∀ x ∈ m.children, x < s.heap.length) →
      m.map (Sharing.mkCell mix s n).1.heap.hashOf = m.map s.heap.hashOf :=
    fun m hm => Node.map_congr fun x hx => he.sub.hashOf (hm x hx)
  refine ⟨fun p c hc x hx => ?_, fun p c hc => ?_, fun p hp => ?_, fun p hp => ?_,
    fun p hp q hq hpq => ?_⟩
  · rcases cell hc with ⟨-, hc⟩ | ⟨rfl, rfl⟩
    exacts [hi.wf p c hc x hx, hn x hx]
  · rcases cell hc with ⟨hp, hc⟩ | ⟨rfl, rfl⟩
    · rw [hi.hashed p c hc, hash c.node fun x hx => Nat.lt_trans (hi.wf p c hc x hx) hp]
    · rw [hash n hn]
  · rw [mkCell_cache] at hp
    rw [mkCell_length]
    exact Nat.lt_succ_of_lt (hi.valid p hp)
  · rw [mkCell_cache] at hp
    unfold Flagged
    rw [mkCell_old (hi.valid p hp)]
    exact hi.flagged p hp
  · rw [mkCell_cache] at hp hq
    rw [he.alpha hi.wf (hi.valid p hp) (hi.valid q hq)] at hpq
    exact hi.unique p hp q hq hpq

theorem Flagged.of_mkCell {n : Node Nat} {p : Nat} (hp : Flagged (mkCell mix s n).1.heap p) :
    Flagged s.heap p := by
  unfold Flagged at hp ⊢
  rcases Nat.lt_or_ge p s.heap.length with hlt | hge
  · rwa [mkCell_old hlt] at hp
  · rcases Nat.lt_or_ge p (s.heap.length + 1) with hlt' | hge'
    · obtain rfl : p = s.heap.length := by omega
      rw [mkCell_new] at hp
      exact absurd hp (by simp)
    · rw [List.getElem?_eq_none (by rw [mkCell_length]; exact hge')] at hp
      exact absurd hp (by simp)

/-! ## Conditions on the input -/

/-- No cell reachable from `a` has an alpha-equivalent cell strictly below it. Since
alpha-equivalence ignores constants' type annotations, only a term inside such an annotation can
be equivalent to a term enclosing it. -/
def NoClash (h : Heap) (a : Nat) : Prop :=
  ∀ p, h.Reach a p → ∀ (c : Cell), h[p]? = some c → ∀ x ∈ c.node.children, ∀ q, h.Reach x q →
    h.alpha q p = false

/-- Every cell reachable from a cached cell is cached. -/
def Closed (s : Sharing) : Prop := ∀ p ∈ s.cache, ∀ q, s.heap.Reach p q → q ∈ s.cache

/-- Every flagged cell reachable from `a` is cached. -/
def FlagsCached (s : Sharing) (a : Nat) : Prop :=
  ∀ q, s.heap.Reach a q → Flagged s.heap q → q ∈ s.cache

/-- Every cell flagged in `s'` but not in `s` is cached in `s'`. -/
def FlagsFresh (s s' : Sharing) : Prop := ∀ q, Flagged s'.heap q → Flagged s.heap q ∨ q ∈ s'.cache

theorem NoClash.child {h : Heap} {a x : Nat} {c : Cell} (hn : NoClash h a) (hc : h[a]? = some c)
    (hx : x ∈ c.node.children) : NoClash h x :=
  fun p hp => hn p (.child hc hx hp)

theorem NoClash.of_sub {h h' : Heap} {a : Nat} (hn : NoClash h a) (hs : h.Sub h') (hwf : h.WF)
    (ha : a < h.length) : NoClash h' a := by
  intro p hp c' hc' x hx q hq
  have hp' := hs.reach_of hwf ha hp
  have hpl := hp'.lt hwf ha
  obtain ⟨c, hc⟩ : ∃ c, h[p]? = some c := ⟨_, List.getElem?_eq_getElem hpl⟩
  obtain ⟨c'', hc'', hn', -⟩ := hs.cell p c hc
  rw [hc'] at hc''
  cases hc''
  have hx' : x ∈ c.node.children := hn' ▸ hx
  have hxl := Nat.lt_trans (hwf p c hc x hx') hpl
  have hq' := hs.reach_of hwf hxl hq
  rw [Heap.alpha, hs.expr hwf (hq'.lt hwf hxl), hs.expr hwf hpl]
  exact hn p hp' c hc x hx' q hq'

theorem FlagsFresh.refl (s : Sharing) : FlagsFresh s s := fun _ => .inl

theorem FlagsFresh.trans (h₁ : FlagsFresh s s') (h₂ : FlagsFresh s' s'') (he : Extends s' s'') :
    FlagsFresh s s'' := fun q hq =>
  (h₂ q hq).elim (fun hq' => (h₁ q hq').imp_right (he.cache q)) .inr

/-- Flags cached at the start stay cached as the object runs, if every new flag is cached. -/
theorem FlagsCached.later (hf : FlagsCached s a) (hi : Inv mix s) (he : Extends s s')
    (hff : FlagsFresh s s') (ha : a < s.heap.length) : FlagsCached s' a := fun q hq hfl =>
  (hff q hfl).elim (fun hfl' => he.cache q (hf q (he.sub.reach_of hi.wf ha hq) hfl')) id

end Sharing

/-- A rebuilt cell whose children are equivalent to the old ones is equivalent to the old cell. -/
theorem Heap.alpha_withChildren {h : Heap} (hwf : h.WF) {a r : Nat} {c c' : Cell} {cs : List Nat}
    (ha : h[a]? = some c) (hr : h[r]? = some c') (hn : c'.node = c.node.withChildren cs)
    (hcs : List.Forall₂ (fun x y => h.alpha y x = true) c.node.children cs) : h.alpha r a = true := by
  have hmap : cs.map (Expr.erase ∘ h.expr) = c.node.children.map (Expr.erase ∘ h.expr) := by
    clear hn
    generalize c.node.children = l at hcs
    induction hcs with
    | nil => rfl
    | cons hxy _ ih =>
      simp only [List.map_cons, Function.comp, Expr.alphaEq_iff.mp hxy]
      exact congrArg _ ih
  rw [Heap.alpha, Heap.expr_of_cell hwf hr, Heap.expr_of_cell hwf ha, Node.alphaEq_toExpr,
    Node.eraseNames_map, Node.eraseNames_map, Node.map_map, Node.map_map, hn,
    ← Node.eraseNames_map, ← Node.eraseNames_map, Node.map_withChildren _ hmap]

namespace Sharing

variable {mix : Node UInt32 → UInt32} {s s' s'' : Sharing}

/-- What `update_*` returns: a cell whose node is the rebuilt node. -/
theorem update_spec (hi : Inv mix s) {a : Nat} {c : Cell} {old : Node Nat}
    (ha : s.heap[a]? = some c) (hc : c.node = old) {new : Node Nat}
    (hnew : ∀ x ∈ new.children, x < s.heap.length) :
    let u := update mix s a old new
    Inv mix u.1 ∧ Extends s u.1 ∧ u.1.cache = s.cache ∧ FlagsFresh s u.1 ∧
      ∃ cell, u.1.heap[u.2]? = some cell ∧ cell.node = new := by
  unfold update
  split
  · rename_i h
    exact ⟨hi, .refl _, rfl, .refl _, c, ha, hc.trans h.symm⟩
  · exact ⟨hi.mkCell hnew, .mkCell new, rfl, fun q hq => .inl hq.of_mkCell, _, mkCell_new new, rfl⟩

/-- What a call of `apply` on `a` from `s` guarantees of its final state `s'` and its result `r`. -/
structure Post (mix : Node UInt32 → UInt32) (s : Sharing) (a : Nat) (s' : Sharing) (r : Nat) :
    Prop where
  inv : Inv mix s'
  ext : Extends s s'
  lt : r < s'.heap.length
  alpha : s'.heap.alpha r a = true
  fresh : ∀ p ∈ s'.cache, p ∈ s.cache ∨ ∃ q, s.heap.Reach a q ∧ s'.heap.alpha p q = true
  cached : NoClash s.heap a → r ∈ s'.cache ∧ FlagsFresh s s'
  closed : NoClash s.heap a → Closed s → FlagsCached s a → Closed s'

/-- How the child loop of a call on the cell `c` at `a`, started in `s₀`, relates two of its
states. -/
structure LoopStep (s₀ : Sharing) (a : Nat) (c : Cell) (s₁ s₂ : Sharing) : Prop where
  ext : Extends s₁ s₂
  fresh : ∀ p ∈ s₂.cache, p ∈ s₁.cache ∨
    ∃ x ∈ c.node.children, ∃ q, s₀.heap.Reach x q ∧ s₂.heap.alpha p q = true
  flags : NoClash s₀.heap a → FlagsFresh s₁ s₂
  closed : NoClash s₀.heap a → Closed s₁ → FlagsCached s₁ a → Closed s₂

theorem forall₂_imp_mem {R S : Nat → Nat → Prop} :
    ∀ {l₁ l₂ : List Nat}, List.Forall₂ R l₁ l₂ → (∀ x ∈ l₁, ∀ y ∈ l₂, R x y → S x y) →
      List.Forall₂ S l₁ l₂
  | _, _, .nil, _ => .nil
  | _, _, .cons hxy h, hS =>
    .cons (hS _ (List.mem_cons_self _ _) _ (List.mem_cons_self _ _) hxy)
      (forall₂_imp_mem h fun x hx y hy => hS x (List.mem_cons_of_mem _ hx) y (List.mem_cons_of_mem _ hy))

theorem forall₂_mem_right {R : Nat → Nat → Prop} :
    ∀ {l₁ l₂ : List Nat}, List.Forall₂ R l₁ l₂ → ∀ {y}, y ∈ l₂ → ∃ x ∈ l₁, R x y
  | _, _, .nil, _, hy => absurd hy (List.not_mem_nil _)
  | _, _, .cons hxy h, _, hy => by
    rcases List.mem_cons.mp hy with rfl | hy
    · exact ⟨_, List.mem_cons_self _ _, hxy⟩
    · obtain ⟨x, hx, hr⟩ := forall₂_mem_right h hy
      exact ⟨x, List.mem_cons_of_mem _ hx, hr⟩

/-- Under the proviso on `a`, nothing the child loop leaves in the cache is equivalent to `a`, in
any later heap: the entries that were there missed `find`, and the new ones are equivalent to
cells below `a`. -/
theorem LoopStep.cache_not_alpha (hi : Inv mix s) {a : Nat} {c : Cell} (ha : s.heap[a]? = some c)
    (hf : s.find a = none) {s₁ : Sharing} (hi₁ : Inv mix s₁) (hl : LoopStep s a c s s₁)
    (hnc : NoClash s.heap a) {t : Sharing} (het : Extends s₁ t) {r : Nat} (hr : r ∈ s₁.cache) :
    t.heap.alpha r a = false := by
  have hal : a < s.heap.length := (List.getElem?_eq_some_iff.mp ha).1
  have hes : Extends s t := hl.ext.trans het
  rcases hl.fresh r hr with hr' | ⟨x, hx, q, hq, hrq⟩
  · rw [hes.alpha hi.wf (hi.valid r hr') hal]
    exact find_eq_none hi hal hf r hr'
  · have hql := hq.lt hi.wf (Nat.lt_trans (hi.wf a c ha x hx) hal)
    have hqa : t.heap.alpha q a = false := by
      rw [hes.alpha hi.wf hql hal]
      exact hnc a (.refl a) c ha x hx q hq
    rw [← het.alpha hi₁.wf (hi₁.valid r hr) (Nat.lt_of_lt_of_le hql hl.ext.sub.length_le)] at hrq
    cases h : t.heap.alpha r a
    · rfl
    · rw [Heap.alpha_trans (Heap.alpha_symm hrq) h] at hqa
      cases hqa

/-- **Rebuild.** The end of a call whose child loop ran: `update_*`, then `cache(res)`. -/
theorem post_rebuild (hi : Inv mix s) {a : Nat} {c : Cell} (ha : s.heap[a]? = some c)
    (hf : s.find a = none) {s₁ : Sharing} (hi₁ : Inv mix s₁) (hl : LoopStep s a c s s₁)
    {cs : List Nat}
    (hcs : List.Forall₂ (fun x y => s₁.heap.alpha y x = true ∧ y < s₁.heap.length ∧
      (NoClash s.heap a → y ∈ s₁.cache)) c.node.children cs) :
    let u := update mix s₁ a c.node (c.node.withChildren cs)
    Post mix s a (u.1.cacheCell u.2) u.2 := by
  intro u
  have hal : a < s.heap.length := (List.getElem?_eq_some_iff.mp ha).1
  have hch : (c.node.withChildren cs).children = cs :=
    Node.children_withChildren hcs.length_eq.symm
  have hcsl : ∀ y ∈ cs, y < s₁.heap.length := fun y hy =>
    let ⟨_, _, hxy⟩ := forall₂_mem_right hcs hy
    hxy.2.1
  obtain ⟨c₁, hc₁, hn₁, -⟩ := hl.ext.sub.cell a c ha
  obtain ⟨hiu, heu, hcu, hfu, cell, hcell, hnode⟩ :=
    update_spec hi₁ hc₁ hn₁
      (show ∀ x ∈ (c.node.withChildren cs).children, x < s₁.heap.length by rw [hch]; exact hcsl)
  have hul : u.2 < u.1.heap.length := (List.getElem?_eq_some_iff.mp hcell).1
  have hef : Extends u.1 (u.1.cacheCell u.2) := .cacheCell u.2
  have he₁ : Extends s₁ (u.1.cacheCell u.2) := heu.trans hef
  have hes : Extends s (u.1.cacheCell u.2) := hl.ext.trans he₁
  -- the rebuilt cell is equivalent to `a`
  have halpha_u : u.1.heap.alpha u.2 a = true := by
    obtain ⟨ca, hca, hna, -⟩ := heu.sub.cell a c₁ hc₁
    refine Heap.alpha_withChildren hiu.wf hca hcell (by rw [hnode, hna, hn₁]) ?_
    rw [hna, hn₁]
    exact forall₂_imp_mem hcs fun x hx y _ hxy => by
      rw [heu.alpha hi₁.wf hxy.2.1 (Nat.lt_of_lt_of_le (Nat.lt_trans (hi.wf a c ha x hx) hal)
        hl.ext.sub.length_le)]
      exact hxy.1
  have halpha : (u.1.cacheCell u.2).heap.alpha u.2 a = true := by
    rw [hef.alpha hiu.wf hul (Nat.lt_of_lt_of_le hal (hl.ext.trans heu).sub.length_le)]
    exact halpha_u
  -- under the proviso on the input, `cache(res)` does insert `res`
  have hnew : NoClash s.heap a → (u.1.setMaxShared u.2).find u.2 = none := fun hnc => by
    cases hfind : (u.1.setMaxShared u.2).find u.2 with
    | none => rfl
    | some r =>
      obtain ⟨hr, hru⟩ := find_eq_some (hiu.setMaxShared u.2) (by simpa using hul) hfind
      rw [setMaxShared_cache, hcu] at hr
      rw [← cacheCell_heap] at hru
      have := hl.cache_not_alpha hi ha hf hi₁ hnc he₁ hr
      rw [Heap.alpha_trans hru halpha] at this
      cases this
  have hmem : NoClash s.heap a → u.2 ∈ (u.1.cacheCell u.2).cache := fun hnc =>
    mem_cacheCell.mpr (.inr ⟨rfl, hnew hnc⟩)
  refine ⟨hiu.cacheCell hul, hes, by simpa using hul, halpha, fun p hp => ?_,
    fun hnc => ⟨hmem hnc, fun q hq => ?_⟩, fun hnc hcl hfc => ?_⟩
  · -- fresh
    rcases mem_cacheCell.mp hp with hp | ⟨rfl, -⟩
    · rw [hcu] at hp
      rcases hl.fresh p hp with hp' | ⟨x, hx, q, hq, hpq⟩
      · exact .inl hp'
      · refine .inr ⟨q, .child ha hx hq, ?_⟩
        rw [he₁.alpha hi₁.wf (hi₁.valid p hp) (Nat.lt_of_lt_of_le
          (hq.lt hi.wf (Nat.lt_trans (hi.wf a c ha x hx) hal)) hl.ext.sub.length_le)]
        exact hpq
    · exact .inr ⟨a, .refl a, halpha⟩
  · -- new flags are cached
    rcases flagged_cacheCell hq with hq | rfl
    · rcases hfu q hq with hq | hq
      · exact (hl.flags hnc q hq).imp_right (he₁.cache q)
      · exact .inr (hef.cache q hq)
    · exact .inr (hmem hnc)
  · -- closure
    have hcl₁ := hl.closed hnc hcl hfc
    have hsub : s₁.heap.Sub (u.1.cacheCell u.2).heap := he₁.sub
    intro p hp q hq
    rcases mem_cacheCell.mp hp with hp | ⟨rfl, -⟩
    · rw [hcu] at hp
      exact he₁.cache q (hcl₁ p hp q (hsub.reach_of hi₁.wf (hi₁.valid p hp) hq))
    · rcases hq.eq_or_child with rfl | ⟨cell', x, hc', hx, hxq⟩
      · exact hmem hnc
      · obtain ⟨cell'', hcell'', hn'', -⟩ := hef.sub.cell _ _ hcell
        rw [hc'] at hcell''
        cases hcell''
        rw [hn'', hnode, hch] at hx
        obtain ⟨x', -, hxy⟩ := forall₂_mem_right hcs hx
        have hxc := hxy.2.2 hnc
        exact he₁.cache q (hcl₁ x hxc q (hsub.reach_of hi₁.wf (hcsl x hx) hxq))

/-- **Cache hit.** -/
theorem post_hit (hi : Inv mix s) {a r : Nat} (ha : a < s.heap.length) (hf : s.find a = some r) :
    Post mix s a s r :=
  have ⟨hr, hra⟩ := find_eq_some hi ha hf
  ⟨hi, .refl s, hi.valid r hr, hra, fun _ hp => .inl hp, fun _ => ⟨hr, .refl s⟩,
    fun _ hcl _ => hcl⟩

/-- **Flagged cell.** A flagged cell not found in the cache is inserted as it is. -/
theorem post_flagged (hi : Inv mix s) {a : Nat} {c : Cell} (ha : s.heap[a]? = some c)
    (hf : s.find a = none) (hfl : c.maxShared = true) : Post mix s a (s.insert a) a := by
  have hal : a < s.heap.length := (List.getElem?_eq_some_iff.mp ha).1
  have hflag : Flagged s.heap a := by simp [Flagged, ha, hfl]
  have hmem : a ∈ (s.insert a).cache := mem_insert.mpr (.inr ⟨rfl, hf⟩)
  refine ⟨hi.insert hal hflag, .insert a, by simpa using hal, by simp [Heap.alpha_self],
    fun p hp => ?_, fun _ => ⟨hmem, fun q hq => .inl (by simpa using hq)⟩,
    fun _ _ hfc => absurd (find_of_mem hi (hfc a (.refl a) hflag)) (by rw [hf]; simp)⟩
  rcases mem_insert.mp hp with hp | ⟨rfl, -⟩
  · exact .inl hp
  · exact .inr ⟨p, .refl p, by simp [Heap.alpha_self]⟩

section Loop

variable {s₀ : Sharing} {a : Nat} {c : Cell}

theorem LoopStep.refl (s₁ : Sharing) : LoopStep s₀ a c s₁ s₁ :=
  ⟨.refl s₁, fun _ hp => .inl hp, fun _ => .refl s₁, fun _ hcl _ => hcl⟩

theorem LoopStep.trans (hi₀ : Inv mix s₀) (ha : s₀.heap[a]? = some c) {s₁ s₂ s₃ : Sharing}
    (hi₁ : Inv mix s₁) (he₁ : Extends s₀ s₁) (hi₂ : Inv mix s₂) (he₂ : Extends s₀ s₂)
    (h₁₂ : LoopStep s₀ a c s₁ s₂) (h₂₃ : LoopStep s₀ a c s₂ s₃) : LoopStep s₀ a c s₁ s₃ := by
  have hal : a < s₀.heap.length := (List.getElem?_eq_some_iff.mp ha).1
  refine ⟨h₁₂.ext.trans h₂₃.ext, fun p hp => ?_, fun hnc =>
    (h₁₂.flags hnc).trans (h₂₃.flags hnc) h₂₃.ext, fun hnc hcl hfc =>
    h₂₃.closed hnc (h₁₂.closed hnc hcl hfc)
      (hfc.later hi₁ h₁₂.ext (h₁₂.flags hnc) (Nat.lt_of_lt_of_le hal he₁.sub.length_le))⟩
  rcases h₂₃.fresh p hp with hp | hp
  · rcases h₁₂.fresh p hp with hp' | ⟨x, hx, q, hq, hpq⟩
    · exact .inl hp'
    · refine .inr ⟨x, hx, q, hq, ?_⟩
      have hql := hq.lt hi₀.wf (Nat.lt_trans (hi₀.wf a c ha x hx) hal)
      rw [h₂₃.ext.alpha hi₂.wf (hi₂.valid p hp) (Nat.lt_of_lt_of_le hql he₂.sub.length_le)]
      exact hpq
  · exact .inr hp

end Loop

/-- **One call of `max_sharing_fn`.** From any state satisfying the invariant, a call on a valid
cell with more fuel than the cell's index succeeds, as `Post` describes. -/
theorem apply_spec : ∀ (fuel : Nat) (s : Sharing) (a : Nat), Inv mix s → a < s.heap.length →
    a < fuel → ∃ s' r, apply mix fuel s a = some (s', r) ∧ Post mix s a s' r
  | 0, _, _, _, _, hfuel => absurd hfuel (Nat.not_lt_zero _)
  | fuel + 1, s, a, hi, ha, hfuel => by
    obtain ⟨c, hc⟩ : ∃ c, s.heap[a]? = some c := ⟨_, List.getElem?_eq_getElem ha⟩
    cases hf : s.find a with
    | some r => exact ⟨s, r, by simp only [apply, hf], post_hit hi ha hf⟩
    | none =>
      cases hfl : c.maxShared
      case true =>
        exact ⟨s.insert a, a, by simp only [apply, hf, hc, hfl, if_true], post_flagged hi hc hf hfl⟩
      case false =>
      have child : ∀ x ∈ c.node.children, x < a := hi.wf a c hc
      obtain ⟨s₁, cs, hloop, ⟨hi₁, -⟩, hstep, hcs⟩ :=
        @mapState_spec Sharing (apply mix fuel) (fun s' => Inv mix s' ∧ Extends s s')
          (LoopStep s a c)
          (fun s' x y => x < s'.heap.length ∧ s'.heap.alpha y x = true ∧ y < s'.heap.length ∧
            (NoClash s.heap a → y ∈ s'.cache))
          LoopStep.refl
          (fun _ _ _ ⟨hi₁, he₁⟩ ⟨hi₂, he₂⟩ h₁₂ h₂₃ =>
            LoopStep.trans hi hc hi₁ he₁ hi₂ he₂ h₁₂ h₂₃)
          (fun s₁ _ x y ⟨hi₁, _⟩ h ⟨hx, hxy, hy, hc'⟩ =>
            ⟨Nat.lt_of_lt_of_le hx h.ext.sub.length_le,
              by rw [h.ext.alpha hi₁.wf hy hx]; exact hxy,
              Nat.lt_of_lt_of_le hy h.ext.sub.length_le, fun hnc => h.ext.cache y (hc' hnc)⟩)
          c.node.children s ⟨hi, .refl s⟩ fun x hx s' ⟨hi', he'⟩ _ => by
            have hxl : x < s.heap.length := Nat.lt_trans (child x hx) ha
            have hxl' : x < s'.heap.length := Nat.lt_of_lt_of_le hxl he'.sub.length_le
            obtain ⟨s'', y, e, post⟩ := apply_spec fuel s' x hi' hxl'
              (Nat.lt_of_lt_of_le (child x hx) (Nat.lt_succ_iff.mp hfuel))
            have hnc' : NoClash s.heap a → NoClash s'.heap x := fun hnc =>
              (hnc.child hc hx).of_sub he'.sub hi.wf hxl
            refine ⟨s'', y, e, ⟨post.inv, he'.trans post.ext⟩, ⟨post.ext, fun p hp => ?_,
              fun hnc => (post.cached (hnc' hnc)).2, fun hnc hcl hfc => post.closed (hnc' hnc) hcl
                fun q hq => hfc q ?_⟩, Nat.lt_of_lt_of_le hxl' post.ext.sub.length_le, post.alpha,
              post.lt, fun hnc => (post.cached (hnc' hnc)).1⟩
            · rcases post.fresh p hp with hp | ⟨q, hq, hpq⟩
              · exact .inl hp
              · exact .inr ⟨x, hx, q, he'.sub.reach_of hi.wf hxl hq, hpq⟩
            · obtain ⟨c', hc', hn', -⟩ := he'.sub.cell a c hc
              exact .child hc' (hn' ▸ hx) hq
      refine ⟨_, _, by simp only [apply, hf, hc, hfl, hloop]; rfl,
        post_rebuild hi hc hf hi₁ hstep (hcs.imp fun _ _ h => h.2)⟩

/-- **Clashes come from annotations.** On a heap without annotated constants no input has a
clash: a child denotes a strictly smaller tree up to alpha-equivalence. -/
theorem noClash_of_unannotated {h : Heap} (hwf : h.WF) (hna : ∀ c ∈ h, c.node.annotated = false)
    (a : Nat) : NoClash h a := by
  have ann : ∀ {p : Nat} {c : Cell}, h[p]? = some c → c.node.annotated = false := fun hc =>
    hna _ (List.getElem?_mem hc)
  have below : ∀ {x q}, h.Reach x q → sizeOf (h.expr q).erase ≤ sizeOf (h.expr x).erase := by
    intro x q hq
    induction hq with
    | refl => exact Nat.le_refl _
    | child hc hx _ ih =>
      exact Nat.le_of_lt (Nat.lt_of_le_of_lt ih (Heap.sizeOf_erase_child hwf hc (ann hc) hx))
  intro p _ c hc x hx q hq
  refine Bool.eq_false_iff.mpr fun hqp => ?_
  have := congrArg sizeOf (Expr.alphaEq_iff.mp hqp)
  have := Nat.lt_of_le_of_lt (below hq) (Heap.sizeOf_erase_child hwf hc (ann hc) hx)
  omega

theorem hashedBy_iff {h : Heap} :
    HashedBy mix h ↔
      ∀ p : Fin h.length, (h.get p).hash = mix ((h.get p).node.map h.hashOf).eraseNames := by
  refine ⟨fun hh p => hh p (h.get p) (by simp), fun H p c hc => ?_⟩
  obtain ⟨hp, rfl⟩ := List.getElem?_eq_some_iff.mp hc
  exact H ⟨p, hp⟩

instance {h : Heap} : Decidable (HashedBy mix h) := decidable_of_iff _ hashedBy_iff.symm

theorem Inv.empty {h : Heap} (hwf : h.WF) (hh : HashedBy mix h) : Inv mix ⟨h, []⟩ :=
  ⟨hwf, hh, fun _ hp => absurd hp (List.not_mem_nil _), fun _ hp => absurd hp (List.not_mem_nil _),
    fun _ hp => absurd hp (List.not_mem_nil _)⟩

/-- **A run of calls.** Each call returns a cached cell equivalent to its input. -/
theorem calls_spec : ∀ (as : List Nat) (s : Sharing), Inv mix s →
    (∀ a ∈ as, a < s.heap.length ∧ NoClash s.heap a) →
    ∃ s' rs, calls mix s as = some (s', rs) ∧ Inv mix s' ∧ Extends s s' ∧
      List.Forall₂ (fun a r => r ∈ s'.cache ∧ s'.heap.alpha r a = true) as rs
  | [], s, hi, _ => ⟨s, [], rfl, hi, .refl s, .nil⟩
  | a :: as, s, hi, has => by
    obtain ⟨ha, hnc⟩ := has a (List.mem_cons_self _ _)
    obtain ⟨s₁, r, e₁, post⟩ := apply_spec (s.heap.length + 1) s a hi ha (Nat.lt_succ_of_lt ha)
    obtain ⟨s₂, rs, e₂, hi₂, he₂, hrs⟩ := calls_spec as s₁ post.inv fun b hb =>
      have ⟨hbl, hbn⟩ := has b (List.mem_cons_of_mem _ hb)
      ⟨Nat.lt_of_lt_of_le hbl post.ext.sub.length_le, hbn.of_sub post.ext.sub hi.wf hbl⟩
    refine ⟨s₂, r :: rs, by simp only [calls, e₁, e₂, Option.map_some'], hi₂, post.ext.trans he₂,
      .cons ⟨he₂.cache r (post.cached hnc).1, ?_⟩ hrs⟩
    rw [he₂.alpha post.inv.wf post.lt (Nat.lt_of_lt_of_le ha post.ext.sub.length_le)]
    exact post.alpha

/-! ## Canonical results

Two heaps for the results below, hashed by `kindHash`, which mixes only a node's kind (any `mix`
is allowed). -/

/-- A hash of a node by its kind alone, in the order of `ExprKind`. -/
def kindHash (n : Node UInt32) : UInt32 := n.kind.toCtorIdx.toUInt32

/-- `fun x : #0, x` and `fun y : #0, y`, built apart. -/
def lambdaPair : Heap :=
  [⟨.var 0, 0, false, false⟩, ⟨.var 0, 0, false, false⟩,
   ⟨.abst .lambda "x" 0 0, 5, false, false⟩, ⟨.abst .lambda "y" 1 1, 5, false, false⟩]

/-- **The cache of a `max_sharing_fn` object.** Over any run of calls on one object, from an empty
cache on a well-formed heap hashed by `mix`, whatever flags the cells carry, on inputs without a
clash: the cache holds at most one cell per alpha-equivalence class, every cached cell is flagged,
and each call returns the cached cell of its input's class. So two calls return the same cell iff
their inputs are alpha-equivalent. -/
theorem calls_canonical {h : Heap} (hwf : h.WF) (hh : HashedBy mix h) {as : List Nat}
    (has : ∀ a ∈ as, a < h.length ∧ NoClash h a) :
    ∃ s' rs, calls mix ⟨h, []⟩ as = some (s', rs) ∧
      (∀ p ∈ s'.cache, ∀ q ∈ s'.cache, s'.heap.alpha p q = true → p = q) ∧
      (∀ p ∈ s'.cache, Flagged s'.heap p) ∧
      List.Forall₂ (fun a r => r ∈ s'.cache ∧ s'.heap.alpha r a = true) as rs ∧
      ∀ a r b r', (a, r) ∈ as.zip rs → (b, r') ∈ as.zip rs → (r = r' ↔ h.alpha a b = true) := by
  obtain ⟨s', rs, e, hi, he, hrs⟩ := calls_spec as ⟨h, []⟩ (.empty hwf hh) has
  refine ⟨s', rs, e, hi.unique, hi.flagged, hrs, fun a r b r' hab hab' => ?_⟩
  obtain ⟨hr, hra⟩ := List.forall₂_zip hrs hab
  obtain ⟨hr', hrb⟩ := List.forall₂_zip hrs hab'
  have hal := (has a (List.of_mem_zip hab).1).1
  have hbl := (has b (List.of_mem_zip hab').1).1
  rw [← he.alpha hwf hal hbl]
  constructor
  · rintro rfl
    exact Heap.alpha_trans (Heap.alpha_symm hra) hrb
  · intro hab''
    exact hi.unique r hr r' hr' (Heap.alpha_trans hra (Heap.alpha_trans hab'' (Heap.alpha_symm hrb)))

theorem calls_lambdaPair : lambdaPair.WF ∧ HashedBy kindHash lambdaPair ∧
    (∀ a ∈ [3, 2, 3], a < lambdaPair.length ∧ NoClash lambdaPair a) ∧
    ∃ s' rs, calls kindHash ⟨lambdaPair, []⟩ [3, 2, 3] = some (s', rs) ∧
      (∀ p ∈ s'.cache, ∀ q ∈ s'.cache, s'.heap.alpha p q = true → p = q) ∧
      (∀ p ∈ s'.cache, Flagged s'.heap p) ∧
      List.Forall₂ (fun a r => r ∈ s'.cache ∧ s'.heap.alpha r a = true) [3, 2, 3] rs ∧
      ∀ a r b r', (a, r) ∈ [3, 2, 3].zip rs → (b, r') ∈ [3, 2, 3].zip rs →
        (r = r' ↔ lambdaPair.alpha a b = true) :=
  have hwf : lambdaPair.WF := by decide
  have has : ∀ a ∈ [3, 2, 3], a < lambdaPair.length ∧ NoClash lambdaPair a :=
    fun a ha => ⟨(by decide : ∀ a ∈ [3, 2, 3], a < lambdaPair.length) a ha,
      noClash_of_unannotated hwf (by decide) a⟩
  ⟨hwf, by decide, has, calls_canonical hwf (by decide) has⟩

/-- `c : (c : Type)`: the constant `c` annotated with the constant `c : Type`. The two are `==`, and
the first strictly contains the second. -/
def constClash : Heap :=
  [⟨.type .zero, 2, false, false⟩, ⟨.constant "c" (some 0), 1, false, false⟩,
   ⟨.constant "c" (some 1), 1, false, false⟩]

/-- Two calls on the same cell return different cells: the first caches the annotation, so the
insertion of the cell itself does nothing and it is returned uncached; the second finds the
annotation. -/
theorem calls_constClash :
    constClash.WF ∧ HashedBy kindHash constClash ∧
      calls kindHash ⟨constClash, []⟩ [2, 2] =
        some (⟨constClash.map fun c => { c with maxShared := true }, [0, 1]⟩, [2, 1]) := by
  decide

/-- **`max_sharing` is maximal** on an input that reaches no flagged cell and has no clash: no two
distinct cells reachable from the result are alpha-equivalent, and the object that produced it
returns every such cell as it is. -/
theorem maxSharing_maximal {h : Heap} (hwf : h.WF) (hh : HashedBy mix h) {e : Nat}
    (he : e < h.length) (hnc : NoClash h e) (hfl : ∀ q, h.Reach e q → ¬ Flagged h q) :
    ∃ s' r, maxSharing mix h e = some (s', r) ∧ s'.heap.alpha r e = true ∧
      (∀ p q, s'.heap.Reach r p → s'.heap.Reach r q → s'.heap.alpha p q = true → p = q) ∧
      ∀ t, s'.heap.Reach r t → ∀ fuel, apply mix (fuel + 1) s' t = some (s', t) := by
  obtain ⟨c, hc⟩ : ∃ c, h[e]? = some c := ⟨_, List.getElem?_eq_getElem he⟩
  have hce : c.maxShared = false :=
    Bool.eq_false_iff.mpr fun hm => hfl e (.refl e) (by simp [Flagged, hc, hm])
  obtain ⟨s', r, eq, post⟩ := apply_spec (e + 1) ⟨h, []⟩ e (.empty hwf hh) he (Nat.lt_succ_self e)
  have hcl : Closed s' := post.closed hnc (fun _ hp => absurd hp (List.not_mem_nil _))
    fun q hq hq' => absurd hq' (hfl q hq)
  have hr := (post.cached hnc).1
  refine ⟨s', r, by simp only [maxSharing, hc, hce, Option.map_some', Option.getD_some,
      Bool.false_eq_true, if_false, eq], post.alpha,
    fun p q hp hq hpq => post.inv.unique p (hcl r hr p hp) q (hcl r hr q hq) hpq,
    fun t ht fuel => by simp only [apply, find_of_mem post.inv (hcl r hr t ht)]⟩

example : lambdaPair.WF ∧ HashedBy kindHash lambdaPair ∧
    3 < lambdaPair.length ∧ NoClash lambdaPair 3 ∧
    (∀ q, lambdaPair.Reach 3 q → ¬ Flagged lambdaPair q) ∧
    ∃ s' r, maxSharing kindHash lambdaPair 3 = some (s', r) ∧ s'.heap.alpha r 3 = true ∧
      (∀ p q, s'.heap.Reach r p → s'.heap.Reach r q → s'.heap.alpha p q = true → p = q) ∧
      ∀ t, s'.heap.Reach r t → ∀ fuel, apply kindHash (fuel + 1) s' t = some (s', t) :=
  have hwf : lambdaPair.WF := by decide
  have hnc := noClash_of_unannotated hwf (by decide) 3
  have hfl : ∀ q, lambdaPair.Reach 3 q → ¬ Flagged lambdaPair q := fun q _ hq => by
    have hall : ∀ c ∈ lambdaPair, c.maxShared = false := by decide
    obtain ⟨c, hc, hm⟩ := Option.map_eq_some'.mp hq
    exact absurd hm (by simp [hall c (List.getElem?_mem hc)])
  ⟨hwf, by decide, by decide, hnc, hfl, maxSharing_maximal hwf (by decide) (by decide) hnc hfl⟩

/-- `g = proj₁ #0` flagged by an earlier `max_sharing` call with its child, a fresh `#0`, a constant
`k`, and `k g #0` built on them. -/
def flaggedChild : Heap :=
  [⟨.var 0, 0, false, true⟩, ⟨.proj true 0, 11, false, true⟩, ⟨.var 0, 0, false, false⟩,
   ⟨.constant "k" none, 1, false, false⟩, ⟨.app 3 1 [2], 4, false, false⟩]

/-- The flagged `g` is cached without visiting its child, so the result still reaches two
distinct cells `#0`. -/
theorem maxSharing_flaggedChild :
    flaggedChild.WF ∧ HashedBy kindHash flaggedChild ∧
      ∃ s', maxSharing kindHash flaggedChild 4 = some (s', 4) ∧
        s'.heap.Reach 4 0 ∧ s'.heap.Reach 4 2 ∧ s'.heap.alpha 0 2 = true :=
  ⟨by decide, by decide, ⟨flaggedChild.map fun c => { c with maxShared := true }, [3, 1, 2, 4]⟩,
    by decide, .child rfl (by decide : 1 ∈ [3, 1, 2]) (.child rfl (by decide : 0 ∈ [0]) (.refl 0)),
    .child rfl (by decide : 2 ∈ [3, 1, 2]) (.refl 2), by decide⟩

end Sharing

end LeanKernel
