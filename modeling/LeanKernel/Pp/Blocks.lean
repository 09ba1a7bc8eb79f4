import LeanKernel.Pp.Printer
import Mathlib.Data.List.Basic

/-!
# The binder-block loops

`pp_exists` (`pp.cpp`, lines 417-443) and `pp_abstraction_core` (lines 971-1025) print binders in
blocks `(x y : A)` by a loop that gathers each block ahead: from the block's first binder `it`, an
inner `while` moves `it2` over the binders with the same domain (and, in `pp_abstraction_core`,
the same implicitness at their `arg_pos`), then the block's domain is printed and the loop goes on
from `it2`. `pp_abstraction_core` also tests, at the first binder of each block, whether the rest
is an arrow tail.

The printer's model (`ppBlocks`) instead carries the block being gathered and prints it when the
next binder does not join it. This module writes both loops as the source has them and shows that
`ppBlocks` is each of them: the same calls of the recursive `pp`, in the same order, with the same
result.

* `gatherBlock` — the inner `while` of `pp_abstraction_core`;
* `existsBlockLoop`, `abstBlockLoop` — the two loops in the source's order;
* `ppBlocks_refines_source` — **the model's loop is the source's**, for both.
-/

namespace LeanKernel

/-- The inner `while` of `pp_abstraction_core`'s block loop: move past the binders that `joins` at
their `arg_pos`; the names passed, the binders left and the `arg_pos` reached. -/
def gatherBlock (joins : Expr → Nat → Bool) :
    List (Name × Expr) → Nat → List Name × List (Name × Expr) × Nat
  | [], pos => ([], [], pos)
  | (n, d) :: rest, pos =>
    if joins d pos then
      let r := gatherBlock joins rest (pos + 1)
      (n :: r.1, r.2)
    else ([], (n, d) :: rest, pos)

theorem gatherBlock_length_le (joins : Expr → Nat → Bool) :
    ∀ (bs : List (Name × Expr)) (pos : Nat), (gatherBlock joins bs pos).2.1.length ≤ bs.length
  | [], _ => le_rfl
  | (_, d) :: rest, pos => by
    unfold gatherBlock
    split
    · exact (gatherBlock_length_le joins rest (pos + 1)).trans (Nat.le_succ _)
    · exact le_rfl

/-- The inner `while` stops at the end or at a binder that does not join. -/
theorem gatherBlock_stop (joins : Expr → Nat → Bool) :
    ∀ (bs : List (Name × Expr)) (pos : Nat) (n : Name) (d : Expr) (rest : List (Name × Expr)),
      (gatherBlock joins bs pos).2.1 = (n, d) :: rest → joins d (gatherBlock joins bs pos).2.2 = false
  | [], _, _, _, _, h => nomatch h
  | (n', d') :: rest', pos, n, d, rest, h => by
    unfold gatherBlock at h ⊢
    split
    · exact gatherBlock_stop joins rest' (pos + 1) n d rest (by rwa [if_pos ‹_›] at h)
    · rename_i hj
      rw [if_neg hj] at h
      obtain ⟨⟨rfl, rfl⟩, rfl⟩ := List.cons.inj h
      exact Bool.eq_false_iff.mpr hj

/-- Without a test on the position, the inner `while` is a `span` of the binders. -/
theorem gatherBlock_eq_span (j : Expr → Bool) :
    ∀ (bs : List (Name × Expr)) (pos : Nat),
      (gatherBlock (fun d _ => j d) bs pos).1 = ((bs.span fun p => j p.2).1.map Prod.fst) ∧
        (gatherBlock (fun d _ => j d) bs pos).2.1 = (bs.span fun p => j p.2).2
  | [], _ => ⟨rfl, rfl⟩
  | (n, d) :: rest, pos => by
    have ih := gatherBlock_eq_span j rest (pos + 1)
    rw [List.span_eq_take_drop] at ih ⊢
    unfold gatherBlock
    by_cases hj : j d = true
    · simp only [hj, if_true, List.takeWhile_cons, List.dropWhile_cons, List.map_cons]
      exact ⟨congrArg (n :: ·) ih.1, ih.2⟩
    · simp only [hj, if_false, Bool.false_eq_true, List.takeWhile_cons, List.dropWhile_cons,
        List.map_nil, and_self]

section Loops

variable (ctx : PpContext) (opts : PpOptions) (rec : Expr → Nat → Bool → PpM PpResult)

/-- The block loop of `pp_exists` (lines 417-443): the block of the binders with the domain of its
first (`it2->second == it->second`), its domain by `pp_scoped_child`, added to the bindings; at the
end the body. -/
def existsBlockLoop (head : Fmt) (b : Expr) (depth : Nat) (binders : List (Name × Expr))
    (first : Bool) (bindings : Fmt) (rWeight : Nat) : PpM PpResult :=
  match binders with
  | [] => do
    let pBody ← ppScopedChild ctx opts rec b depth 0
    pure ⟨.group (.nest opts.indent
      (Fmt.seq [head, .space, .group bindings, .comma, .line, pBody.fmt])), rWeight + pBody.weight⟩
  | (n, d) :: rest =>
    let block := rest.span fun p => p.2.alphaEq d
    do
    let pDomain ← ppScopedChild ctx opts rec d depth 0
    let f := Fmt.group (.nest opts.indent (Fmt.seq
      [.lp, ppBnames n (block.1.map Prod.fst) true, .space, .colon, .space, pDomain.fmt, .rp]))
    existsBlockLoop head b depth block.2 false
      (if first then f else bindings.compose (.compose .line f)) (rWeight + pDomain.weight)
termination_by binders.length
decreasing_by
  simp only [List.span_eq_take_drop, List.length_cons]
  exact Nat.lt_succ_of_le (List.dropWhile_suffix _).length_le

/-- The block loop of `pp_abstraction_core` (lines 971-1025): at the first binder of a block, when
there is no mask and `arg_pos` has passed `get_arrow_starting_at(e)`, the rest are the domains of an
arrow ending in the body; otherwise the block of the binders with the first's domain and
implicitness, its domain by `pp_scoped_child` in parentheses or braces, added to the bindings; at
the end the body. -/
def abstBlockLoop (implicitArgs : Option (List Bool)) (arrowStart : Nat) (head : Fmt)
    (headIndent : Nat) (bodySep : Fmt) (b : Expr) (depth : Nat) (binders : List (Name × Expr))
    (first : Bool) (bindings : Fmt) (argPos rWeight : Nat) : PpM PpResult :=
  match binders with
  | [] => do
    let pBody ← ppScopedChild ctx opts rec b depth 0
    pure ⟨.group (.nest headIndent
      (Fmt.seq [head, .space, .group bindings, bodySep, .line, pBody.fmt])), rWeight + pBody.weight⟩
  | (n, d) :: rest =>
    let implicit := isImplicit implicitArgs argPos
    if implicitArgs.isNone && arrowStart < argPos + 1 then do
      let (block, rWeight) ← ppArrowDomains ctx opts rec depth ((n, d) :: rest) none rWeight
      let pBody ← ppArrowChild ctx opts rec b depth
      let block := Fmt.group (block.compose (Fmt.seq [.space, arrowKw opts.unicode, .line, pBody.fmt]))
      pure ⟨.group (.nest headIndent
        (Fmt.seq [head, .space, .group bindings, bodySep, .line, block])), rWeight + pBody.weight⟩
    else
      let block := gatherBlock
        (fun d' pos => d'.alphaEq d && implicit == isImplicit implicitArgs pos) rest (argPos + 1)
      do
      let pDomain ← ppScopedChild ctx opts rec d depth 0
      let f := Fmt.group (.nest opts.indent (Fmt.seq [if implicit then .lcurly else .lp,
        ppBnames n block.1 true, .space, .colon, .space, pDomain.fmt,
        if implicit then .rcurly else .rp]))
      abstBlockLoop implicitArgs arrowStart head headIndent bodySep b depth block.2.1 false
        (if first then f else bindings.compose (.compose .line f)) block.2.2 (rWeight + pDomain.weight)
termination_by binders.length
decreasing_by
  simp only [List.length_cons]
  exact Nat.lt_succ_of_le (gatherBlock_length_le _ _ _)

end Loops

/-! ## The model's loop is the source's -/

section Refinement

variable (ctx : PpContext) (opts : PpOptions) (rec : Expr → Nat → Bool → PpM PpResult)
  (head : Fmt) (headIndent : Nat) (bodySep : Fmt) (b : Expr) (depth : Nat)

/-- The binders that join the block being gathered are gathered ahead, as the source's inner
`while` does. -/
theorem ppBlocks_gather (implicitArgs : Option (List Bool)) (arrowStart : Option Nat)
    (first : Name) (dom : Expr) (impl : Bool) :
    ∀ (bs : List (Name × Expr)) (ns : List Name) (pos : Nat) (f : Option Fmt) (w : Nat),
      ppBlocks ctx opts rec implicitArgs arrowStart head headIndent bodySep b depth bs
          (some ⟨first, ns, dom, impl⟩) pos f w =
        let g := gatherBlock (fun d p => d.alphaEq dom && impl == isImplicit implicitArgs p) bs pos
        ppBlocks ctx opts rec implicitArgs arrowStart head headIndent bodySep b depth g.2.1
          (some ⟨first, ns ++ g.1, dom, impl⟩) g.2.2 f w
  | [], ns, pos, f, w => by simp only [gatherBlock, List.append_nil]
  | (n, d) :: rest, ns, pos, f, w => by
    dsimp only
    rw [ppBlocks.eq_2]
    simp only [BinderBlock.joins]
    unfold gatherBlock
    split
    · rw [Option.map_some', ppBlocks_gather implicitArgs arrowStart first dom impl rest (ns ++ [n])
        (pos + 1) f w]
      simp only [List.append_assoc, List.singleton_append]
    · simp only [List.append_nil]
      rw [ppBlocks.eq_2]
      simp only [BinderBlock.joins, if_neg ‹_›]

/-- Where the next binder does not join it, the block being gathered is printed first. -/
theorem ppBlocks_flush (implicitArgs : Option (List Bool)) (arrowStart : Option Nat)
    (blk : BinderBlock) (bs : List (Name × Expr)) (pos : Nat) (f : Option Fmt) (w : Nat)
    (hstop : ∀ n d rest, bs = (n, d) :: rest →
      BinderBlock.joins (some blk) d (isImplicit implicitArgs pos) = false) :
    ppBlocks ctx opts rec implicitArgs arrowStart head headIndent bodySep b depth bs (some blk) pos
        f w =
      flushBlock ctx opts rec depth (some blk) f w >>= fun r =>
        ppBlocks ctx opts rec implicitArgs arrowStart head headIndent bodySep b depth bs none pos
          r.1 r.2 := by
  cases bs with
  | nil => simp only [ppBlocks, flushBlock, pure_bind, bind_assoc]
  | cons p rest =>
    obtain ⟨n, d⟩ := p
    rw [ppBlocks.eq_2, if_neg (by simpa using hstop n d rest rfl)]
    simp only [ppBlocks.eq_2, BinderBlock.joins, Bool.false_eq_true, if_false, flushBlock, pure_bind,
      bind_assoc]

/-- `ppBlocks` from `arg_pos` `pos`, with the bindings `f` so far, is `pp_abstraction_core`'s loop
there. -/
theorem ppBlocks_eq_abstBlockLoop (implicitArgs : Option (List Bool)) (arrowStart : Nat) :
    ∀ (bs : List (Name × Expr)) (pos : Nat) (f : Option Fmt) (w : Nat),
      ppBlocks ctx opts rec implicitArgs (some arrowStart) head headIndent bodySep b depth bs none
          pos f w =
        abstBlockLoop ctx opts rec implicitArgs arrowStart head headIndent bodySep b depth bs
          f.isNone (f.getD .nil) pos w
  | [], pos, f, w => by
    rw [abstBlockLoop]
    simp only [ppBlocks, flushBlock, pure_bind]
    rfl
  | (n, d) :: rest, pos, f, w => by
    rw [abstBlockLoop, ppBlocks.eq_2]
    simp only [BinderBlock.joins, Bool.false_eq_true, if_false, flushBlock, pure_bind, Option.any]
    split
    · rfl
    · rw [ppBlocks_gather, ppBlocks_flush _ _ _ _ _ _ _ _ _ _ _ _ _ _ _
        fun n' d' rest' h => gatherBlock_stop _ rest (pos + 1) n' d' rest' h]
      simp only [flushBlock, bind_assoc, pure_bind, List.nil_append]
      refine congrArg (ppScopedChild ctx opts rec d depth 0 >>= ·) (funext fun p => ?_)
      rw [ppBlocks_eq_abstBlockLoop]
      cases f <;> rfl
termination_by bs => bs.length
decreasing_by
  simp only [List.length_cons]
  exact Nat.lt_succ_of_le (gatherBlock_length_le _ _ _)

/-- `ppBlocks` without a mask or an arrow start, with the bindings `f` so far, is `pp_exists`'s
loop: its join test is the domain's. -/
theorem ppBlocks_eq_existsBlockLoop :
    ∀ (bs : List (Name × Expr)) (pos : Nat) (f : Option Fmt) (w : Nat),
      ppBlocks ctx opts rec none none head opts.indent .comma b depth bs none pos f w =
        existsBlockLoop ctx opts rec head b depth bs f.isNone (f.getD .nil) w
  | [], pos, f, w => by
    rw [existsBlockLoop]
    simp only [ppBlocks, flushBlock, pure_bind]
    rfl
  | (n, d) :: rest, pos, f, w => by
    rw [existsBlockLoop, ppBlocks.eq_2]
    simp only [BinderBlock.joins, Bool.false_eq_true, if_false, flushBlock, pure_bind, Option.any,
      Option.isNone_none, Option.isNone_some, Bool.true_and]
    rw [ppBlocks_gather, ppBlocks_flush _ _ _ _ _ _ _ _ _ _ _ _ _ _ _
      fun n' d' rest' h => gatherBlock_stop _ rest (pos + 1) n' d' rest' h]
    simp only [flushBlock, bind_assoc, pure_bind, List.nil_append, isImplicit, beq_self_eq_true,
      Bool.and_true]
    obtain ⟨h1, h2⟩ := gatherBlock_eq_span (·.alphaEq d) rest (pos + 1)
    rw [h1, h2]
    refine congrArg (ppScopedChild ctx opts rec d depth 0 >>= ·) (funext fun p => ?_)
    rw [ppBlocks_eq_existsBlockLoop]
    cases f <;> rfl
termination_by bs => bs.length
decreasing_by
  simp only [List.span_eq_take_drop, List.length_cons]
  exact Nat.lt_succ_of_le (List.dropWhile_suffix _).length_le

end Refinement

/-- **The model's block loop is the source's.** For every recursive `pp`, head, body and list of
binders: `ppBlocks` as `pp_exists` calls it is the block loop of `pp_exists`; and as
`pp_abstraction_core` calls it, with every mask and arrow start, it is the block loop of
`pp_abstraction_core`. The same calls of `pp`, in the same order, with the same result: printing a
block when the next binder does not join it is gathering it ahead. -/
theorem ppBlocks_refines_source (ctx : PpContext) (opts : PpOptions)
    (rec : Expr → Nat → Bool → PpM PpResult) (head : Fmt) (headIndent : Nat) (bodySep : Fmt)
    (b : Expr) (depth : Nat) (binders : List (Name × Expr)) :
    ppBlocks ctx opts rec none none head opts.indent .comma b depth binders none 0 none 1 =
        existsBlockLoop ctx opts rec head b depth binders true .nil 1 ∧
      ∀ (implicitArgs : Option (List Bool)) (arrowStart : Nat),
        ppBlocks ctx opts rec implicitArgs (some arrowStart) head headIndent bodySep b depth
            binders none 0 none 1 =
          abstBlockLoop ctx opts rec implicitArgs arrowStart head headIndent bodySep b depth
            binders true .nil 0 1 :=
  ⟨ppBlocks_eq_existsBlockLoop ctx opts rec head b depth binders 0 none 1,
    fun implicitArgs arrowStart => ppBlocks_eq_abstBlockLoop ctx opts rec head headIndent bodySep b
      depth implicitArgs arrowStart binders 0 none 1⟩

end LeanKernel
