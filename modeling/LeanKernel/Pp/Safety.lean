import LeanKernel.Pp.Printer
import Mathlib.Tactic.LiftLets

/-!
# The printer's run invariant

What every run of `pp_fn` keeps, from any state, on any term, in any environment and with any
options (`WellBehaved`):

* it raises no access fault: `get_arg(i)` is only called below `get_num_args()`, so its loop never
  reaches `lean_unreachable()`, and an operator's name-part iterator is never dereferenced at its
  end;
* it keeps a relation `O` between the state it starts in and the one it ends in, for every
  `PpStateOrder` `O`: a relation that each of the printer's state updates respects.

The invariant is proved method by method, each lemma taking the invariant of the recursive `pp` as
a hypothesis (`ppStep_wellBehaved`), and tied by induction on the fuel (`ppFuel_wellBehaved`). The
operator branch is covered by the lemmas of `Pp/Notation.lean`, which hold of any property closed
under the monad's operations. Two orders are used: `localNamesOrder` (`m_local_names` grows by
insertions in front) and `aliasDefsOrder` (`m_local_aliases_defs` grows by appends, and a scope
cuts it back to what it opened with).

* `printer_access_safe` — **the printer never fails on an access**: a run of `pp`, and the
  formatter's `pp`, `pp_definition` and `pp_compact_definition`, fail, if at all, only for want of
  fuel or on an operator without a name.
* `printer_localNames_grow` — **local names are only added**: a binder name, once inserted, stays
  for the rest of the object's life;
* `mkScope_oldSize_le` — **`~mk_scope`'s assertion holds**: every scope closes with at least the
  alias definitions it opened with.
-/

namespace LeanKernel

/-! ## The invariant -/

/-- A relation between printer states, from the state before to the state after, reflexive and
transitive, that each state update of the printer respects: local names inserted in front, one more
step, an alias `m_aux.k` added as the `k`-th definition, and a scope closed over a run the relation relates, where `mk_scope`'s
destructor restores what it saved. -/
structure PpStateOrder where
  /-- The relation. -/
  R : PpState → PpState → Prop
  refl : ∀ s, R s s
  trans : ∀ {s t u}, R s t → R t u → R s u
  setLocalNames : ∀ (s : PpState) (l : List Name), s.localNames <:+ l →
    R s { s with localNames := l }
  bumpSteps : ∀ s : PpState, R s { s with numSteps := s.numSteps + 1 }
  addAlias : ∀ (s : PpState) (e : Expr) (f : Fmt),
    R s { s with
      localAliases := (e, s.aux.num (s.localAliasesDefs.length + 1)) :: s.localAliases
      localAliasesDefs := s.localAliasesDefs ++ [(s.aux.num (s.localAliasesDefs.length + 1), f)] }
  closeScope : ∀ (s s' : PpState) (e : Expr), R { s with numOccs := updateNumOccs [] e } s' →
    R s { s' with
      localAliases := s.localAliases
      localAliasesDefs := s'.localAliasesDefs.take s.localAliasesDefs.length
      numOccs := s.numOccs }

/-- The relation holds across `init` too, which clears the aliases and the step count. -/
def PpStateOrder.Resets (O : PpStateOrder) : Prop :=
  ∀ (s : PpState) (e : Expr), O.R s { s with
    localAliases := [], localAliasesDefs := [], numSteps := 0, aux := findUnusedPrefix e }

/-- Run from `s`, `x` raises no internal fault, and when it returns, `O` relates `s` to the state it
ends in. -/
def WellBehavedFrom {α : Type} (O : PpStateOrder) (s : PpState) (x : PpM α) : Prop :=
  (∀ f, x s = .error f → f.isInternal = false) ∧ ∀ a s', x s = .ok (a, s') → O.R s s'

/-- `x` is well behaved from every state. -/
def WellBehaved {α : Type} (O : PpStateOrder) (x : PpM α) : Prop := ∀ s, WellBehavedFrom O s x

namespace WellBehaved

variable {α β : Type} {O : PpStateOrder} {x : PpM α} {f : α → PpM β}

theorem avoids (h : WellBehaved O x) : Avoids PpFault.isInternal x := fun s _ he => (h s).1 _ he

theorem keeps (h : WellBehaved O x) : Keeps O.R x := fun s _ _ hr => (h s).2 _ _ hr

theorem pure (a : α) : WellBehaved O (Pure.pure a : PpM α) := fun s =>
  ⟨fun _ he => (nomatch he), fun _ _ hr => by cases hr; exact O.refl s⟩

theorem throw {f : PpFault} (h : f.isInternal = false) :
    WellBehaved O (MonadExcept.throw f : PpM α) := fun _ =>
  ⟨fun _ he => by cases he; exact h, fun _ _ hr => nomatch hr⟩

theorem get : WellBehaved O (MonadState.get : PpM PpState) := fun s =>
  ⟨fun _ he => (nomatch he), fun _ _ hr => by cases hr; exact O.refl s⟩

theorem modify {g : PpState → PpState} (h : ∀ s, O.R s (g s)) :
    WellBehaved O (MonadState.modifyGet (fun s => ((), g s)) : PpM Unit) := fun s =>
  ⟨fun _ he => (nomatch he), fun _ _ hr => by cases hr; exact h s⟩

theorem bind (hx : WellBehaved O x) (hf : ∀ a, WellBehaved O (f a)) : WellBehaved O (x >>= f) := by
  intro s
  obtain ⟨hxe, hxo⟩ := hx s
  constructor
  · intro e he
    rw [PpM.run_bind] at he
    split at he
    · exact (hf _ _).1 e he
    · cases he
      exact hxe e ‹_›
  · intro b s' hr
    rw [PpM.run_bind] at hr
    split at hr
    · exact O.trans (hxo _ _ ‹_›) ((hf _ _).2 b s' hr)
    · cases hr

/-- A computation that reads the state first is well behaved when what follows is, from the
state read. -/
theorem get_bind {k : PpState → PpM β} (h : ∀ s, WellBehavedFrom O s (k s)) :
    WellBehaved O (MonadState.get >>= k) := fun s => h s

theorem ite {c : Prop} [Decidable c] {x y : PpM α} (hx : WellBehaved O x) (hy : WellBehaved O y) :
    WellBehaved O (if c then x else y) := by
  split
  · exact hx
  · exact hy

theorem opClosed : PpM.OpClosed fun _ x => WellBehaved O x := ⟨pure, bind, throw rfl⟩

end WellBehaved

/-- Replacing the state read by one `O` relates it to. -/
theorem WellBehavedFrom.set_bind {β : Type} {O : PpStateOrder} {s t : PpState}
    {k : PUnit → PpM β} (h : O.R s t) (hk : WellBehaved O (k ())) :
    WellBehavedFrom O s (MonadStateOf.set t >>= k) :=
  ⟨(hk t).1, fun b s' hr => O.trans h ((hk t).2 b s' hr)⟩

theorem withScope_wellBehaved {α : Type} {O : PpStateOrder} {e : Expr} {body : Nat → PpM α}
    (h : ∀ n, WellBehaved O (body n)) : WellBehaved O (withScope e body) := fun s =>
  ⟨fun f hf => withScope_avoids (fun n => (h n).avoids) s f hf, fun _ _ hr => by
    obtain ⟨s₁, h1, rfl⟩ := withScope_run hr
    exact O.closeScope s s₁ e ((h _ _).2 _ _ h1)⟩

/-- The binders `collect_nested` opens are inserted into the local names, in front; it opens an
abstraction. -/
theorem collectNestedM_wellBehaved {O : PpStateOrder} {e : Expr} (T : Option Expr)
    (he : e.isAbstraction = true) :
    WellBehaved O (collectNestedM e T) := by
  unfold collectNestedM
  split
  · exact .get_bind fun s => .set_bind
      (O.setLocalNames s _ (localNames_suffix_collectNestedAux _ _ ⟨s.localNames, _, _, _⟩)) (.pure _)
  · rename_i hne
    obtain ⟨k, x, d, b, rfl⟩ := Expr.exists_abst_of_isAbstraction he
    exact (hne k x d b rfl).elim

/-! ## The methods -/

section Methods

variable (ctx : PpContext) (opts : PpOptions) {O : PpStateOrder}
  {rec : Expr → Nat → Bool → PpM PpResult}

theorem ppValue_wellBehaved (v : Value) : WellBehaved O (ppValue ctx opts v) :=
  .bind .get fun _ => .ite (.pure _) (.pure _)

theorem ppConstant_wellBehaved (e : Expr) (n : Name) : WellBehaved O (ppConstant ctx opts e n) :=
  .bind .get fun _ => .ite (.pure _) <| .ite (.pure _) <| .ite (.pure _) <| by
    split
    · exact ppValue_wellBehaved ctx opts _
    · exact .pure _

theorem collectNestedQuantifiers_wellBehaved (fuel : Nat) :
    ∀ (e : Expr) (r : List (Name × Expr)), WellBehaved O (collectNestedQuantifiers ctx fuel e r) := by
  induction fuel with
  | zero => exact fun _ _ => .throw rfl
  | succ fuel ih =>
    intro e r
    unfold collectNestedQuantifiers
    split
    · omega
    · rename_i heq
      obtain rfl := Nat.succ.inj heq
      dsimp only
      exact .bind (.modify fun s => O.setLocalNames s _ (List.suffix_cons _ _)) fun _ =>
        .ite (ih _ _) (.pure _)
    · rename_i heq
      obtain rfl := Nat.succ.inj heq
      exact ih _ _
    · exact .pure _

variable (hrec : ∀ e d m, WellBehaved O (rec e d m))
include hrec

theorem ppChildWithParen_wellBehaved (e : Expr) (depth : Nat) :
    WellBehaved O (ppChildWithParen rec e depth) :=
  .bind (hrec _ _ _) fun _ => .ite (.pure _) (.pure _)

theorem ppChild_wellBehaved (e : Expr) (depth : Nat) : WellBehaved O (ppChild ctx opts rec e depth) :=
  .ite (hrec _ _ _) (ppChildWithParen_wellBehaved hrec e depth)

theorem ppScopedChild_wellBehaved (e : Expr) (depth prec : Nat) :
    WellBehaved O (ppScopedChild ctx opts rec e depth prec) :=
  .ite (hrec _ _ _) <| withScope_wellBehaved fun _ => .bind (hrec _ _ _) fun _ =>
    .bind .get fun _ => .ite (.ite (.pure _) (.pure _)) (.pure _)

theorem ppMixfixChild_wellBehaved (op : OperatorInfo) (e : Expr) (depth : Nat) :
    WellBehaved O (ppMixfixChild ctx opts rec op e depth) :=
  .ite (hrec _ _ _) <| .bind .get fun _ =>
    .ite (hrec _ _ _) (ppChildWithParen_wellBehaved hrec e depth)

theorem ppInfixChild_wellBehaved (op : OperatorInfo) (e : Expr) (depth : Nat) (fx : Fixity) :
    WellBehaved O (ppInfixChild ctx opts rec op e depth fx) :=
  .ite (hrec _ _ _) <| .bind .get fun _ =>
    .ite (hrec _ _ _) <| .ite (hrec _ _ _) (ppChildWithParen_wellBehaved hrec e depth)

theorem flushBlock_wellBehaved (depth : Nat) :
    ∀ (cur : Option BinderBlock) (bs : Option Fmt) (w : Nat),
      WellBehaved O (flushBlock ctx opts rec depth cur bs w)
  | none, _, _ => .pure _
  | some _, _, _ => .bind (ppScopedChild_wellBehaved ctx opts hrec _ _ _) fun _ => .pure _

theorem ppArrowDomains_wellBehaved (depth : Nat) :
    ∀ (ds : List (Name × Expr)) (blk : Option Fmt) (w : Nat),
      WellBehaved O (ppArrowDomains ctx opts rec depth ds blk w)
  | [], _, _ => .pure _
  | (_, _) :: rest, _, _ => .bind (ppScopedChild_wellBehaved ctx opts hrec _ _ _) fun _ =>
    ppArrowDomains_wellBehaved depth rest _ _

theorem ppBlocks_wellBehaved (implicitArgs : Option (List Bool)) (arrowStart : Option Nat)
    (head : Fmt) (headIndent : Nat) (bodySep : Fmt) (b : Expr) (depth : Nat) :
    ∀ (binders : List (Name × Expr)) (cur : Option BinderBlock) (pos : Nat) (bs : Option Fmt)
      (w : Nat), WellBehaved O (ppBlocks ctx opts rec implicitArgs arrowStart head headIndent bodySep
        b depth binders cur pos bs w)
  | [], _, _, _, _ => .bind (flushBlock_wellBehaved ctx opts hrec _ _ _ _) fun _ =>
    .bind (ppScopedChild_wellBehaved ctx opts hrec _ _ _) fun _ => .pure _
  | (_, _) :: rest, _, _, _, _ =>
    .ite (ppBlocks_wellBehaved implicitArgs arrowStart head headIndent bodySep b depth rest _ _ _ _)
      (.bind (flushBlock_wellBehaved ctx opts hrec _ _ _ _) fun _ =>
        .ite (.bind (ppArrowDomains_wellBehaved ctx opts hrec _ _ _ _) fun _ =>
            .bind (ppScopedChild_wellBehaved ctx opts hrec _ _ _) fun _ => .pure _)
          (ppBlocks_wellBehaved implicitArgs arrowStart head headIndent bodySep b depth rest _ _ _
            _))

theorem ppExists_wellBehaved (fuel : Nat) (e : Expr) (depth : Nat) :
    WellBehaved O (ppExists ctx opts rec fuel e depth) :=
  .bind (collectNestedQuantifiers_wellBehaved ctx _ _ _) fun
    | ([], _) => .pure _
    | (_ :: _, _) => .ite
      (.bind (ppScopedChild_wellBehaved ctx opts hrec _ _ _) fun _ =>
        .bind (ppScopedChild_wellBehaved ctx opts hrec _ _ _) fun _ => .pure _)
      (ppBlocks_wellBehaved ctx opts hrec _ _ _ _ _ _ _ _ _ _ _ _)

/-- The arguments are printed at the positions from `i` on, and `i + k` is `get_num_args()`:
every `get_arg` is in range. -/
theorem ppArgs_wellBehaved (app : Application) (simple : Bool) (depth : Nat) :
    ∀ (k i : Nat) (r : Fmt) (w : Nat), i + k = app.getNumArgs →
      WellBehaved O (ppArgs ctx opts rec app simple depth k i r w)
  | 0, _, _, _, _ => .pure _
  | k + 1, i, _, _, hk => getArgM_bind (P := fun _ x => WellBehaved O x) (by omega) fun _ _ =>
    .bind (ppChild_wellBehaved ctx opts hrec _ _) fun _ =>
      ppArgs_wellBehaved app simple depth k (i + 1) _ _ (by omega)

theorem ppStandardApp_wellBehaved (app : Application) (depth : Nat) :
    WellBehaved O (ppStandardApp ctx opts rec app depth) := by
  unfold ppStandardApp
  lift_lets
  intro f constName simple indent jp
  have hjp : ∀ p, WellBehaved O (jp p) := fun _ =>
    .bind (ppArgs_wellBehaved ctx opts hrec app _ depth _ 0 _ _ (Nat.zero_add _)) fun _ => .pure _
  cases constName with
  | some n => exact .bind (.pure _) fun _ => hjp _
  | none =>
    refine .ite (.bind (ppChild_wellBehaved ctx opts hrec _ _) fun _ => hjp _) ?_
    cases f with
    | value => exact .bind (.pure _) fun _ => hjp _
    | _ => exact .bind (ppChild_wellBehaved ctx opts hrec _ _) fun _ => hjp _

/-- The operator branch is only taken when the application has the arity its operator expects. -/
theorem ppApp_wellBehaved (fuel : Nat) (f a : Expr) (as : List Expr) (depth : Nat) :
    WellBehaved O (ppApp ctx opts rec fuel f a as depth) := by
  refine .ite (hrec _ _ _) (.bind .get fun s => ?_)
  dsimp only
  split
  · rename_i op hop
    refine ppOperatorApp_closed WellBehaved.opClosed
      (fun _ => ppMixfixChild_wellBehaved ctx opts hrec _ _ _)
      (fun _ _ => ppInfixChild_wellBehaved ctx opts hrec _ _ _ _) ?_
    split at hop
    · exact (Option.filter_eq_some.mp hop).2
    · cases hop
  · exact .ite (ppExists_wellBehaved ctx opts hrec _ _ _) (ppStandardApp_wellBehaved ctx opts hrec _ _)

theorem ppAbstractionCore_wellBehaved {e : Expr} (depth : Nat) (T : Option Expr)
    (implicitArgs : Option (List Bool)) (he : e.isAbstraction = true) :
    WellBehaved O (ppAbstractionCore ctx opts rec e depth T implicitArgs) := by
  unfold ppAbstractionCore
  split
  case h_1 | h_2 =>
    exact .bind (ppScopedChild_wellBehaved ctx opts hrec _ _ _) fun _ =>
      .bind (ppScopedChild_wellBehaved ctx opts hrec _ _ _) fun _ => .pure _
  · refine .bind (collectNestedM_wellBehaved T he) fun nst => ?_
    split
    dsimp only
    split
    on_goal 1 => refine .bind (ppScopedChild_wellBehaved ctx opts hrec _ _ _) fun _ => ?_
    all_goals
      refine .bind (.pure _) fun _ => ?_
      split
      · exact .ite (.bind (ppScopedChild_wellBehaved ctx opts hrec _ _ _) fun _ =>
          .bind (ppScopedChild_wellBehaved ctx opts hrec _ _ _) fun _ => .pure _)
          (ppBlocks_wellBehaved ctx opts hrec _ _ _ _ _ _ _ _ _ _ _ _)
      · exact ppBlocks_wellBehaved ctx opts hrec _ _ _ _ _ _ _ _ _ _ _ _

theorem ppLetBindings_wellBehaved (depth : Nat) :
    ∀ (bs : List (Name × Option Expr × Expr)) (first : Bool) (r : Fmt) (w : Nat),
      WellBehaved O (ppLetBindings ctx opts rec depth bs first r w)
  | [], _, _, _ => .pure _
  | (_, none, _) :: bs, _, _, _ => .bind (ppScopedChild_wellBehaved ctx opts hrec _ _ _) fun _ =>
    ppLetBindings_wellBehaved depth bs _ _ _
  | (_, some _, _) :: bs, _, _, _ => .bind (ppScopedChild_wellBehaved ctx opts hrec _ _ _) fun _ =>
    .bind (ppScopedChild_wellBehaved ctx opts hrec _ _ _) fun _ =>
      ppLetBindings_wellBehaved depth bs _ _ _

/-- The `let`s `collect_nested_let` opens are inserted into the local names, in front. -/
theorem ppLet_wellBehaved (e : Expr) (depth : Nat) : WellBehaved O (ppLet ctx opts rec e depth) :=
  .get_bind fun s => .set_bind
    (O.setLocalNames s _ (localNames_suffix_collectNestedLetAux _ ⟨s.localNames, _, _⟩))
    (.bind (ppLetBindings_wellBehaved ctx opts hrec _ _ _ _ _) fun _ =>
      .bind (ppScopedChild_wellBehaved ctx opts hrec _ _ _) fun _ => .pure _)

theorem ppChoiceLoop_wellBehaved (depth : Nat) :
    ∀ (cs : List Expr) (first : Bool) (r : Fmt) (w : Nat),
      WellBehaved O (ppChoiceLoop ctx opts rec depth cs first r w)
  | [], _, _, _ => .pure _
  | _ :: cs, _, _, _ => .bind (ppChild_wellBehaved ctx opts hrec _ _) fun _ =>
    ppChoiceLoop_wellBehaved depth cs _ _ _

theorem ppLocalEntries_wellBehaved (depth : Nat) :
    ∀ (les : List (LocalEntry Expr)) (f : Option Fmt) (w : Nat),
      WellBehaved O (ppLocalEntries opts rec depth les f w)
  | [], _, _ => .pure _
  | .lift _ _ :: les, _, _ => .bind (.pure _) fun _ => ppLocalEntries_wellBehaved depth les _ _
  | .inst _ _ :: les, _, _ => .bind (ppChildWithParen_wellBehaved hrec _ _) fun _ =>
    ppLocalEntries_wellBehaved depth les _ _

/-- The dispatch on the kind: every branch is well behaved. -/
theorem ppKind_wellBehaved (fuel : Nat) (e : Expr) (depth : Nat) :
    WellBehaved O (ppKind ctx opts rec fuel e depth) := by
  have child := ppChild_wellBehaved ctx opts hrec
  cases e with
  | var | type => exact .pure _
  | constant n => exact ppConstant_wellBehaved ctx opts _ n
  | value => exact ppValue_wellBehaved ctx opts _
  | app => exact ppApp_wellBehaved ctx opts hrec _ _ _ _ _
  | abst => exact ppAbstractionCore_wellBehaved ctx opts hrec _ _ _ rfl
  | «let» => exact ppLet_wellBehaved ctx opts hrec _ _
  | metavar _ l =>
    cases l with
    | nil => exact .pure _
    | cons => exact .bind (ppLocalEntries_wellBehaved opts hrec _ _ _ _) fun _ => .pure _
  | heq => exact .bind (child _ _) fun _ => .bind (child _ _) fun _ => .pure _
  | pair =>
    refine .bind (child _ _) fun _ => .bind (child _ _) fun _ => ?_
    dsimp only
    exact .ite (.pure _) (.bind (child _ _) fun _ => .pure _)
  | proj => exact .bind (child _ _) fun _ => .pure _

/-- **One call of `pp`.** With a recursive `pp` that is well behaved, `pp` is: the step count and
the alias tables change, the local names do not. -/
theorem ppStep_wellBehaved (fuel : Nat) (e : Expr) (depth : Nat) (main : Bool) :
    WellBehaved O (ppStep ctx opts rec fuel e depth main) :=
  .get_bind fun s => by
    split
    · exact WellBehaved.pure _ s
    · refine .set_bind (O.bumpSteps s) ?_
      split
      · exact .pure _
      · refine .bind .get fun _ => ?_
        split
        · exact .pure _
        · split
          · exact .bind (ppChoiceLoop_wellBehaved ctx opts hrec _ _ _ _ _) fun _ => .pure _
          · refine .bind (ppKind_wellBehaved ctx opts hrec _ _ _) fun _ => .get_bind fun _ => ?_
            split
            · exact .set_bind (O.addAlias _ _ _) (.pure _)
            · exact WellBehaved.pure _ _

end Methods

/-! ## The printer -/

section Entry

variable (ctx : PpContext) (opts : PpOptions) {O : PpStateOrder}

/-- **Every run of `pp` is well behaved**, at every fuel. -/
theorem ppFuel_wellBehaved :
    ∀ (fuel : Nat) (e : Expr) (depth : Nat) (main : Bool),
      WellBehaved O (ppFuel ctx opts fuel e depth main)
  | 0, _, _, _ => .throw rfl
  | fuel + 1, _, _, _ => ppStep_wellBehaved ctx opts (ppFuel_wellBehaved fuel) _ _ _ _

theorem ppInit_wellBehaved (hinit : O.Resets) (e : Expr) : WellBehaved O (ppInit e) :=
  .modify fun s => hinit s e

theorem ppMain_wellBehaved (hinit : O.Resets) (fuel : Nat) (e : Expr) :
    WellBehaved O (ppMain ctx opts fuel e) :=
  .bind (ppInit_wellBehaved hinit e) fun _ =>
    .bind (ppScopedChild_wellBehaved ctx opts (ppFuel_wellBehaved ctx opts fuel) _ _ _) fun _ =>
      .pure _

theorem ppDefinitionFn_wellBehaved (hinit : O.Resets) (fuel : Nat) {v : Expr} (t : Expr)
    (implicitArgs : Option (List Bool)) (hv : v.isAbstraction = true) :
    WellBehaved O (ppDefinitionFn ctx opts fuel v t implicitArgs) :=
  .bind (ppInit_wellBehaved hinit _) fun _ =>
    .bind (ppAbstractionCore_wellBehaved ctx opts (ppFuel_wellBehaved ctx opts fuel) _ _ _ hv)
      fun _ => .pure _

theorem ppPiWithImplicitArgs_wellBehaved (hinit : O.Resets) (fuel : Nat) {e : Expr}
    (implicitArgs : List Bool) (he : e.isAbstraction = true) :
    WellBehaved O (ppPiWithImplicitArgs ctx opts fuel e implicitArgs) :=
  .bind (ppInit_wellBehaved hinit _) fun _ =>
    .bind (ppAbstractionCore_wellBehaved ctx opts (ppFuel_wellBehaved ctx opts fuel) _ _ _ he)
      fun _ => .pure _

end Entry

/-! ## Two orders -/

/-- Local names are only inserted, in front. -/
def localNamesOrder : PpStateOrder where
  R s s' := s.localNames <:+ s'.localNames
  refl _ := List.suffix_refl _
  trans := List.IsSuffix.trans
  setLocalNames _ _ h := h
  bumpSteps _ := List.suffix_refl _
  addAlias _ _ _ := List.suffix_refl _
  closeScope _ _ _ h := h

theorem localNamesOrder_resets : localNamesOrder.Resets := fun _ _ => List.suffix_refl _

/-- Alias definitions are only appended, and a scope cuts them back to those it opened with. -/
def aliasDefsOrder : PpStateOrder where
  R s s' := s.localAliasesDefs <+: s'.localAliasesDefs
  refl _ := List.prefix_refl _
  trans := List.IsPrefix.trans
  setLocalNames _ _ _ := List.prefix_refl _
  bumpSteps _ := List.prefix_refl _
  addAlias _ _ _ := List.prefix_append _ _
  closeScope _ _ _ h := by
    dsimp only
    rw [List.prefix_iff_eq_take, List.take_take, min_self]
    exact List.prefix_iff_eq_take.mp h

/-- A run of `pp_scoped_child` on a non-atomic term: `pp` of the term in a new scope, which closes
in the state `pp` left, the rest of the body only reading it. -/
theorem ppScopedChild_run (ctx : PpContext) (opts : PpOptions)
    {rec : Expr → Nat → Bool → PpM PpResult} {e : Expr} {depth prec : Nat} {s s' : PpState}
    {r : PpResult} (hat : isAtomic ctx opts e = false)
    (hr : ppScopedChild ctx opts rec e depth prec s = .ok (r, s')) :
    ∃ r₁ s₁, rec e (depth + 1) true { s with numOccs := updateNumOccs [] e } = .ok (r₁, s₁) ∧
      s' = { s₁ with
        localAliases := s.localAliases
        localAliasesDefs := s₁.localAliasesDefs.take s.localAliasesDefs.length
        numOccs := s.numOccs } := by
  simp only [ppScopedChild, hat, Bool.false_eq_true, if_false] at hr
  obtain ⟨s₂, h2, rfl⟩ := withScope_run hr
  simp only [PpM.run_bind, PpM.run_get] at h2
  split at h2
  · rename_i r₁ s₁ h1
    refine ⟨r₁, s₁, h1, ?_⟩
    have hs : s₂ = s₁ := by
      split at h2
      · split at h2 <;> exact (Prod.mk.inj (Except.ok.inj h2)).2.symm
      · exact (Prod.mk.inj (Except.ok.inj h2)).2.symm
    subst hs
    rfl
  · cases h2

/-! ## The formatter -/

/-- The internal faults are all faults but exhausted fuel and an operator without a name. -/
theorem PpFault.isInternal_eq_false_iff {f : PpFault} :
    f.isInternal = false ↔ f = .outOfFuel ∨ f = .opNameEmpty := by
  cases f <;> simp [PpFault.isInternal]

/-- A result of the formatter that is not a fault `bad` marks. -/
def ExceptAvoids {α : Type} (bad : PpFault → Bool) (r : Except PpFault α) : Prop :=
  ∀ f, r = .error f → bad f = false

namespace ExceptAvoids

variable {α β : Type} {bad : PpFault → Bool}

theorem pure (a : α) : ExceptAvoids bad (Pure.pure a : Except PpFault α) := fun _ h => nomatch h

theorem bind {x : Except PpFault α} {g : α → Except PpFault β} (hx : ExceptAvoids bad x)
    (hg : ∀ a, ExceptAvoids bad (g a)) : ExceptAvoids bad (x >>= g) := fun f hf => by
  cases x with
  | error e => cases hf; exact hx _ rfl
  | ok a => exact hg a f hf

theorem ite {c : Prop} [Decidable c] {x y : Except PpFault α} (hx : ExceptAvoids bad x)
    (hy : ExceptAvoids bad y) : ExceptAvoids bad (if c then x else y) := by
  split
  · exact hx
  · exact hy

/-- A fresh `pp_fn` running a computation that avoids the fault. -/
theorem run' {x : PpM α} (h : Avoids bad x) : ExceptAvoids bad (x.run' PpState.init) :=
  fun f hf => by
    cases hx : x PpState.init with
    | error e =>
      simp only [StateT.run', hx] at hf
      cases hf
      exact h _ _ hx
    | ok p => simp [StateT.run', hx] at hf

end ExceptAvoids

/-- The fault of a computation whose result is only passed on is the computation's. -/
theorem Except.eq_error_of_bind_pure {α β : Type} {x : Except PpFault α} {g : α → β}
    {f : PpFault} (h : (x >>= fun a => Pure.pure (g a)) = .error f) : x = .error f := by
  cases x with
  | error e => simpa using h
  | ok a => cases h

section Formatter

variable (ctx : PpContext) (opts : PpOptions)

theorem formatterPp_noInternalFault (fuel : Nat) (e : Expr) :
    ExceptAvoids PpFault.isInternal (formatterPp ctx opts fuel e) :=
  .run' (ppMain_wellBehaved ctx opts localNamesOrder_resets fuel e).avoids

theorem formatterPpDefinition_noInternalFault (fuel : Nat) (kwd : String) (n : Name) (t v : Expr) :
    ExceptAvoids PpFault.isInternal (formatterPpDefinition ctx opts fuel kwd n t v) :=
  .bind (formatterPp_noInternalFault ctx opts fuel t) fun _ =>
    .ite (.bind (formatterPp_noInternalFault ctx opts fuel v) fun _ => .pure _) (.pure _)

/-- `pp_pi_with_implicit_args` on a type that is not an abstraction: `collect_nested` fails at
once. -/
theorem ppPiWithImplicitArgs_notAbstraction (fuel : Nat) {t : Expr} (ht : t.isAbstraction = false)
    (mask : List Bool) :
    (ppPiWithImplicitArgs ctx opts fuel t mask).run' PpState.init = .error .notAbstraction := by
  cases t <;> first | rfl | cases ht

/-- **Where the formatter's `pp_compact_definition` can fail.** For want of fuel, on an operator
without a name, or at `get_unused_name`'s assertion, and that only when, without the definition's
value and with implicit arguments, it hands `pp_pi_with_implicit_args` a type that is not an
abstraction. -/
theorem formatterPpCompactDefinition_fault (fuel : Nat) (kwd : String) (n : Name) (t v : Expr)
    {f : PpFault} (hf : formatterPpCompactDefinition ctx opts fuel kwd n t v = .error f) :
    f.isInternal = false ∨ (f = .notAbstraction ∧ opts.definitionValue = false ∧
      ctx.hasImplicitArguments n = true ∧ t.isAbstraction = false) := by
  unfold formatterPpCompactDefinition at hf
  split at hf
  · split at hf
    · exact .inl (formatterPpDefinition_noInternalFault ctx opts fuel kwd n t v f hf)
    · rename_i hc
      have hv : v.isAbstraction = true := by
        cases v <;> simp_all [Expr.isLambda, Expr.isAbstraction]
      dsimp only at hf
      split at hf
      · exact .inl (ExceptAvoids.run'
          (ppDefinitionFn_wellBehaved ctx opts localNamesOrder_resets fuel t _ hv).avoids f
          (Except.eq_error_of_bind_pure hf))
      · rename_i hd
        cases hi : ctx.hasImplicitArguments n <;> simp only [hi, if_false, if_true, pure_bind] at hf
        · exact .inl (formatterPp_noInternalFault ctx opts fuel t f (Except.eq_error_of_bind_pure hf))
        · replace hf := Except.eq_error_of_bind_pure hf
          cases ht : t.isAbstraction
          · rw [ppPiWithImplicitArgs_notAbstraction ctx opts fuel ht] at hf
            cases hf
            exact .inr ⟨rfl, eq_false_of_ne_true hd, rfl, rfl⟩
          · exact .inl (ExceptAvoids.run'
              (ppPiWithImplicitArgs_wellBehaved ctx opts localNamesOrder_resets fuel _ ht).avoids f hf)
  · exact .inl (formatterPpDefinition_noInternalFault ctx opts fuel kwd n t v f hf)

end Formatter

/-! ## The printer's safety -/

/-- **The printer fails only for want of fuel or on an operator without a name.** In every
environment, with every option and fuel: no run of `pp`, from any state and on any term, raises
another fault; nor do the formatter's `pp` and `pp_definition`. So `get_arg(i)` is only ever called
below `get_num_args()`, its loop never reaches `lean_unreachable()`, no operator's name-part
iterator is dereferenced past its end, and `collect_nested` only opens abstractions. The
formatter's `pp_compact_definition` fails in one more way: at `get_unused_name`'s assertion, and
only when, with `lean.pp.definition_value` off and implicit arguments, it prints the type by
`pp_pi_with_implicit_args` and the type is not an abstraction. -/
theorem printer_access_safe (ctx : PpContext) (opts : PpOptions) (fuel : Nat) :
    (∀ e depth main s f, ppFuel ctx opts fuel e depth main s = .error f →
      f = .outOfFuel ∨ f = .opNameEmpty) ∧
    (∀ (kwd : String) (n : Name) (t v : Expr) (f : PpFault),
      (formatterPp ctx opts fuel t = .error f ∨ formatterPpDefinition ctx opts fuel kwd n t v = .error f) →
      f = .outOfFuel ∨ f = .opNameEmpty) ∧
    ∀ (kwd : String) (n : Name) (t v : Expr) (f : PpFault),
      formatterPpCompactDefinition ctx opts fuel kwd n t v = .error f →
      f = .outOfFuel ∨ f = .opNameEmpty ∨ (f = .notAbstraction ∧ opts.definitionValue = false ∧
        ctx.hasImplicitArguments n = true ∧ t.isAbstraction = false) := by
  refine ⟨fun e depth main s f hf => PpFault.isInternal_eq_false_iff.mp
      ((ppFuel_wellBehaved (O := localNamesOrder) ctx opts fuel e depth main).avoids s f hf),
    fun kwd n t v f hf => PpFault.isInternal_eq_false_iff.mp ?_, fun kwd n t v f hf => ?_⟩
  · rcases hf with hf | hf
    · exact formatterPp_noInternalFault ctx opts fuel t f hf
    · exact formatterPpDefinition_noInternalFault ctx opts fuel kwd n t v f hf
  · rcases formatterPpCompactDefinition_fault ctx opts fuel kwd n t v hf with h | h
    · exact (PpFault.isInternal_eq_false_iff.mp h).imp_right .inl
    · exact .inr (.inr h)

/-- The environment of `plainContext` with `if _ then _ fi` a closed mixfix notation for the global
`ite`. -/
def iteContext : PpContext :=
  { plainContext with
    findOp := fun e _ => if e == .constant "ite" none then some ⟨.Mixfixc, ["if", "then", "fi"], 10⟩
      else none }

/-- `ite (f x) y`, printed `if f x then y fi`. -/
def iteApp : Expr :=
  .app (.constant "ite" none) (.app (.constant "f" none) (.constant "x" none) [])
    [.constant "y" none]

/-- The options of `plainOptions` with `pp.definition_value` off. -/
def compactOptions : PpOptions := { plainOptions with definitionValue := false }

/-- Printing `if f x then y fi` with two steps of fuel reads the arguments through `get_arg` in the
mixfix loop and runs out of fuel on the condition; the compact definition of `c : T := fun x : A, x`,
whose type is not an abstraction although `c` has implicit arguments, fails `collect_nested`'s
assertion. -/
theorem printer_access_safe_iteApp :
    ppFuel iteContext plainOptions 2 iteApp 0 true PpState.init = .error .outOfFuel ∧
      formatterPpCompactDefinition plainContext compactOptions 20 "Definition" "c"
        (.constant "T" none) compactValue = .error .notAbstraction ∧
      (PpFault.outOfFuel = .outOfFuel ∨ PpFault.outOfFuel = .opNameEmpty) ∧
      compactOptions.definitionValue = false ∧ plainContext.hasImplicitArguments "c" = true ∧
      (Expr.constant "T" none).isAbstraction = false := by
  have h₁ : ppFuel iteContext plainOptions 2 iteApp 0 true PpState.init = .error .outOfFuel := by rfl
  have h₂ : formatterPpCompactDefinition plainContext compactOptions 20 "Definition" "c"
      (.constant "T" none) compactValue = .error .notAbstraction := by rfl
  obtain ⟨-, hd, hi, ht⟩ := (((printer_access_safe plainContext compactOptions 20).2.2 _ _ _ _ _
    h₂).resolve_left nofun).resolve_left nofun
  exact ⟨h₁, h₂, (printer_access_safe iteContext plainOptions 2).1 _ _ _ _ _ h₁, hd, hi, ht⟩

/-- **Local names are only added.** In every environment, with every option and fuel, a run of
`pp`, and one of `operator()`, from any state that returns leaves every local name it started with
in place, behind the names it inserted. A binder name that `collect_nested`, `collect_nested_let` or
`collect_nested_quantifiers` inserted stays a local name for the rest of the object's life. -/
theorem printer_localNames_grow (ctx : PpContext) (opts : PpOptions) (fuel : Nat) :
    (∀ e depth main,
      Keeps (fun s s' => s.localNames <:+ s'.localNames) (ppFuel ctx opts fuel e depth main)) ∧
    ∀ e, Keeps (fun s s' => s.localNames <:+ s'.localNames) (ppMain ctx opts fuel e) :=
  ⟨fun e depth main => (ppFuel_wellBehaved (O := localNamesOrder) ctx opts fuel e depth main).keeps,
    fun e => (ppMain_wellBehaved ctx opts localNamesOrder_resets fuel e).keeps⟩

/-- **`~mk_scope`'s assertion holds.** In every environment, with every option and fuel, a run of
`pp` from any state that returns has only appended alias definitions: those it started with are a
prefix of those it ends with. So each scope the printer opens, around `pp` of a non-atomic term in
`pp_scoped_child`, closes with at least the `m_old_size` definitions it opened with, as
`lean_assert(m_old_size <= m_local_aliases_defs.size())` in `~mk_scope` requires, and leaves the
definitions as they were: the ones it made are printed in its `let` and cut. -/
theorem mkScope_oldSize_le (ctx : PpContext) (opts : PpOptions) (fuel : Nat) :
    (∀ e depth main, Keeps (fun s s' => s.localAliasesDefs <+: s'.localAliasesDefs)
      (ppFuel ctx opts fuel e depth main)) ∧
    ∀ (e : Expr) (depth prec : Nat), isAtomic ctx opts e = false →
      ∀ (s s' : PpState) (r : PpResult),
        ppScopedChild ctx opts (ppFuel ctx opts fuel) e depth prec s = .ok (r, s') →
        ∃ r₁ s₁, ppFuel ctx opts fuel e (depth + 1) true
            { s with numOccs := updateNumOccs [] e } = .ok (r₁, s₁) ∧
          s.localAliasesDefs.length ≤ s₁.localAliasesDefs.length ∧
          s'.localAliasesDefs = s.localAliasesDefs := by
  have hpp : ∀ e depth main, Keeps aliasDefsOrder.R (ppFuel ctx opts fuel e depth main) :=
    fun e depth main => (ppFuel_wellBehaved ctx opts fuel e depth main).keeps
  refine ⟨hpp, fun e depth prec hat s s' r hr => ?_⟩
  obtain ⟨r₁, s₁, h1, rfl⟩ := ppScopedChild_run ctx opts hat hr
  have h := hpp _ _ _ _ _ _ h1
  have hpre : s.localAliasesDefs <+: s₁.localAliasesDefs := h
  exact ⟨r₁, s₁, h1, hpre.length_le, (List.prefix_iff_eq_take.mp hpre).symm⟩

/-- `g t t` with `t = h c d`. With `aliasOptions` the argument `t` is heavy enough for an alias:
built without sharing, each occurrence gets one of its own, `let a.1 := h @c d, a.2 := h @c d in
g a.1 a.2`; when the two are one node, the second reuses the first, `let a.1 := h @c d in g a.1 a.1`. -/
def repeatedApp : Expr :=
  .app (.constant "g" none) (.app (.constant "h" none) (.constant "c" none) [.constant "d" none])
    [.app (.constant "h" none) (.constant "c" none) [.constant "d" none]]

/-- The options of `plainOptions` with `pp.alias_min_weight` at 2. -/
def aliasOptions : PpOptions := { plainOptions with aliasMinWeight := 2 }

/-- The scope opened on `g t t`, its two `t` one node, from a fresh `pp_fn` defines the alias `a.1`
of `t`, and its close cuts the definitions back to none. -/
theorem mkScope_oldSize_le_repeatedApp :
    isAtomic sharedContext aliasOptions repeatedApp = false ∧
      ∃ r s', ppScopedChild sharedContext aliasOptions (ppFuel sharedContext aliasOptions 10)
          repeatedApp 0 0 PpState.init = .ok (r, s') ∧
        ∃ r₁ s₁, ppFuel sharedContext aliasOptions 10 repeatedApp 1 true
            { PpState.init with numOccs := updateNumOccs [] repeatedApp } = .ok (r₁, s₁) ∧
          PpState.init.localAliasesDefs.length ≤ s₁.localAliasesDefs.length ∧
          s'.localAliasesDefs = PpState.init.localAliasesDefs := by
  obtain ⟨⟨r, s'⟩, hr⟩ := PpM.exists_eq_ok_of_isOk (by rfl :
    (ppScopedChild sharedContext aliasOptions (ppFuel sharedContext aliasOptions 10) repeatedApp 0 0
      PpState.init).isOk = true)
  exact ⟨rfl, r, s', hr, (mkScope_oldSize_le sharedContext aliasOptions 10).2 repeatedApp 0 0 rfl _ _ _
    hr⟩

end LeanKernel
