import LeanKernel.Pp.State

/-!
# Applications and operator notation

`pp_fn::application` (`frontends/lean/pp.cpp`) is the printer's view of an application: the
function to print, and the arguments to print, where an implicit-argument mask leaves out the
positions it marks. `pp_app` prints an application whose head has an operator through the branch
of the operator's fixity, when the application has the number of arguments the operator expects.

* `Application`, `mkApplication` — the wrapper and its constructor;
* `Application.getNumArgs`, `Application.getArg` — the two loops over the mask, and
  `Application.explicitArgs`, the arguments a reader sees, which both are measured against;
* `hasExpectedNumArgs` — the arity test of each fixity;
* `ppOperatorApp` — the seven fixity branches of `pp_app`, over the two child printers
  (`pp_mixfix_child`, `pp_infix_child`) that the printer passes in.

**Results**: `getArg_spec` — `get_num_args()` counts the explicit arguments and `get_arg(i)` returns
the `i`-th of them for every `i` below that count, so its `lean_unreachable()` is never reached;
`application_access_safe` — with it, every fixity branch whose arity test holds asks `get_arg` only
for arguments below `get_num_args()` and dereferences the name-part iterator only before the end.
-/

namespace LeanKernel

/-! ## The application wrapper -/

/-- Whether argument position `p` is printed: it lies past the mask, or the mask does not mark it
implicit. -/
def explicitAt (mask : List Bool) (p : Nat) : Bool := mask.length ≤ p || !mask.getD p false

/-- `pp_fn::application`: the arguments of the application (`arg(m_app, 1)`, …), the function to
print (`m_f`), the implicit-argument mask when the implicit arguments are hidden
(`m_implicit_args`), and whether notation may be used (`m_notation_enabled`). -/
structure Application where
  args : List Expr
  fn : Expr
  implicitArgs : Option (List Bool)
  notationEnabled : Bool
  deriving DecidableEq

/-- `pp_fn::has_implicit_arguments(n)`: the environment marks implicit arguments of `n`, and `n` is
not a local name. -/
def hasImplicitArgs (ctx : PpContext) (names : List Name) (n : Name) : Bool :=
  ctx.hasImplicitArguments n && !names.contains n

/-- `application::has_implicit_arguments(owner, f)`, with the name it then looks up: a constant's
name, or a value's. -/
def implicitArgsHead (ctx : PpContext) (names : List Name) : Expr → Option Name
  | .constant n _ => if hasImplicitArgs ctx names n then some n else none
  | .value v => if hasImplicitArgs ctx names (ctx.valueName v) then some (ctx.valueName v) else none
  | _ => none

/-- The constructor `application(e, owner, show_implicit)` on `e = f a as`. When the head has
implicit arguments and they are shown, or the application has fewer arguments than the mask
(`num_args(e) - 1 < size`), the explicit version of the head is printed with every argument and
without notation. -/
def mkApplication (ctx : PpContext) (names : List Name) (f a : Expr) (as : List Expr)
    (showImplicit : Bool) : Application :=
  match implicitArgsHead ctx names f with
  | some n =>
    if showImplicit || as.length + 1 < (ctx.implicitArguments n).length then
      ⟨a :: as, .constant (ctx.explicitVersion n) none, none, false⟩
    else ⟨a :: as, f, some (ctx.implicitArguments n), true⟩
  | none => ⟨a :: as, f, none, true⟩

/-- The count that `get_num_args()` has after the positions below `i`. -/
def countExplicit (mask : List Bool) : Nat → Nat
  | 0 => 0
  | i + 1 => countExplicit mask i + if explicitAt mask i then 1 else 0

/-- `application::get_num_args()`. -/
def Application.getNumArgs (app : Application) : Nat :=
  match app.implicitArgs with
  | some mask => countExplicit mask app.args.length
  | none => app.args.length

/-- The loop of `get_arg(i)` at argument position `p` (the source's `j - 1`), with `i` explicit
arguments still to pass. Falling off the end is `lean_unreachable()`. -/
def getArgLoop (mask : List Bool) : List Expr → Nat → Nat → Except PpFault Expr
  | [], _, _ => .error .getArgUnreachable
  | a :: as, p, i =>
    if explicitAt mask p then
      if i = 0 then .ok a else getArgLoop mask as (p + 1) (i - 1)
    else getArgLoop mask as (p + 1) i

/-- `application::get_arg(i)`, after `lean_assert(i < get_num_args())`. -/
def Application.getArg (app : Application) (i : Nat) : Except PpFault Expr :=
  if i < app.getNumArgs then
    match app.implicitArgs with
    | some mask => getArgLoop mask app.args 0 i
    | none =>
      match app.args[i]? with
      | some a => .ok a
      | none => .error .getArgOutOfRange
  else .error .getArgOutOfRange

/-- The arguments a reader sees: those at positions the mask does not mark implicit, in order,
the positions past the mask counting as explicit; without a mask, all of them. -/
def Application.explicitArgs (app : Application) : List Expr :=
  match app.implicitArgs with
  | some mask => (app.args.enum.filter fun pa => explicitAt mask pa.1).map Prod.snd
  | none => app.args

section GetArg

variable {mask : List Bool}

/-- The count of the explicit positions in `[p, p + l.length)` is that of the filtered
arguments. -/
theorem length_filter_enumFrom (l : List Expr) (p : Nat) :
    ((l.enumFrom p).filter fun pa => explicitAt mask pa.1).length + countExplicit mask p =
      countExplicit mask (p + l.length) := by
  induction l generalizing p with
  | nil => simp
  | cons a l ih =>
    rw [List.length_cons, show p + (l.length + 1) = p + 1 + l.length by omega, ← ih (p + 1)]
    simp only [List.enumFrom_cons, List.filter_cons, countExplicit]
    by_cases h : explicitAt mask p = true <;>
      simp only [h, if_true, if_false, Bool.false_eq_true, List.length_cons] <;> omega

/-- The loop returns the `i`-th of the filtered arguments from position `p` on. -/
theorem getArgLoop_of_getElem? {a : Expr} :
    ∀ (l : List Expr) (p i : Nat),
      (((l.enumFrom p).filter fun pa => explicitAt mask pa.1).map Prod.snd)[i]? = some a →
        getArgLoop mask l p i = .ok a
  | [], _, _, h => by simp at h
  | b :: l, p, i, h => by
    simp only [List.enumFrom_cons, List.filter_cons] at h
    by_cases hp : explicitAt mask p = true
    · simp only [hp, if_true, List.map_cons] at h
      cases i with
      | zero => simpa [getArgLoop, hp] using h
      | succ i =>
        rw [List.getElem?_cons_succ] at h
        simpa [getArgLoop, hp] using getArgLoop_of_getElem? l (p + 1) i h
    · simp only [hp, Bool.false_eq_true, if_false] at h
      simpa [getArgLoop, hp] using getArgLoop_of_getElem? l (p + 1) i h

/-- **`get_arg` returns the explicit arguments.** `get_num_args()` is the number of explicit
arguments, and for every `i` below it `get_arg(i)` returns the `i`-th of them: the loop finds it
before its end, so `lean_unreachable()` is never reached. -/
theorem getArg_spec (app : Application) :
    app.getNumArgs = app.explicitArgs.length ∧
      ∀ i < app.getNumArgs, ∃ a, app.explicitArgs[i]? = some a ∧ app.getArg i = .ok a := by
  have hnum : app.getNumArgs = app.explicitArgs.length := by
    unfold Application.getNumArgs Application.explicitArgs
    split
    · simpa using (length_filter_enumFrom app.args 0).symm
    · rfl
  refine ⟨hnum, fun i hi => ⟨_, List.getElem?_eq_getElem (hnum ▸ hi), ?_⟩⟩
  unfold Application.getArg
  rw [if_pos hi]
  revert hi hnum
  unfold Application.getNumArgs Application.explicitArgs
  split
  · intro _ _
    exact getArgLoop_of_getElem? _ 0 i (List.getElem?_eq_getElem _)
  · intro _ hi
    rw [List.getElem?_eq_getElem hi]

/-- With the mask `{A} (a : A)`, the application `f Int x y` has the explicit arguments `x y`. -/
example : (Application.mk [.constant "Int" none, .constant "x" none, .constant "y" none]
    (.constant "f" none) (some [true, false]) true).getArg 1 = .ok (.constant "y" none) := rfl

end GetArg

/-! ## Operators -/

/-- `pp_fn::find_op_for(e)`: a constant whose name is local has no operator. -/
def findOpFor (ctx : PpContext) (unicode : Bool) (names : List Name) (e : Expr) :
    Option OperatorInfo :=
  match e with
  | .constant n _ => if names.contains n then none else ctx.findOp e unicode
  | _ => ctx.findOp e unicode

/-- `pp_fn::get_operator(e)`: the operator of `e`, or else of the function of an application. -/
def getOperator (ctx : PpContext) (unicode : Bool) (names : List Name) (e : Expr) :
    Option OperatorInfo :=
  match findOpFor ctx unicode names e with
  | some op => some op
  | none =>
    match e with
    | .app f _ _ => findOpFor ctx unicode names f
    | _ => none

/-- `pp_fn::has_expected_num_args(app, op)`. For `Mixfixc` the source compares with
`length(parts) - 1` in `unsigned`; `get_num_args()` is below `UINT_MAX`, so that is
`get_num_args() + 1 = length(parts)`, also for an empty part list, where `0 - 1` is `UINT_MAX`. -/
def hasExpectedNumArgs (app : Application) (op : OperatorInfo) : Bool :=
  match op.fixity with
  | .Infix | .Infixl | .Infixr => app.getNumArgs == 2
  | .Prefix | .Postfix => app.getNumArgs == 1
  | .Mixfixl | .Mixfixr => app.getNumArgs == op.opNameParts.length
  | .Mixfixc => app.getNumArgs + 1 == op.opNameParts.length
  | .Mixfixo => app.getNumArgs == op.opNameParts.length + 1

/-- `op.get_op_name()`, the first name part. -/
def getOpName (op : OperatorInfo) : PpM Name :=
  match op.opNameParts with
  | n :: _ => pure n
  | [] => throw .opNameEmpty

/-- `*it` on the name-part iterator, given as the parts from it to the end. -/
def derefPart : List Name → PpM Name
  | n :: _ => pure n
  | [] => throw .partsEnd

section OperatorBranch

variable (app : Application) (op : OperatorInfo) (mixfixChild : Expr → PpM PpResult)
  (infixChild : Expr → Fixity → PpM PpResult)

/-- `app.get_arg(i)` in the printer's monad. -/
def getArgM (i : Nat) : PpM Expr := PpM.ofExcept (app.getArg i)

/-- `mk_infix(op, lhs, rhs)`. -/
def mkInfix (lhs rhs : PpResult) : PpM PpResult := do
  let n ← getOpName op
  pure ⟨.group (Fmt.seq [lhs.fmt, .space, .name n, .line, rhs.fmt]), lhs.weight + rhs.weight + 1⟩

/-- The loop of the `Mixfixr` and `Mixfixo` branches, at argument `i` of `num` with `k` iterations
left, the name-part iterator `it`, and the document and weight so far. -/
def mixfixrLoop (num : Nat) : Nat → Nat → List Name → Fmt → Nat → PpM PpResult
  | 0, _, _, r, w => pure ⟨.group r, w⟩
  | k + 1, i, it, r, w => do
    let p ← mixfixChild (← getArgM app i)
    if i = num - 1 then
      if op.fixity = .Mixfixo then
        mixfixrLoop num k (i + 1) it (r.compose p.fmt) (w + p.weight)
      else do
        let n ← derefPart it
        mixfixrLoop num k (i + 1) it (r.compose (Fmt.seq [p.fmt, .space, .name n])) (w + p.weight)
    else do
      let n ← derefPart it
      mixfixrLoop num k (i + 1) it.tail (r.compose (Fmt.seq [p.fmt, .space, .name n, .line]))
        (w + p.weight)

/-- The loop of the `Mixfixl` and `Mixfixc` branches; it returns the iterator where it stopped. -/
def mixfixlLoop : Nat → Nat → List Name → Fmt → Nat → PpM (Fmt × Nat × List Name)
  | 0, _, it, r, w => pure (r, w, it)
  | k + 1, i, it, r, w => do
    let p ← mixfixChild (← getArgM app i)
    let n ← derefPart it
    let r := if 0 < i then r.compose .space else r
    mixfixlLoop k (i + 1) it.tail
      (r.compose (Fmt.seq [.name n, .nest (n.size + 1) (Fmt.seq [.line, p.fmt])])) (w + p.weight)

/-- The operator branch of `pp_app`. The two arguments of an infix operator are printed left to
right; the source leaves the order of the two calls to the compiler. -/
def ppOperatorApp : PpM PpResult :=
  match op.fixity with
  | .Infix => do
    let l ← mixfixChild (← getArgM app 0)
    let r ← mixfixChild (← getArgM app 1)
    mkInfix op l r
  | .Infixr => do
    let l ← mixfixChild (← getArgM app 0)
    let r ← infixChild (← getArgM app 1) .Infixr
    mkInfix op l r
  | .Infixl => do
    let l ← infixChild (← getArgM app 0) .Infixl
    let r ← mixfixChild (← getArgM app 1)
    mkInfix op l r
  | .Prefix => do
    let p ← infixChild (← getArgM app 0) .Prefix
    let n ← getOpName op
    pure ⟨.group (Fmt.seq [.name n, .nest (n.size + 1) (Fmt.seq [.line, p.fmt])]), p.weight + 1⟩
  | .Postfix => do
    let p ← mixfixChild (← getArgM app 0)
    let n ← getOpName op
    pure ⟨.group (Fmt.seq [p.fmt, .space, .name n]), p.weight + 1⟩
  | .Mixfixr | .Mixfixo =>
    mixfixrLoop app op mixfixChild app.getNumArgs app.getNumArgs 0 op.opNameParts .nil 1
  | .Mixfixl | .Mixfixc => do
    let (r, w, it) ← mixfixlLoop app mixfixChild app.getNumArgs 0 op.opNameParts .nil 1
    let r := match it with
      | n :: _ => r.compose (Fmt.seq [.space, .name n])
      | [] => r
    pure ⟨.group r, w⟩

end OperatorBranch

/-! ## Access safety of the operator branch

The lemmas hold of every property of computations that `pure` and `bind` have and that the fault of
an operator without name parts has (`PpM.OpClosed`), given of the child printers on the explicit
arguments only: the absence of access faults, the printer's run invariant of `Pp/Safety.lean`, and
the absence of exhausted fuel of `Pp/Termination.lean`, where the child printers have fuel for the
arguments of the application and not for every term. -/

/-- What the operator branch needs of a property of computations: `pure` has it, `bind` keeps it,
and the fault of an operator without name parts, the one fault the branch raises on an application
of the right arity, has it. -/
structure PpM.OpClosed (P : (α : Type) → PpM α → Prop) : Prop where
  pure : ∀ {α : Type} (a : α), P α (Pure.pure a)
  bind : ∀ {α β : Type} {x : PpM α} {f : α → PpM β}, P α x → (∀ a, P β (f a)) → P β (x >>= f)
  opNameEmpty : ∀ {α : Type}, P α (MonadExcept.throw .opNameEmpty)

theorem PpM.Closed.opClosed {P : (α : Type) → PpM α → Prop} (hP : PpM.Closed P) :
    PpM.OpClosed P :=
  ⟨hP.pure, hP.bind, hP.throw rfl⟩

/-- A `get_arg` that returns hands its argument to what follows. -/
theorem getArgM_bind_of_ok {β : Type} {app : Application} {i : Nat} {a : Expr}
    (h : app.getArg i = .ok a) (k : Expr → PpM β) : getArgM app i >>= k = k a := by
  rw [getArgM, h]
  rfl

/-- Reading argument `i` below `get_num_args()`: what follows runs on an explicit argument. -/
theorem getArgM_bind {P : (α : Type) → PpM α → Prop} {β : Type} {app : Application}
    {k : Expr → PpM β} {i : Nat} (h : i < app.getNumArgs)
    (hk : ∀ a ∈ app.explicitArgs, P _ (k a)) : P _ (getArgM app i >>= k) := by
  obtain ⟨a, ha, hget⟩ := (getArg_spec app).2 i h
  rw [getArgM_bind_of_ok hget]
  exact hk a (List.getElem?_mem ha)

section Safety

variable {P : (α : Type) → PpM α → Prop} (hP : PpM.OpClosed P) {app : Application}
  {op : OperatorInfo} {mixfixChild : Expr → PpM PpResult}
  {infixChild : Expr → Fixity → PpM PpResult}
include hP

theorem derefPart_closed {it : List Name} (h : it ≠ []) : P _ (derefPart it) := by
  cases it with
  | nil => exact absurd rfl h
  | cons n _ => exact hP.pure n

theorem getOpName_closed : P _ (getOpName op) := by
  unfold getOpName
  split
  · exact hP.pure _
  · exact hP.opNameEmpty

theorem mkInfix_closed (l r : PpResult) : P _ (mkInfix op l r) :=
  hP.bind (getOpName_closed hP) fun _ => hP.pure _

/-- Printing argument `i` with a child printer `c`, then going on with `k`. -/
theorem argThen_closed {β : Type} {c : Expr → PpM PpResult} {k : PpResult → PpM β} {i : Nat}
    (h : i < app.getNumArgs) (hc : ∀ a ∈ app.explicitArgs, P _ (c a)) (hk : ∀ p, P _ (k p)) :
    P _ (do let p ← c (← getArgM app i); k p) :=
  getArgM_bind h fun a ha => hP.bind (hc a ha) hk

variable (hm : ∀ a ∈ app.explicitArgs, P _ (mixfixChild a))
include hm

/-- The `Mixfixr`/`Mixfixo` loop stays within the arguments and, until its last argument (or through
it, unless the operator is `Mixfixo`), within the name parts. -/
theorem mixfixrLoop_closed {num : Nat} (hnum : num = app.getNumArgs)
    (hlen : num - 1 ≤ op.opNameParts.length)
    (hlast : op.fixity ≠ .Mixfixo → num ≤ op.opNameParts.length) :
    ∀ (k i : Nat) (r : Fmt) (w : Nat), i + k = num →
      P _ (mixfixrLoop app op mixfixChild num k i (op.opNameParts.drop i) r w)
  | 0, _, _, _, _ => hP.pure _
  | k + 1, i, r, w, hk => by
    have hpart : ∀ {j}, j < op.opNameParts.length → op.opNameParts.drop j ≠ [] := fun hj => by
      simpa using hj
    refine getArgM_bind (by omega) fun a ha => hP.bind (hm a ha) fun p => ?_
    by_cases hi : i = num - 1
    · obtain rfl : k = 0 := by omega
      rw [if_pos hi]
      by_cases ho : op.fixity = .Mixfixo
      · rw [if_pos ho]
        exact hP.pure _
      · rw [if_neg ho]
        exact hP.bind (derefPart_closed hP (hpart (by have := hlast ho; omega))) fun _ =>
          hP.pure _
    · rw [if_neg hi]
      refine hP.bind (derefPart_closed hP (hpart (by omega))) fun n => ?_
      rw [List.tail_drop]
      exact mixfixrLoop_closed hnum hlen hlast k (i + 1) _ _ (by omega)

/-- The `Mixfixl`/`Mixfixc` loop stays within the arguments and within the name parts. -/
theorem mixfixlLoop_closed {num : Nat} (hnum : num = app.getNumArgs)
    (hlen : num ≤ op.opNameParts.length) :
    ∀ (k i : Nat) (r : Fmt) (w : Nat), i + k = num →
      P _ (mixfixlLoop app mixfixChild k i (op.opNameParts.drop i) r w)
  | 0, _, _, _, _ => hP.pure _
  | k + 1, i, r, w, hk => by
    refine getArgM_bind (by omega) fun a ha => hP.bind (hm a ha) fun p => ?_
    refine hP.bind (derefPart_closed hP (by simpa using (show i < op.opNameParts.length by omega)))
      fun n => ?_
    rw [List.tail_drop]
    exact mixfixlLoop_closed hnum hlen k (i + 1) _ _ (by omega)

/-- The operator branch, on an application with the arity its operator expects, with child
printers that have the property on the explicit arguments, has it. -/
theorem ppOperatorApp_closedOn (hi : ∀ a ∈ app.explicitArgs, ∀ fx, P _ (infixChild a fx))
    (hexp : hasExpectedNumArgs app op = true) :
    P _ (ppOperatorApp app op mixfixChild infixChild) := by
  have hi' : ∀ fx, ∀ a ∈ app.explicitArgs, P _ (infixChild a fx) := fun fx a ha => hi a ha fx
  unfold hasExpectedNumArgs at hexp
  unfold ppOperatorApp
  split <;> rename_i hfx <;> simp only [hfx, beq_iff_eq] at hexp
  · exact argThen_closed hP (by omega) hm fun _ => argThen_closed hP (by omega) hm fun _ =>
      mkInfix_closed hP _ _
  · exact argThen_closed hP (by omega) hm fun _ => argThen_closed hP (by omega) (hi' _) fun _ =>
      mkInfix_closed hP _ _
  · exact argThen_closed hP (by omega) (hi' _) fun _ => argThen_closed hP (by omega) hm fun _ =>
      mkInfix_closed hP _ _
  · exact argThen_closed hP (by omega) (hi' _) fun _ =>
      hP.bind (getOpName_closed hP) fun _ => hP.pure _
  · exact argThen_closed hP (by omega) hm fun _ =>
      hP.bind (getOpName_closed hP) fun _ => hP.pure _
  · exact mixfixrLoop_closed hP hm rfl (by omega) (fun _ => by omega) _ 0 _ _ (by omega)
  · exact mixfixrLoop_closed hP hm rfl (by omega) (fun h => absurd hfx h) _ 0 _ _ (by omega)
  all_goals
    exact hP.bind (mixfixlLoop_closed hP hm rfl (by omega) _ 0 _ _ (by omega)) fun _ =>
      hP.pure _

end Safety

/-- The operator branch, on an application with the arity its operator expects, with child
printers that have a property closed under the operations the branch uses, has it. -/
theorem ppOperatorApp_closed {P : (α : Type) → PpM α → Prop} (hP : PpM.OpClosed P)
    {app : Application} {op : OperatorInfo} {mixfixChild : Expr → PpM PpResult}
    {infixChild : Expr → Fixity → PpM PpResult} (hm : ∀ a, P _ (mixfixChild a))
    (hi : ∀ a fx, P _ (infixChild a fx)) (hexp : hasExpectedNumArgs app op = true) :
    P _ (ppOperatorApp app op mixfixChild infixChild) :=
  ppOperatorApp_closedOn hP (fun a _ => hm a) (fun a _ => hi a) hexp

/-- **The operator branch of `pp_app` stays in bounds.** For every application (arguments,
function and implicit-argument mask) and every operator: `get_num_args()` counts the explicit
arguments and `get_arg(i)` returns the `i`-th of them for every `i` below it; and when the
application has the number of arguments the operator's fixity expects, the branch of that fixity
raises no access fault of its own: every `get_arg` it makes is below `get_num_args()` and every
dereference of the name-part iterator is before the end of the part list. -/
theorem application_access_safe (app : Application) (op : OperatorInfo)
    (mixfixChild : Expr → PpM PpResult) (infixChild : Expr → Fixity → PpM PpResult) :
    (app.getNumArgs = app.explicitArgs.length ∧
      ∀ i < app.getNumArgs, ∃ a, app.explicitArgs[i]? = some a ∧ app.getArg i = .ok a) ∧
    ((∀ a, Avoids PpFault.isAccess (mixfixChild a)) →
      (∀ a fx, Avoids PpFault.isAccess (infixChild a fx)) →
      hasExpectedNumArgs app op = true →
      Avoids PpFault.isAccess (ppOperatorApp app op mixfixChild infixChild)) :=
  ⟨getArg_spec app, fun hm hi hexp => ppOperatorApp_closed Avoids.closed.opClosed hm hi hexp⟩

/-- The mixfix operator `if _ then _ fi` on an application with two explicit arguments: the arity
test holds, and with child printers that raise nothing the branch raises no access fault. -/
theorem application_access_safe_ifThenFi :
    hasExpectedNumArgs ⟨[.var 0, .var 1], .constant "ite" none, none, true⟩
        ⟨.Mixfixc, ["if", "then", "fi"], 10⟩ = true ∧
      Avoids PpFault.isAccess
        (ppOperatorApp ⟨[.var 0, .var 1], .constant "ite" none, none, true⟩
          ⟨.Mixfixc, ["if", "then", "fi"], 10⟩ (fun _ => pure ⟨.nil, 1⟩) (fun _ _ => pure ⟨.nil, 1⟩)) :=
  ⟨by decide, (application_access_safe _ _ _ _).2 (fun _ => Avoids.pure _)
    (fun _ _ => Avoids.pure _) (by decide)⟩

end LeanKernel
