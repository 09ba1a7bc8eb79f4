import LeanKernel.Pp.Binders

/-!
# The printer's documents, collaborators and state

`pp_fn` (`frontends/lean/pp.cpp`) turns a kernel term into a format document. This module holds
what all of its methods share:

* `Fmt` — format documents (`util/sexpr/format.h`, not among the sources) as the trees the
  printer composes. The spec leaves the layout out of scope; `Fmt.flatten` is the one-line
  rendering. The highlighting wrappers only colour a document and are left out.
* `OperatorInfo` — an entry of the notation table: fixity, name parts and precedence.
* `PpContext` — the environment lookups the printer makes (implicit arguments, notation, aliases,
  coercions, builtins, choice terms, the value plugins' printers), none of them in the sources, and
  which subterms of the printed term are one node.
* `PpOptions` — the options `set_options` reads, with the defaults of `LEAN_DEFAULT_PP_*`.
* `PpState`, `PpM` — the state of `pp_fn` and the printer's monad. A run fails with a `PpFault`
  where the source reaches a failed assertion, an unreachable point or a dereference past the end
  of a list.
* `withScope` — `mk_scope`: push the alias map, count the occurrences in the scoped term, and
  restore the alias map, the alias definitions and the counts when the scope ends.

`m_num_occs` is keyed by `operator==`, alpha-equivalence; `m_local_aliases` by pointer
(`expr_eqp`), which a tree does not record: `PpContext.sameNode` says which subterms of the printed
term are one node. Weights and the step counter are `unsigned`
in the source; they count printed nodes, stay far below `2^32`, and are `Nat` here.

**Results**: `withScope_run` — whatever the scoped computation does, `mk_scope` gives back the
alias map and the occurrence counts as they were, truncates the alias definitions to their old
number, and keeps `m_local_names` as the computation left it.
-/

namespace LeanKernel

/-! ## Names -/

/-- Modelled from the spec: the dotted form `a.b.1` of a name, `format(n)` once laid out. -/
def Name.toString : Name → String
  | .anonymous => ""
  | .str .anonymous s => s
  | .str p s => p.toString ++ "." ++ s
  | .num .anonymous i => Nat.repr i
  | .num p i => p.toString ++ "." ++ Nat.repr i

/-- Modelled from the spec: `name::size()`, the length of the dotted form. -/
def Name.size (n : Name) : Nat := n.toString.length

/-- Modelled from the spec: `name::is_safe_ascii()`: every string component is ASCII. -/
def Name.isSafeAscii : Name → Bool
  | .anonymous => true
  | .str p s => p.isSafeAscii && s.data.all fun c => c.toNat < 128
  | .num p _ => p.isSafeAscii

/-- Modelled from the spec: `is_prefix_of(p, n)`: the components of `p` start those of `n`. -/
def Name.isPrefixOf (p : Name) : Name → Bool
  | .anonymous => p == .anonymous
  | .str q s => p == .str q s || p.isPrefixOf q
  | .num q i => p == .num q i || p.isPrefixOf q

/-! ## Documents -/

/-- A format document. `name` is `format(n)` for a name, the document `is_name` recognises;
`compose` is `format{f, g}` and `+=`. -/
inductive Fmt where
  | nil
  | text (s : String)
  | name (n : Name)
  | line
  | nest (i : Nat) (f : Fmt)
  | group (f : Fmt)
  | compose (f g : Fmt)
  deriving DecidableEq, Repr

namespace Fmt

/-- `format{f₁, …, fₙ}`. -/
def seq : List Fmt → Fmt
  | [] => .nil
  | f :: fs => .compose f (seq fs)

/-- `space()`. -/
def space : Fmt := .text " "
/-- `colon()`. -/
def colon : Fmt := .text ":"
/-- `comma()`. -/
def comma : Fmt := .text ","
/-- `lp()`. -/
def lp : Fmt := .text "("
/-- `rp()`. -/
def rp : Fmt := .text ")"
/-- `lcurly()`. -/
def lcurly : Fmt := .text "\x7b"
/-- `rcurly()`. -/
def rcurly : Fmt := .text "\x7d"
/-- `lsb()`. -/
def lsb : Fmt := .text "["
/-- `rsb()`. -/
def rsb : Fmt := .text "]"

/-- `paren(f)`. -/
def paren (f : Fmt) : Fmt := .group (.nest 1 (seq [lp, f, rp]))

/-- `format(n)` for a number. -/
def num (n : Nat) : Fmt := .text (toString n)

/-- `is_name(f)`. -/
def isName : Fmt → Bool
  | .name _ => true
  | _ => false

/-- The one-line rendering: every `line` is a space. -/
def flatten : Fmt → String
  | .nil => ""
  | .text s => s
  | .name n => n.toString
  | .line => " "
  | .nest _ f => flatten f
  | .group f => flatten f
  | .compose f g => flatten f ++ flatten g

end Fmt

/-- `result`: a document and its weight (`std::pair<format, unsigned>`). -/
structure PpResult where
  fmt : Fmt
  weight : Nat
  deriving DecidableEq, Repr

/-! ## The environment -/

/-- The fixity of an operator. -/
inductive Fixity where
  | Infix | Infixl | Infixr | Prefix | Postfix | Mixfixl | Mixfixr | Mixfixc | Mixfixo
  deriving DecidableEq, Repr

/-- Modelled from the spec: an entry of the notation table as the printer reads it: its fixity, its
name parts (`get_op_name_parts()`, a list of any length) and its precedence. -/
structure OperatorInfo where
  fixity : Fixity
  opNameParts : List Name
  precedence : Nat
  deriving DecidableEq, Repr

/-- Modelled from the spec: the environment as the printer reads it. The notation, coercion and
alias tables and the implicit-argument marks belong to the frontend, the value printers to the
value plugins; none of them is among the sources, so each lookup is a function here. -/
structure PpContext where
  /-- `::lean::has_implicit_arguments(env, n)`. -/
  hasImplicitArguments : Name → Bool
  /-- `get_implicit_arguments(env, n)`: the mark of each argument position. -/
  implicitArguments : Name → List Bool
  /-- `get_explicit_version(env, n)`. -/
  explicitVersion : Name → Name
  /-- `::lean::find_op_for(env, e, unicode)`; `none` is the null operator. -/
  findOp : Expr → Bool → Option OperatorInfo
  /-- `get_aliased(env, e)`; `[]` when there is none, since a stored list is never empty. -/
  aliased : Expr → List Name
  /-- `::lean::is_coercion(env, f)`. -/
  isCoercion : Expr → Bool
  /-- The value of the object named `n` when `find_object(n)` is a builtin of that name. -/
  builtin : Name → Option Value
  /-- The alternatives `get_choice(e, i)` of a choice term (`is_choice(e)`). -/
  choices : Expr → Option (List Expr)
  /-- `is_placeholder(e)`. -/
  isPlaceholder : Expr → Bool
  /-- `mk_exists_fn()`. -/
  existsFn : Expr
  /-- `value::pp(unicode, coercion)`. -/
  valuePp : Value → Bool → Bool → Fmt
  /-- `value::is_atomic_pp(unicode, coercion)`. -/
  valueIsAtomicPp : Value → Bool → Bool → Bool
  /-- `value::get_name()`. -/
  valueName : Value → Name
  /-- `::lean::pp(level, unicode)`. -/
  levelPp : Level → Bool → Fmt
  /-- `expr_eqp(e, e')` on the subterms of the term printed: whether two of them are one node of
  its DAG. A tree does not record which of its equal subterms share a node, so the caller says; in
  a term built without sharing no two are (`fun _ _ => false`), and after `max_sharing` exactly the
  alpha-equivalent ones are. -/
  sameNode : Expr → Expr → Bool
  /-- `g_arrow_precedence`. -/
  arrowPrecedence : Nat
  /-- `g_cartesian_product_precedence`. -/
  cartesianProductPrecedence : Nat
  /-- `g_heq_precedence`. -/
  heqPrecedence : Nat
  /-- `g_app_precedence`. -/
  appPrecedence : Nat

/-- The printer's options, as `set_options` reads them, with the defaults `LEAN_DEFAULT_PP_*`.
`indent` and `unicode` come from `get_pp_indent` and `get_pp_unicode`, which are not among the
sources, and have no default here. -/
structure PpOptions where
  indent : Nat
  maxDepth : Nat := unsignedMax
  maxSteps : Nat := unsignedMax
  implicit : Bool := false
  unicode : Bool
  coercion : Bool := false
  /-- `m_notation` (`lean.pp.notation`). -/
  useNotation : Bool := true
  extraLets : Bool := true
  aliasMinWeight : Nat := 20
  /-- `lean.pp.definition_value`, read by the formatter's `pp_compact_definition`. -/
  definitionValue : Bool := true
  deriving DecidableEq, Repr

/-! ## The state -/

/-- The state of `pp_fn`. -/
structure PpState where
  /-- `m_local_aliases`: the alias of each shared term printed in the open scopes, newest
  first. -/
  localAliases : List (Expr × Name)
  /-- `m_local_aliases_defs`: the alias definitions, in order. -/
  localAliasesDefs : List (Name × Fmt)
  /-- `m_local_names`: the names under which a constant is not taken for the global with its
  notation and implicit arguments. Nothing in `pp_fn` removes a name from it. -/
  localNames : List Name
  /-- `m_num_steps`. -/
  numSteps : Nat
  /-- `m_aux`: the prefix of the alias names. -/
  aux : Name
  /-- `m_num_occs`: the occurrence counts of the innermost scope. -/
  numOccs : List (Expr × Nat)
  deriving DecidableEq, Repr

/-- A fresh `pp_fn`: empty tables and no step taken. -/
def PpState.init : PpState := ⟨[], [], [], 0, "", []⟩

/-- `m_local_aliases.find(e)`. The map is keyed by pointer (`expr_eqp`): `same e e'` says whether
`e` is the node `e'`. -/
def findAlias (same : Expr → Expr → Bool) (e : Expr) : List (Expr × Name) → Option Name
  | [] => none
  | (e', n) :: as => if same e e' then some n else findAlias same e as

/-- The count of `e` in `m_num_occs`, `0` when absent. -/
def occsOf (e : Expr) : List (Expr × Nat) → Nat
  | [] => 0
  | (e', k) :: m => if e.alphaEq e' then k else occsOf e m

/-- `m_num_occs[e]++`. -/
def bumpOcc (e : Expr) : List (Expr × Nat) → List (Expr × Nat)
  | [] => [(e, 1)]
  | (e', k) :: m => if e.alphaEq e' then (e', k + 1) :: m else (e', k) :: bumpOcc e m

mutual
/-- `mk_scope::update_num_occs(e)`: count one more occurrence of `e` and, at the first occurrence
of an application, visit the function and every argument. Abstractions and `Let`s open scopes of
their own and are not entered. The source's worklist visits the same terms in another order; the
counts do not depend on it. -/
def updateNumOccs (m : List (Expr × Nat)) : Expr → List (Expr × Nat)
  | .app f a as =>
    let m := bumpOcc (.app f a as) m
    if occsOf (.app f a as) m = 1 then updateNumOccsList (updateNumOccs (updateNumOccs m f) a) as
    else m
  | e => bumpOcc e m
/-- `updateNumOccs` over the arguments of an application. -/
def updateNumOccsList (m : List (Expr × Nat)) : List Expr → List (Expr × Nat)
  | [] => m
  | e :: es => updateNumOccsList (updateNumOccs m e) es
end

/-- `has_several_occs(e)`. -/
def PpState.hasSeveralOccs (s : PpState) (e : Expr) : Bool := 1 < occsOf e s.numOccs

/-- `m_local_names.insert(n)`. -/
def PpState.insertLocalName (s : PpState) (n : Name) : PpState :=
  { s with localNames := n :: s.localNames }

/-! ## The monad -/

/-- How a run of the printer can fail. -/
inductive PpFault where
  /-- The model's recursion bound ran out; the source has none. -/
  | outOfFuel
  /-- `lean_assert(i < get_num_args())` fails in `application::get_arg`. -/
  | getArgOutOfRange
  /-- `get_arg`'s loop ends without finding the argument: `lean_unreachable()`. -/
  | getArgUnreachable
  /-- `*it` on the end of an operator's name parts. -/
  | partsEnd
  /-- `get_op_name()`, the first name part, of an operator without parts. -/
  | opNameEmpty
  /-- `collect_nested` opens a term that is not an abstraction: `get_unused_name` fails its
  `lean_assert(is_abstraction(e) || is_let(e))`, or, on a `Let`, `abst_domain` reads a cell that is
  not an abstraction. -/
  | notAbstraction
  deriving DecidableEq, Repr

/-- The faults of an access outside an application's explicit arguments or outside an operator's
name parts. -/
def PpFault.isAccess : PpFault → Bool
  | .getArgOutOfRange | .getArgUnreachable | .partsEnd => true
  | .outOfFuel | .opNameEmpty | .notAbstraction => false

/-- The faults of a precondition broken inside `pp_fn`: the access faults and `collect_nested` on a
term that is not an abstraction. Exhausted fuel is the model's, and an operator without name parts
comes from the environment's notation table. -/
def PpFault.isInternal : PpFault → Bool
  | .getArgOutOfRange | .getArgUnreachable | .partsEnd | .notAbstraction => true
  | .outOfFuel | .opNameEmpty => false

/-- The printer's monad: the state of `pp_fn`, and a fault that ends the run. -/
abbrev PpM := StateT PpState (Except PpFault)

namespace PpM

variable {α β : Type} {s : PpState}

@[simp] theorem run_pure (a : α) : (pure a : PpM α) s = .ok (a, s) := rfl

@[simp] theorem run_bind (x : PpM α) (f : α → PpM β) :
    (x >>= f) s = match x s with
      | .ok (a, s') => f a s'
      | .error e => .error e := by
  show Except.bind (x s) (fun p => f p.1 p.2) = _
  cases x s <;> rfl

@[simp] theorem run_get : (get : PpM PpState) s = .ok (s, s) := rfl

@[simp] theorem run_set (s' : PpState) : (set s' : PpM Unit) s = .ok ((), s') := rfl

@[simp] theorem run_modify (f : PpState → PpState) : (modify f : PpM Unit) s = .ok ((), f s) :=
  rfl

@[simp] theorem run_throw (e : PpFault) : (throw e : PpM α) s = .error e := rfl

/-- A computation of `Except PpFault` in the printer's monad. -/
def ofExcept : Except PpFault α → PpM α
  | .ok a => pure a
  | .error e => throw e

@[simp] theorem run_ofExcept_ok (a : α) : (ofExcept (.ok a) : PpM α) s = .ok (a, s) := rfl

/-- A run that `isOk` reports successful ends in a value. -/
theorem exists_eq_ok_of_isOk {x : Except PpFault α} (h : x.isOk = true) : ∃ a, x = .ok a := by
  cases x with
  | error e => cases h
  | ok a => exact ⟨a, rfl⟩

end PpM

/-! ## Faults a computation never raises, and what its runs keep -/

/-- No run of `x`, from any state, fails with a fault that `bad` marks. -/
def Avoids {α : Type} (bad : PpFault → Bool) (x : PpM α) : Prop :=
  ∀ s f, x s = .error f → bad f = false

namespace Avoids

variable {α β : Type} {bad : PpFault → Bool}

theorem pure (a : α) : Avoids bad (Pure.pure a : PpM α) := fun _ _ h => nomatch h

theorem throw {f : PpFault} (h : bad f = false) : Avoids bad (MonadExcept.throw f : PpM α) :=
  fun _ _ he => by cases he; exact h

theorem get : Avoids bad (MonadState.get : PpM PpState) := fun _ _ h => nomatch h

theorem set (s' : PpState) : Avoids bad (MonadStateOf.set s' : PpM Unit) := fun _ _ h => nomatch h

theorem modify (f : PpState → PpState) : Avoids bad (MonadState.modifyGet
    (fun s => ((), f s)) : PpM Unit) := fun _ _ h => nomatch h

theorem bind {x : PpM α} {f : α → PpM β} (hx : Avoids bad x) (hf : ∀ a, Avoids bad (f a)) :
    Avoids bad (x >>= f) := by
  intro s e h
  rw [PpM.run_bind] at h
  split at h
  · exact hf _ _ _ h
  · cases h
    exact hx s _ ‹_›

theorem ite {c : Prop} [Decidable c] {x y : PpM α} (hx : Avoids bad x) (hy : Avoids bad y) :
    Avoids bad (if c then x else y) := by
  split
  · exact hx
  · exact hy

end Avoids

/-- A property of the printer's computations that every `pure` has, that `bind` keeps, and that
every fault but the three access faults has. The operator branch's lemmas hold of any such
property. -/
structure PpM.Closed (P : (α : Type) → PpM α → Prop) : Prop where
  pure : ∀ {α : Type} (a : α), P α (Pure.pure a)
  bind : ∀ {α β : Type} {x : PpM α} {f : α → PpM β}, P α x → (∀ a, P β (f a)) → P β (x >>= f)
  throw : ∀ {α : Type} {f : PpFault}, f.isAccess = false → P α (MonadExcept.throw f)

theorem Avoids.closed : PpM.Closed fun _ x => Avoids PpFault.isAccess x :=
  ⟨Avoids.pure, Avoids.bind, Avoids.throw⟩

/-- Every run of `x` that returns goes from a state to one that `R` relates to it. -/
def Keeps {α : Type} (R : PpState → PpState → Prop) (x : PpM α) : Prop :=
  ∀ s a s', x s = .ok (a, s') → R s s'

/-! ## Scopes -/

/-- `mk_scope(fn, e)` around `body`, which receives `m_old_size`: push the alias map, make the
occurrence counts those of `e`, run `body`; then pop the alias map, cut the alias definitions back
to `m_old_size` and restore the occurrence counts. -/
def withScope {α : Type} (e : Expr) (body : Nat → PpM α) : PpM α := do
  let s ← get
  set { s with numOccs := updateNumOccs [] e }
  let a ← body s.localAliasesDefs.length
  modify fun s' => { s' with
    localAliases := s.localAliases
    localAliasesDefs := s'.localAliasesDefs.take s.localAliasesDefs.length
    numOccs := s.numOccs }
  pure a

/-- **A scope restores what `mk_scope` saves.** A run of `withScope e body` is a run of `body` from
the state with the occurrence counts of `e`, after which the alias map and the counts are back as
they were and the alias definitions are cut to their old number; everything else, the local names
among it, stays as `body` left it. -/
theorem withScope_run {α : Type} {e : Expr} {body : Nat → PpM α} {s s' : PpState} {a : α}
    (h : withScope e body s = .ok (a, s')) :
    ∃ s₁, body s.localAliasesDefs.length { s with numOccs := updateNumOccs [] e } = .ok (a, s₁) ∧
      s' = { s₁ with
        localAliases := s.localAliases
        localAliasesDefs := s₁.localAliasesDefs.take s.localAliasesDefs.length
        numOccs := s.numOccs } := by
  simp only [withScope, PpM.run_bind, PpM.run_get, PpM.run_set] at h
  split at h
  · rename_i a₁ s₁ hb
    simp only [PpM.run_bind, PpM.run_modify, PpM.run_pure, Except.ok.injEq, Prod.mk.injEq] at h
    obtain ⟨rfl, rfl⟩ := h
    exact ⟨s₁, hb, rfl⟩
  · cases h

theorem withScope_avoids {α : Type} {bad : PpFault → Bool} {e : Expr} {body : Nat → PpM α}
    (h : ∀ n, Avoids bad (body n)) : Avoids bad (withScope e body) :=
  Avoids.bind Avoids.get fun _ => Avoids.bind (Avoids.set _) fun _ =>
    Avoids.bind (h _) fun _ => Avoids.bind (Avoids.modify _) fun _ => Avoids.pure _

end LeanKernel
