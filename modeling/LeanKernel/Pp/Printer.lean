import LeanKernel.Pp.Notation

/-!
# The printer

The methods of `pp_fn` (`frontends/lean/pp.cpp`) and the entry points that use it. Each method
takes the recursive `pp(e, depth, main)` as `rec`; `ppFuel` ties the knot, with a bound on the depth
of the recursion that the source does not have (a run that exhausts it fails with `outOfFuel`).

* the leaves: `ppVar`, `ppConstant`, `ppValue`, `ppType`, `ppEllipsis`;
* the children: `ppChild`, `ppChildWithParen`, `ppScopedChild` (in a `mk_scope`, with the `let`
  block of the aliases it defines), `ppMixfixChild`, `ppInfixChild`;
* the composites: `ppApp` (the operator branch, `pp_exists`, the standard application),
  `ppAbstractionCore` (arrows, cartesian products, binder blocks, arrow tails, compact
  definitions), `ppLet`, `ppChoice`, `ppMetavar`, `ppPair`, `ppProj`, `ppHeq`;
* `ppStep` — `pp` itself: the step and depth budget, the environment's aliases, the local aliases
  of shared terms, the dispatch on the kind, and the creation of an alias;
* `ppMain`, `ppDefinitionFn`, `ppPiWithImplicitArgs` — `operator()`, `pp_definition` and
  `pp_pi_with_implicit_args` after `init`; `formatterPpCompactDefinition` — the formatter's
  `pp_compact_definition`.

Binder names are chosen by `collect_nested`, `collect_nested_let` and
`collect_nested_quantifiers`, which insert them into `m_local_names`; nothing takes them out again.
-/

namespace LeanKernel

/-! ## Keywords -/

section Keywords

variable (unicode : Bool)

/-- `g_Type_fmt`. -/
def typeKw : Fmt := .text "Type"
/-- `g_lambda_n_fmt`, `g_lambda_fmt`. -/
def lambdaKw : Fmt := .text (if unicode then "λ" else "fun")
/-- `g_Pi_n_fmt`, `g_Pi_fmt`. -/
def piKw : Fmt := .text (if unicode then "∀" else "forall")
/-- `g_arrow_n_fmt`, `g_arrow_fmt`. -/
def arrowKw : Fmt := .text (if unicode then "→" else "->")
/-- `g_exists_n_fmt`, `g_exists_fmt`. -/
def existsKw : Fmt := .text (if unicode then "∃" else "exists")
/-- `g_ellipsis_n_fmt`, `g_ellipsis_fmt`. -/
def ellipsisKw : Fmt := .text (if unicode then "…" else "...")
/-- `g_cartesian_product_n_fmt`, `g_cartesian_product_fmt`. -/
def cartesianKw : Fmt := .text (if unicode then "⨯" else "#")
/-- `g_let_fmt`. -/
def letKw : Fmt := .text "let"
/-- `g_in_fmt`. -/
def inKw : Fmt := .text "in"
/-- `g_pair_fmt`. -/
def pairKw : Fmt := .text "pair"
/-- `g_proj1_fmt`. -/
def proj1Kw : Fmt := .text "proj1"
/-- `g_proj2_fmt`. -/
def proj2Kw : Fmt := .text "proj2"
/-- `g_assign_fmt`. -/
def assignKw : Fmt := .text ":="
/-- `g_lift_fmt`. -/
def liftKw : Fmt := .text "lift"
/-- `g_inst_fmt`. -/
def instKw : Fmt := .text "inst"
/-- `g_sig_fmt`. -/
def sigKw : Fmt := .text "sig"
/-- `g_heq_fmt`. -/
def heqKw : Fmt := .text "=="

end Keywords

/-! ## Kinds of terms -/

/-- `is_lambda(e)`. -/
def Expr.isLambda : Expr → Bool
  | .abst .lambda .. => true
  | _ => false

/-- `is_pi(e)`. -/
def Expr.isPi : Expr → Bool
  | .abst .pi .. => true
  | _ => false

/-- `is_sigma(e)`. -/
def Expr.isSigma : Expr → Bool
  | .abst .sigma .. => true
  | _ => false

/-- Modelled from the spec: `is_arrow(e)`, a Pi whose body does not use its variable. -/
def isArrow : Expr → Bool
  | .abst .pi _ _ b => !hasFreeVarIn 0 1 0 b
  | _ => false

/-- Modelled from the spec: `is_cartesian(e)`, a Sigma whose body does not use its variable. -/
def isCartesian : Expr → Bool
  | .abst .sigma _ _ b => !hasFreeVarIn 0 1 0 b
  | _ => false

section Kinds

variable (ctx : PpContext) (opts : PpOptions)

/-- `is_exists_fn(e)`. -/
def isExistsFn (e : Expr) : Bool := e.alphaEq ctx.existsFn

/-- `pp_fn::is_coercion(e)`: an application to one argument of a coercion. -/
def isCoercionApp : Expr → Bool
  | .app f _ [] => ctx.isCoercion f
  | _ => false

/-- `pp_fn::is_exists_expr(e)`: the existential applied to a type and a predicate. -/
def isExistsExpr : Expr → Bool
  | .app f _ [_] => isExistsFn ctx f
  | _ => false

/-- Modelled from the spec: `is_exists(e)`, an application of the existential. -/
def isExists : Expr → Bool
  | .app f _ _ => isExistsFn ctx f
  | _ => false

/-- Modelled from the spec: `is_dep_pair(e)`, a pair whose type is not a cartesian product. -/
def isDepPair : Expr → Bool
  | .pair _ _ t => !isCartesian t
  | _ => false

/-- The first alias of `e` in the environment that may be printed: any under unicode, else the
first ASCII one. -/
def aliasedName (e : Expr) : Option Name :=
  match ctx.aliased e with
  | [] => none
  | n :: ns => if opts.unicode then some n else (n :: ns).find? Name.isSafeAscii

/-- `pp_fn::is_atomic(e)`. -/
def isAtomic : Expr → Bool
  | .var _ | .constant .. | .type _ => true
  | .value v => (aliasedName ctx opts (.value v)).isSome ||
      ctx.valueIsAtomicPp v opts.unicode opts.coercion
  | .metavar m l => (aliasedName ctx opts (.metavar m l)).isSome || l.isEmpty
  | .app f a as => (aliasedName ctx opts (.app f a as)).isSome ||
      (!opts.coercion && isCoercionApp ctx (.app f a as) && isAtomic a)
  | e => (aliasedName ctx opts e).isSome

/-- `pp_fn::get_operator_precedence(e)`. -/
def getOperatorPrecedence (names : List Name) (e : Expr) : Nat :=
  match getOperator ctx opts.unicode names e with
  | some op => op.precedence
  | none =>
    if isArrow e then ctx.arrowPrecedence
    else if isCartesian e then ctx.cartesianProductPrecedence
    else if e.isAbstraction || (match e with | .let .. => true | _ => false) || isExists ctx e ||
        isDepPair e then 0
    else if (match e with | .heq .. => true | _ => false) then ctx.heqPrecedence
    else ctx.appPrecedence

/-- `pp_fn::has_fixity(e, fx)`. -/
def hasFixity (names : List Name) (e : Expr) (fx : Fixity) : Bool :=
  match getOperator ctx opts.unicode names e with
  | some op => op.fixity == fx
  | none => isArrow e && fx == .Infixr

end Kinds

/-! ## The prefix of the aliases -/

mutual
/-- Modelled from the spec: the constant, binder and `let` names of a term, at the positions
`replace` visits. -/
def namesOf : Expr → List Name
  | .constant n _ => [n]
  | .var _ | .type _ | .value _ | .metavar .. => []
  | .app f a as => namesOf f ++ namesOf a ++ namesOfList as
  | .abst _ x d b => x :: (namesOf d ++ namesOf b)
  | .let x none v b => x :: (namesOf v ++ namesOf b)
  | .let x (some t) v b => x :: (namesOf t ++ namesOf v ++ namesOf b)
  | .heq l r => namesOf l ++ namesOf r
  | .pair a b t => namesOf a ++ namesOf b ++ namesOf t
  | .proj _ a => namesOf a
/-- `namesOf` on arguments. -/
def namesOfList : List Expr → List Name
  | [] => []
  | e :: es => namesOf e ++ namesOfList es
end

/-- `uses_prefix(e, p)`: some constant, abstraction or `let` of `e` has a name with prefix `p`. -/
def usesPrefix (e : Expr) (p : Name) : Bool := (namesOf e).any p.isPrefixOf

/-- The loop of `find_unused_prefix` over `c.1`, `c.2`, …, with `fuel` candidates left. -/
def unusedPrefixLoop (e : Expr) : Nat → Nat → Option Name
  | 0, _ => none
  | fuel + 1, i =>
    if usesPrefix e (Name.num "c" i) then unusedPrefixLoop e fuel (i + 1) else some (Name.num "c" i)

/-- `find_unused_prefix(e)`: `a`, else `b`, else the first `c.i` no name of `e` starts with. Each
name of `e` has at most one of the prefixes `c.i`, so the loop ends within `namesOf e` candidates
plus one. -/
def findUnusedPrefix (e : Expr) : Name :=
  if !usesPrefix e "a" then "a"
  else if !usesPrefix e "b" then "b"
  else (unusedPrefixLoop e ((namesOf e).length + 1) 1).getD "c"

/-! ## The methods -/

/-- A block of binders `(x y z : A)` being gathered: its names, domain and implicitness. -/
structure BinderBlock where
  first : Name
  rest : List Name
  domain : Expr
  implicit : Bool
  deriving DecidableEq, Repr

/-- `pp_bnames(begin, end, use_line)`. -/
def ppBnames (n : Name) (ns : List Name) (useLine : Bool) : Fmt :=
  ns.foldl (fun r m => r.compose (.compose (if useLine then .line else .space) (.name m))) (.name n)

/-- `is_implicit(implicit_args, arg_pos)`. -/
def isImplicit (implicitArgs : Option (List Bool)) (p : Nat) : Bool :=
  match implicitArgs with
  | some mask => mask.getD p false
  | none => false

/-- Whether the next binder joins the block being gathered: the same domain and implicitness. -/
def BinderBlock.joins : Option BinderBlock → Expr → Bool → Bool
  | some blk, d, impl => d.alphaEq blk.domain && blk.implicit == impl
  | none, _, _ => false

/-- `group(nest(indent, {head, space, group(bindings), sep, line, body}))`. -/
def binderFmt (head : Fmt) (indent : Nat) (bindings : Option Fmt) (sep body : Fmt) : Fmt :=
  .group (.nest indent (Fmt.seq [head, .space, .group (bindings.getD .nil), sep, .line, body]))

/-- The `let` block of `pp_scoped_child` for the alias definitions its scope made. -/
def aliasDefsFmt (minWeight : Nat) : Bool → List (Name × Fmt) → Fmt → Nat → Fmt × Nat
  | _, [], r, w => (r, w)
  | first, (n, f) :: ds, r, w =>
    let beg := if first then Fmt.space else .line
    let sep := if ds.isEmpty then Fmt.nil else .comma
    aliasDefsFmt minWeight false ds
      (r.compose (.nest 4 (Fmt.seq [beg, .name n, .space, assignKw,
        .nest (n.size + 4) (Fmt.seq [.space, f, sep])])))
      (w + minWeight + 1)

/-- The argument of a chain of second projections, and their number. -/
def projChain : Expr → Nat → Expr × Nat
  | .proj false a, i => projChain a (i + 1)
  | a, i => (a, i)

section Methods

variable (ctx : PpContext) (opts : PpOptions) (rec : Expr → Nat → Bool → PpM PpResult)

/-- `pp_ellipsis()`. -/
def ppEllipsis : PpResult := ⟨ellipsisKw opts.unicode, 1⟩

/-- `pp_var(e)`. -/
def ppVar (i : Nat) : PpResult := ⟨.compose (.text "#") (Fmt.num i), 1⟩

/-- `pp_type(e)`. -/
def ppType (l : Level) : PpResult :=
  if l = .zero then ⟨typeKw, 1⟩
  else ⟨Fmt.paren (Fmt.seq [typeKw, .space, ctx.levelPp l opts.unicode]), 1⟩

/-- `pp_value(e)`: the explicit version of a value with implicit arguments. -/
def ppValue (v : Value) : PpM PpResult := do
  let s ← get
  if hasImplicitArgs ctx s.localNames (ctx.valueName v) then
    pure ⟨.name (ctx.explicitVersion (ctx.valueName v)), 1⟩
  else pure ⟨ctx.valuePp v opts.unicode opts.coercion, 1⟩

/-- `pp_constant(e)`: a placeholder, the existential as a function, the explicit version of a
global with implicit arguments, a builtin's value, or the name. -/
def ppConstant (e : Expr) (n : Name) : PpM PpResult := do
  let s ← get
  if ctx.isPlaceholder e then pure ⟨.text "_", 1⟩
  else if isExistsFn ctx e then pure ⟨.text "Exists", 1⟩
  else if hasImplicitArgs ctx s.localNames n then pure ⟨.name (ctx.explicitVersion n), 1⟩
  else
    match ctx.builtin n with
    | some v => ppValue ctx opts v
    | none => pure ⟨.name n, 1⟩

/-- `pp_child_with_paren(e, depth)`: parentheses unless the document is a name. -/
def ppChildWithParen (e : Expr) (depth : Nat) : PpM PpResult := do
  let r ← rec e (depth + 1) false
  if r.fmt.isName then pure r else pure ⟨Fmt.paren r.fmt, r.weight⟩

/-- `pp_child(e, depth)`: parentheses unless the term is atomic. -/
def ppChild (e : Expr) (depth : Nat) : PpM PpResult :=
  if isAtomic ctx opts e then rec e (depth + 1) false else ppChildWithParen rec e depth

/-- `pp_scoped_child(e, depth, prec)`: print a non-atomic term in a scope of its own; when the
scope defined aliases, wrap it in a `let` of their definitions, else in parentheses when its
precedence is below `prec`. -/
def ppScopedChild (e : Expr) (depth prec : Nat) : PpM PpResult :=
  if isAtomic ctx opts e then rec e (depth + 1) true
  else withScope e fun oldSize => do
    let r ← rec e (depth + 1) true
    let s ← get
    if s.localAliasesDefs.length = oldSize then
      if prec ≤ getOperatorPrecedence ctx opts s.localNames e then pure r
      else pure ⟨Fmt.paren r.fmt, r.weight⟩
    else
      let (f, w) := aliasDefsFmt opts.aliasMinWeight true (s.localAliasesDefs.drop oldSize) letKw 2
      pure ⟨.group (f.compose (Fmt.seq [.line, inKw, .space, .nest 3 r.fmt])), w + r.weight⟩

/-- `pp_arrow_child(e, depth)`. -/
def ppArrowChild (e : Expr) (depth : Nat) : PpM PpResult :=
  ppScopedChild ctx opts rec e depth (ctx.arrowPrecedence + 1)

/-- `pp_arrow_body(e, depth)`. -/
def ppArrowBody (e : Expr) (depth : Nat) : PpM PpResult :=
  ppScopedChild ctx opts rec e depth ctx.arrowPrecedence

/-- `pp_cartesian_child(e, depth)`. -/
def ppCartesianChild (e : Expr) (depth : Nat) : PpM PpResult :=
  ppScopedChild ctx opts rec e depth (ctx.cartesianProductPrecedence + 1)

/-- `pp_cartesian_body(e, depth)`. -/
def ppCartesianBody (e : Expr) (depth : Nat) : PpM PpResult :=
  ppScopedChild ctx opts rec e depth ctx.cartesianProductPrecedence

/-- `pp_mixfix_child(op, e, depth)`: parentheses unless atomic or of higher precedence. -/
def ppMixfixChild (op : OperatorInfo) (e : Expr) (depth : Nat) : PpM PpResult := do
  if isAtomic ctx opts e then rec e (depth + 1) false
  else
    let s ← get
    if op.precedence < getOperatorPrecedence ctx opts s.localNames e then rec e (depth + 1) false
    else ppChildWithParen rec e depth

/-- `pp_infix_child(op, e, depth, fx)`: as `pp_mixfix_child`, and no parentheses either for a
term of the same precedence and fixity. -/
def ppInfixChild (op : OperatorInfo) (e : Expr) (depth : Nat) (fx : Fixity) : PpM PpResult := do
  if isAtomic ctx opts e then rec e (depth + 1) false
  else
    let s ← get
    let ePrec := getOperatorPrecedence ctx opts s.localNames e
    if op.precedence < ePrec then rec e (depth + 1) false
    else if op.precedence = ePrec && hasFixity ctx opts s.localNames e fx then
      rec e (depth + 1) false
    else ppChildWithParen rec e depth

/-- Print a gathered block of binders and add it to the bindings: the domain by
`pp_scoped_child`, in parentheses, or braces when the binders are implicit. -/
def flushBlock (depth : Nat) : Option BinderBlock → Option Fmt → Nat → PpM (Option Fmt × Nat)
  | none, bs, w => pure (bs, w)
  | some blk, bs, w => do
    let p ← ppScopedChild ctx opts rec blk.domain depth 0
    let po := if blk.implicit then Fmt.lcurly else .lp
    let pc := if blk.implicit then Fmt.rcurly else .rp
    let block := Fmt.group (.nest opts.indent
      (Fmt.seq [po, ppBnames blk.first blk.rest true, .space, .colon, .space, p.fmt, pc]))
    pure (some (match bs with | none => block | some f => f.compose (.compose .line block)),
      w + p.weight)

/-- The domains of an arrow tail, `A₁ -> A₂ -> …`, each by `pp_arrow_child`. -/
def ppArrowDomains (depth : Nat) : List (Name × Expr) → Option Fmt → Nat → PpM (Fmt × Nat)
  | [], blk, w => pure (blk.getD .nil, w)
  | (_, d) :: rest, blk, w => do
    let p ← ppArrowChild ctx opts rec d depth
    ppArrowDomains depth rest (some (match blk with
      | none => p.fmt
      | some f => f.compose (Fmt.seq [.space, arrowKw opts.unicode, .line, p.fmt]))) (w + p.weight)

/-- The loop of `pp_abstraction_core` (and of `pp_exists`) that prints the binders in blocks of
equal domain and implicitness. The source's inner loop gathers a block ahead; here the block being
gathered is `cur`, printed when the next binder does not join it, so that the printing calls come
in the source's order. From the binder after position `arrowStart` on (when given, and without a
mask) the rest is an arrow tail. `pos` is the source's `arg_pos`. -/
def ppBlocks (implicitArgs : Option (List Bool)) (arrowStart : Option Nat) (head : Fmt)
    (headIndent : Nat) (bodySep : Fmt) (b : Expr) (depth : Nat) :
    List (Name × Expr) → Option BinderBlock → Nat → Option Fmt → Nat → PpM PpResult
  | [], cur, _, bs, w => do
    let (bs, w) ← flushBlock ctx opts rec depth cur bs w
    let p ← ppScopedChild ctx opts rec b depth 0
    pure ⟨binderFmt head headIndent bs bodySep p.fmt, w + p.weight⟩
  | (n, d) :: rest, cur, pos, bs, w =>
    if BinderBlock.joins cur d (isImplicit implicitArgs pos) then
      ppBlocks implicitArgs arrowStart head headIndent bodySep b depth rest
        (cur.map fun blk => { blk with rest := blk.rest ++ [n] }) (pos + 1) bs w
    else do
      let (bs, w) ← flushBlock ctx opts rec depth cur bs w
      if implicitArgs.isNone && arrowStart.any (· < pos + 1) then
        let (blk, w) ← ppArrowDomains ctx opts rec depth ((n, d) :: rest) none w
        let p ← ppArrowChild ctx opts rec b depth
        let block := Fmt.group (blk.compose (Fmt.seq [.space, arrowKw opts.unicode, .line, p.fmt]))
        pure ⟨binderFmt head headIndent bs bodySep block, w + p.weight⟩
      else
        ppBlocks implicitArgs arrowStart head headIndent bodySep b depth rest
          (some ⟨n, [], d, isImplicit implicitArgs pos⟩) (pos + 1) bs w

/-- `collect_nested_quantifiers(e, r)`: open the predicate of `exists t (fun x : t, p)` with a fresh
name, recording the name and `t`, while the body is again an existential; a predicate that is not
a lambda is first put in the normal form `fun x : t, p x`. `fuel` bounds the recursion. -/
def collectNestedQuantifiers :
    Nat → Expr → List (Name × Expr) → PpM (List (Name × Expr) × Expr)
  | 0, _, _ => throw .outOfFuel
  | fuel + 1, .app _ _ [.abst .lambda x d b], r => do
    let n1 := getUnusedName x b
    modify (·.insertLocalName n1)
    let b := replaceVarWithName b n1
    if isExistsExpr ctx b then collectNestedQuantifiers fuel b (r ++ [(n1, d)])
    else pure (r ++ [(n1, d)], b)
  | fuel + 1, .app f t [p], r =>
    collectNestedQuantifiers fuel
      (.app f t [.abst .lambda "x" t (.app (liftFreeVars p 0 1) (.var 0) [])]) r
  | _ + 1, e, r => pure (r, e)

/-- `pp_exists(e, depth)`. -/
def ppExists (fuel : Nat) (e : Expr) (depth : Nat) : PpM PpResult := do
  let (nested, b) ← collectNestedQuantifiers ctx fuel e []
  let head := existsKw opts.unicode
  match nested with
  | [] => pure ⟨.nil, 0⟩ -- not reached: a quantifier always records its binder
  | (n0, d0) :: rest =>
    if rest.all fun p => p.2.alphaEq d0 then do
      let pd ← ppScopedChild ctx opts rec d0 depth 0
      let pb ← ppScopedChild ctx opts rec b depth 0
      let sig := Fmt.seq [ppBnames n0 (rest.map Prod.fst) false, .space, .colon, .space, pd.fmt]
      pure ⟨.group (.nest opts.indent (Fmt.seq [head, .space, sig, .comma, .line, pb.fmt])),
        pd.weight + pb.weight + 1⟩
    else ppBlocks ctx opts rec none none head opts.indent .comma b depth nested none 0 none 1

/-- The arguments of a standard application, each by `pp_child`. -/
def ppArgs (app : Application) (simple : Bool) (depth : Nat) :
    Nat → Nat → Fmt → Nat → PpM (Fmt × Nat)
  | 0, _, r, w => pure (r, w)
  | k + 1, i, r, w => do
    let p ← ppChild ctx opts rec (← getArgM app i) depth
    ppArgs app simple depth k (i + 1)
      (r.compose (Fmt.seq [if i == 0 && simple then .space else .line, p.fmt])) (w + p.weight)

/-- The standard application of `pp_app`: the function, then the arguments `get_arg` gives. -/
def ppStandardApp (app : Application) (depth : Nat) : PpM PpResult := do
  let f := app.fn
  let constName := match f with
    | .constant n _ => if isExistsFn ctx f then none else some n
    | _ => none
  let p ← match constName with
    | some n => pure ⟨.name n, 1⟩
    | none =>
      if (ctx.choices f).isSome then ppChild ctx opts rec f depth
      else match f with
        | .value v => pure ⟨ctx.valuePp v opts.unicode opts.coercion, 1⟩
        | _ => ppChild ctx opts rec f depth
  let simple := constName.any fun n => n.size ≤ opts.indent + 4
  let indent := match constName with
    | some n => if simple then n.size + 1 else opts.indent
    | none => opts.indent
  let (r, w) ← ppArgs ctx opts rec app simple depth app.getNumArgs 0 p.fmt p.weight
  pure ⟨.group (.nest indent r), w⟩

/-- `pp_app(e, depth)` on `e = f a as`: the argument of a hidden coercion; the operator branch when
notation is on and the application has the arity its operator expects; `pp_exists`; or the
standard application. -/
def ppApp (fuel : Nat) (f a : Expr) (as : List Expr) (depth : Nat) : PpM PpResult := do
  let e := Expr.app f a as
  if !opts.coercion && isCoercionApp ctx e then rec a depth false
  else
    let s ← get
    let app := mkApplication ctx s.localNames f a as (opts.implicit || hasMetavar e)
    let op := if opts.useNotation && app.notationEnabled then
        (getOperator ctx opts.unicode s.localNames e).filter (hasExpectedNumArgs app)
      else none
    match op with
    | some op =>
      ppOperatorApp app op (fun x => ppMixfixChild ctx opts rec op x depth)
        (fun x fx => ppInfixChild ctx opts rec op x depth fx)
    | none =>
      if opts.useNotation && isExistsExpr ctx e then ppExists ctx opts rec fuel e depth
      else ppStandardApp ctx opts rec app depth

/-- The head of a printed abstraction and its indentation, when it is neither a compact definition
nor printed with implicit arguments (`plain`). -/
def abstHead (e : Expr) (plain : Bool) : Fmt × Nat :=
  if plain then
    if opts.unicode then
      (if e.isLambda then lambdaKw true else if e.isPi then piKw true else sigKw,
        if e.isSigma then 4 else 2)
    else
      (if e.isLambda then lambdaKw false else if e.isPi then piKw false else sigKw,
        if e.isPi then 3 else 4)
  else (.nil, opts.indent)

/-- `pp_fn::collect_nested(e, T, e.kind(), nested)`: the binders `collect_nested` opens, their names
inserted into `m_local_names`. It calls `get_unused_name(e)` as soon as `T` is absent or an
abstraction, so on a term that is not an abstraction it fails (`notAbstraction`); against a type
side that is not an abstraction it opens nothing. -/
def collectNestedM (e : Expr) (T : Option Expr) : PpM Nested :=
  match e with
  | .abst k _ _ _ => do
    let s ← get
    let nst := collectNested s.localNames e T k []
    set { s with localNames := nst.localNames }
    pure nst
  | _ =>
    if T.all Expr.isAbstraction then throw .notAbstraction
    else do
      let s ← get
      pure ⟨s.localNames, [], e, T⟩

/-- `pp_abstraction_core(e, depth, T, implicit_args)`: an arrow, a cartesian product, or the
binders opened by `collect_nested` with the domains shared by all of them or in blocks, an arrow
tail from `get_arrow_starting_at(e)` on, and, for a compact definition, the type side `T` opened
alongside and printed before `:=`. -/
def ppAbstractionCore (e : Expr) (depth : Nat) (T : Option Expr)
    (implicitArgs : Option (List Bool)) : PpM PpResult :=
  match e, isArrow e && implicitArgs.isNone, isCartesian e && implicitArgs.isNone with
  | .abst _ _ d b, true, _ => do
    let l ← ppArrowChild ctx opts rec d depth
    let r ← ppArrowBody ctx opts rec b depth
    pure ⟨.group (Fmt.seq [l.fmt, .space, arrowKw opts.unicode, .line, r.fmt]),
      l.weight + r.weight + 1⟩
  | .abst _ _ d b, false, true => do
    let l ← ppCartesianChild ctx opts rec d depth
    let r ← ppCartesianBody ctx opts rec b depth
    pure ⟨.group (Fmt.seq [l.fmt, .space, cartesianKw opts.unicode, .line, r.fmt]),
      l.weight + r.weight + 1⟩
  | e, _, _ => do
    let arrowStart := getArrowStartingAt e
    let nst ← collectNestedM e T
    let (head, headIndent) := abstHead opts e (nst.type.isNone && implicitArgs.isNone)
    let bodySep ← match nst.type with
      | some t => do
        let tf ← ppScopedChild ctx opts rec t 0 0
        pure (Fmt.seq [.space, .colon, .space, tf.fmt, .space, assignKw])
      | none => pure (if implicitArgs.isSome then Fmt.compose .space .colon else .comma)
    match nst.binders, implicitArgs with
    | (n0, d0) :: rest, none =>
      if rest.all fun p => p.2.alphaEq d0 then do
        let pd ← ppScopedChild ctx opts rec d0 depth 0
        let pb ← ppScopedChild ctx opts rec nst.body depth 0
        let sig := Fmt.seq [ppBnames n0 (rest.map Prod.fst) false, .space, .colon, .space, pd.fmt]
        let sig := if nst.type.isSome then Fmt.seq [.lp, sig, .rp] else sig
        pure ⟨.group (.nest headIndent (Fmt.seq [head, .space, sig, bodySep, .line, pb.fmt])),
          pd.weight + pb.weight + 1⟩
      else
        ppBlocks ctx opts rec none (some arrowStart) head headIndent bodySep nst.body depth
          nst.binders none 0 none 1
    | binders, _ =>
      ppBlocks ctx opts rec implicitArgs (some arrowStart) head headIndent bodySep nst.body depth
        binders none 0 none 1

/-- The bindings of `pp_let`, each value (and type) by `pp_scoped_child` one level deeper. -/
def ppLetBindings (depth : Nat) :
    List (Name × Option Expr × Expr) → Bool → Fmt → Nat → PpM (Fmt × Nat)
  | [], _, r, w => pure (r, w)
  | (n, t, v) :: bs, first, r, w => do
    let beg := if first then Fmt.space else .line
    let sep := if bs.isEmpty then Fmt.nil else .comma
    let pd ← ppScopedChild ctx opts rec v (depth + 1) 0
    match t with
    | some ty => do
      let pt ← ppScopedChild ctx opts rec ty (depth + 1) 0
      ppLetBindings depth bs false
        (r.compose (.nest 4 (.compose beg (.group (Fmt.seq [.name n, .space, .colon,
          .nest (n.size + 3) (.compose .space pt.fmt), .space, assignKw,
          .nest opts.indent (Fmt.seq [.line, pd.fmt, sep])])))))
        (w + pt.weight + pd.weight)
    | none =>
      ppLetBindings depth bs false
        (r.compose (.nest 4 (Fmt.seq [beg, .name n, .space, assignKw,
          .nest (n.size + 4) (Fmt.seq [.space, pd.fmt, sep])])))
        (w + pd.weight)

/-- `pp_let(e, depth)`: the `let`s opened by `collect_nested_let`, then the body. -/
def ppLet (e : Expr) (depth : Nat) : PpM PpResult := do
  let s ← get
  let nl := collectNestedLet s.localNames e []
  set { s with localNames := nl.localNames }
  let (r, w) ← ppLetBindings ctx opts rec depth nl.bindings true letKw 2
  let pb ← ppScopedChild ctx opts rec nl.body (depth + 1) 0
  pure ⟨.group (r.compose (Fmt.seq [.line, inKw, .space, .nest 3 pb.fmt])), w + pb.weight⟩

/-- The alternatives of `pp_choice`, separated by `|`. -/
def ppChoiceLoop (depth : Nat) : List Expr → Bool → Fmt → Nat → PpM (Fmt × Nat)
  | [], _, r, w => pure (r, w)
  | c :: cs, first, r, w => do
    let r := if first then r else r.compose (Fmt.seq [.space, .text "|", .line])
    let p ← ppChild ctx opts rec c depth
    ppChoiceLoop depth cs false (r.compose p.fmt) (w + p.weight)

/-- `pp_choice(e, depth)`. -/
def ppChoice (cs : List Expr) (depth : Nat) : PpM PpResult := do
  let (r, w) ← ppChoiceLoop ctx opts rec depth cs true .nil 0
  pure ⟨r, w + 1⟩

/-- The entries of a metavariable's local context. -/
def ppLocalEntries (depth : Nat) :
    List (LocalEntry Expr) → Option Fmt → Nat → PpM (Option Fmt × Nat)
  | [], f, w => pure (f, w)
  | le :: les, f, w => do
    let (ef, w) ← match le with
      | .lift s n => pure (Fmt.seq [liftKw, .colon, Fmt.num s, .space, Fmt.num n], w)
      | .inst s v => do
        let p ← ppChildWithParen rec v depth
        pure (Fmt.seq [instKw, .colon, Fmt.num s, .space, .nest opts.indent p.fmt], w + p.weight)
    ppLocalEntries depth les
      (some (match f with | none => ef | some f => f.compose (Fmt.seq [.comma, .line, ef]))) w

/-- `pp_metavar(a, depth)`. -/
def ppMetavar (m : Name) (l : List (LocalEntry Expr)) (depth : Nat) : PpM PpResult := do
  let mv := Fmt.compose (.text "?") (.name m)
  match l with
  | [] => pure ⟨mv, 1⟩
  | l => do
    let (cf, w) ← ppLocalEntries opts rec depth l none 1
    pure ⟨.group (mv.compose (.nest opts.indent (Fmt.seq [.lsb, cf.getD .nil, .rsb]))), w⟩

/-- `pp_pair(a, depth)`: the type too, unless it is a cartesian product. -/
def ppPair (a b t : Expr) (depth : Nat) : PpM PpResult := do
  let fr ← ppChild ctx opts rec a depth
  let sr ← ppChild ctx opts rec b depth
  let r := (pairKw.compose (.nest 5 (.compose .line fr.fmt))).compose (.nest 5 (.compose .line sr.fmt))
  if isCartesian t then pure ⟨.group r, 1 + fr.weight + sr.weight⟩
  else do
    let tr ← ppChild ctx opts rec t depth
    pure ⟨.group (r.compose (.nest 5 (.compose .line (Fmt.seq [.colon, .space, tr.fmt])))),
      1 + fr.weight + sr.weight + tr.weight⟩

/-- `pp_proj(a, depth)`: a chain of second projections prints as one with its length. -/
def ppProj (first : Bool) (a : Expr) (depth : Nat) : PpM PpResult := do
  let (a, i) := projChain a 0
  let ar ← ppChild ctx opts rec a depth
  let r := if first then proj1Kw else proj2Kw
  let r := if 0 < i then r.compose (Fmt.seq [.space, Fmt.num i]) else r
  pure ⟨.group (r.compose (.nest 6 (.compose .line ar.fmt))), 1 + ar.weight⟩

/-- `pp_heq(a, depth)`. -/
def ppHeq (l r : Expr) (depth : Nat) : PpM PpResult := do
  let pl ← ppChild ctx opts rec l depth
  let pr ← ppChild ctx opts rec r depth
  pure ⟨.group (Fmt.seq [pl.fmt, .space, heqKw, .line, pr.fmt]), pl.weight + pr.weight + 1⟩

/-- The dispatch of `pp` on the kind of the term. -/
def ppKind (fuel : Nat) (e : Expr) (depth : Nat) : PpM PpResult :=
  match e with
  | .var i => pure (ppVar i)
  | .constant n _ => ppConstant ctx opts e n
  | .value v => ppValue ctx opts v
  | .app f a as => ppApp ctx opts rec fuel f a as depth
  | .abst .. => ppAbstractionCore ctx opts rec e depth none none
  | .type l => pure (ppType ctx opts l)
  | .let .. => ppLet ctx opts rec e depth
  | .metavar m l => ppMetavar opts rec m l depth
  | .heq l r => ppHeq ctx opts rec l r depth
  | .pair a b t => ppPair ctx opts rec a b t depth
  | .proj first a => ppProj ctx opts rec first a depth

/-- `pp(e, depth, main)`: an ellipsis past the step or depth budget; otherwise count the step and
print an alias of the environment, the local alias of a shared term already printed, a choice, or
the term by its kind, and make the result an alias when the term is shared, heavy, and not the
scope's main term. -/
def ppStep (fuel : Nat) (e : Expr) (depth : Nat) (main : Bool) : PpM PpResult := do
  let s ← get
  if !isAtomic ctx opts e && (opts.maxSteps < s.numSteps || opts.maxDepth < depth) then
    pure (ppEllipsis opts)
  else
    set { s with numSteps := s.numSteps + 1 }
    match aliasedName ctx opts e with
    | some n => pure ⟨.name n, 1⟩
    | none =>
      let s ← get
      match (if opts.extraLets && s.hasSeveralOccs e then findAlias ctx.sameNode e s.localAliases else none) with
      | some n => pure ⟨.name n, 1⟩
      | none =>
        match ctx.choices e with
        | some cs => ppChoice ctx opts rec cs depth
        | none => do
          let r ← ppKind ctx opts rec fuel e depth
          let s ← get
          if !main && opts.extraLets && s.hasSeveralOccs e && opts.aliasMinWeight < r.weight then
            let newAux := s.aux.num (s.localAliasesDefs.length + 1)
            set { s with
              localAliases := (e, newAux) :: s.localAliases
              localAliasesDefs := s.localAliasesDefs ++ [(newAux, r.fmt)] }
            pure ⟨.name newAux, 1⟩
          else pure r

end Methods

/-! ## The printer and its entry points -/

section Entry

variable (ctx : PpContext) (opts : PpOptions)

/-- `pp` with the recursion bounded by `fuel`. -/
def ppFuel : Nat → Expr → Nat → Bool → PpM PpResult
  | 0, _, _, _ => throw .outOfFuel
  | fuel + 1, e, depth, main => ppStep ctx opts (ppFuel fuel) fuel e depth main

/-- `pp_fn::init(e)`: clear the aliases and the step count and choose the aliases' prefix. The
local names and the occurrence counts are left as they are. -/
def ppInit (e : Expr) : PpM Unit :=
  modify fun s => { s with
    localAliases := [], localAliasesDefs := [], numSteps := 0, aux := findUnusedPrefix e }

/-- `pp_fn::operator()(e)`. -/
def ppMain (fuel : Nat) (e : Expr) : PpM Fmt := do
  ppInit e
  let r ← ppScopedChild ctx opts (ppFuel ctx opts fuel) e 0 0
  pure r.fmt

/-- `pp_fn::pp_definition(v, t, implicit_args)`: the value's binders, the type side `t` opened
alongside. -/
def ppDefinitionFn (fuel : Nat) (v t : Expr) (implicitArgs : Option (List Bool)) : PpM Fmt := do
  ppInit (.app v t [])
  let r ← ppAbstractionCore ctx opts (ppFuel ctx opts fuel) v 0 (some t) implicitArgs
  pure r.fmt

/-- `pp_fn::pp_pi_with_implicit_args(e, implicit_args)`. -/
def ppPiWithImplicitArgs (fuel : Nat) (e : Expr) (implicitArgs : List Bool) : PpM Fmt := do
  ppInit e
  let r ← ppAbstractionCore ctx opts (ppFuel ctx opts fuel) e 0 none (some implicitArgs)
  pure r.fmt

/-- `pp_formatter_cell::pp(e, opts)`: a fresh `pp_fn`. -/
def formatterPp (fuel : Nat) (e : Expr) : Except PpFault Fmt :=
  (ppMain ctx opts fuel e).run' PpState.init

/-- `pp_formatter_cell::pp_definition(kwd, n, t, v, opts)`: `kwd n : t := v`, each with a fresh
`pp_fn`. -/
def formatterPpDefinition (fuel : Nat) (kwd : String) (n : Name) (t v : Expr) :
    Except PpFault Fmt := do
  let tf ← formatterPp ctx opts fuel t
  if opts.definitionValue then
    let vf ← formatterPp ctx opts fuel v
    pure (.group (.nest opts.indent (Fmt.seq
      [.text kwd, .space, .name n, .space, .colon, .space, tf, .space, assignKw, .line, vf])))
  else
    pure (.group (.nest opts.indent (Fmt.seq [.text kwd, .space, .name n, .space, .colon, .space, tf])))

/-- The loop of `pp_compact_definition` over the Pis of the type and the Lambdas of the value:
`none` when two domains differ, else the rest of the type. -/
def compactStrip : Expr → Expr → Option Expr
  | .abst .pi _ d₁ b₁, .abst .lambda _ d₂ b₂ => if d₁.alphaEq d₂ then compactStrip b₁ b₂ else none
  | it1, _ => some it1

/-- `pp_formatter_cell::pp_compact_definition(kwd, n, t, v, opts)`: when the value is a lambda
whose binders have the domains of the type's Pis, and the type has no further Pi, the binders are
printed once, as in `kwd n (x : A) : B := C`; otherwise as `pp_definition`. -/
def formatterPpCompactDefinition (fuel : Nat) (kwd : String) (n : Name) (t v : Expr) :
    Except PpFault Fmt :=
  match compactStrip t v with
  | some it1 =>
    if !v.isLambda || it1.isPi then formatterPpDefinition ctx opts fuel kwd n t v
    else do
      let implicitArgs :=
        if ctx.hasImplicitArguments n then some (ctx.implicitArguments n) else none
      let defFmt ← if opts.definitionValue then
          (ppDefinitionFn ctx opts fuel v t implicitArgs).run' PpState.init
        else match implicitArgs with
          | some mask => (ppPiWithImplicitArgs ctx opts fuel t mask).run' PpState.init
          | none => do
            let tf ← formatterPp ctx opts fuel t
            pure (Fmt.seq [.space, .colon, .space, tf])
      pure (Fmt.seq [.text kwd, .space, .name n, defFmt])
  | none => formatterPpDefinition ctx opts fuel kwd n t v

end Entry

/-! ## Two runs

An environment without notation, aliases, coercions or builtins, in which the global `c` has one
implicit argument (its explicit version is `@c`), terms built without sharing, and the printer with
its default options, an indentation of 2 and no unicode. -/

/-- The environment of the runs below. -/
def plainContext : PpContext where
  hasImplicitArguments n := n == "c"
  implicitArguments n := if n == "c" then [true] else []
  explicitVersion n := .mkSimple ("@" ++ n.toString)
  findOp _ _ := none
  aliased _ := []
  isCoercion _ := false
  builtin _ := none
  choices _ := none
  isPlaceholder _ := false
  existsFn := .constant "exists" none
  valuePp _ _ _ := .text "v"
  valueIsAtomicPp _ _ _ := true
  valueName _ := "v"
  levelPp _ _ := .text "l"
  sameNode _ _ := false
  arrowPrecedence := 25
  cartesianProductPrecedence := 30
  heqPrecedence := 50
  appPrecedence := unsignedMax

/-- The default options, with an indentation of 2 and without unicode. -/
def plainOptions : PpOptions := { indent := 2, unicode := false }

/-- `plainContext` on a term whose equal subterms are one node, as after `max_sharing`. -/
def sharedContext : PpContext := { plainContext with sameNode := fun a b => a == b }

/-- `g (fun x : A, x) c`: a lambda whose binder hint is `x`, and after it the global `c`. -/
def siblingAfterBinder (x : Name) : Expr :=
  .app (.constant "g" none) (.abst .lambda x (.constant "A" none) (.var 0)) [.constant "c" none]

/-- **A binder's name outlives its scope.** Printing `g (fun c : A, c) c` inserts the binder name
`c` into `m_local_names` and leaves it there: the run ends with `c` among the local names, and the
global `c` printed after the lambda is taken for a local and loses its explicit version `@c`, which
the same global gets after a lambda whose binder is named `x`. -/
theorem binderName_outlives_scope :
    ((ppMain plainContext plainOptions 20 (siblingAfterBinder "c")).run PpState.init).map
        (fun r => (r.1.flatten, r.2.localNames)) = .ok ("g (fun c : A, c) c", ["c"]) ∧
      (formatterPp plainContext plainOptions 20 (siblingAfterBinder "x")).map Fmt.flatten =
        .ok "g (fun x : A, x) @c" :=
  ⟨rfl, rfl⟩

/-- The value `fun x : A, x` of a compact definition. -/
def compactValue : Expr := .abst .lambda "x" (.constant "A" none) (.var 0)

/-- The type `Pi x : A, P x x'`, where the first `x` is the global constant `x` and `x'` the bound
variable. -/
def typeWithGlobalX : Expr :=
  .abst .pi "x" (.constant "A" none) (.app (.constant "P" none) (.constant "x" none) [.var 0])

/-- The type `Pi x : A, P x x`, both arguments the bound variable. -/
def typeWithBoundX : Expr :=
  .abst .pi "x" (.constant "A" none) (.app (.constant "P" none) (.var 0) [.var 0])

/-- **The type side of a compact definition is opened with a name chosen for the value side.**
`collect_nested` names the binder after the value's body alone, so it opens the body of the type
`Pi x : A, P x x'` with `x`, although the global `x` occurs there: the opened type `P x x` no longer
abstracts back to the type's body, and the definition prints exactly as the one whose type is
`Pi x : A, P x x`. -/
theorem compactDefinition_typeSide_capture :
    (collectNested [] compactValue (some typeWithGlobalX) .lambda []).type =
        some (.app (.constant "P" none) (.constant "x" none) [.constant "x" none]) ∧
      abstractName (.app (.constant "P" none) (.constant "x" none) [.constant "x" none]) "x" ≠
        .app (.constant "P" none) (.constant "x" none) [.var 0] ∧
      (formatterPpCompactDefinition plainContext plainOptions 20 "Definition" "d" typeWithGlobalX
        compactValue).map Fmt.flatten = .ok "Definition d (x : A) : P x x := x" ∧
      (formatterPpCompactDefinition plainContext plainOptions 20 "Definition" "d" typeWithBoundX
        compactValue).map Fmt.flatten = .ok "Definition d (x : A) : P x x := x" :=
  ⟨rfl, by decide, rfl, rfl⟩

end LeanKernel
