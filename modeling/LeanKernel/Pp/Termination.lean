import LeanKernel.Pp.Safety
import Mathlib.Order.Interval.Finset.Nat

/-!
# The printer's loops and recursion end

`pp_fn` bounds neither its recursion nor the loop of `find_unused_prefix`; the model bounds both,
`pp` by the fuel of `ppFuel` and the loop by one more candidate than the term has names. This module
shows that both bounds are never what stops a run.

Every recursive call of `pp` is on a term smaller than the one being printed: a child, a domain, an
argument, or a body opened with a name, which has the size of the body. The only terms the printer
does not take from the term it prints are a choice's alternatives, which the source reads off the
choice application (`get_choice(e, i)` is an argument of `e`): the environment's `choices` is
assumed to return smaller terms. So the nesting of `pp` is bounded by the size of the term.
`collect_nested_quantifiers` recurses on the opened body of an existential, and on its normal form
`exists t (fun x : t, p x)` once when the predicate is not a lambda; it too stays within the size.

* `Expr.size` — the nodes of a term that the printer visits;
* `printer_terminates` — **fuel above the size suffices**: `pp` never runs out of fuel on a term
  smaller than its fuel, and the formatter then fails only on an operator without name parts;
* `findUnusedPrefix_fresh` — **the aliases' prefix is unused**: no name of the term has the prefix
  that `find_unused_prefix` returns, so no local alias `m_aux.k` is a name of the term.
-/

namespace LeanKernel

/-! ## The size of a term -/

mutual
/-- The nodes of a term at the positions the printer visits: a constant's type annotation is not
counted, and of a metavariable's local context only the terms it substitutes. -/
def Expr.size : Expr → Nat
  | .var _ | .constant .. | .type _ | .value _ => 1
  | .metavar _ l => Expr.sizeCtx l + 1
  | .app f a as => f.size + a.size + Expr.sizeList as + 1
  | .abst _ _ d b => d.size + b.size + 1
  | .let _ none v b => v.size + b.size + 1
  | .let _ (some t) v b => t.size + v.size + b.size + 1
  | .heq l r => l.size + r.size + 1
  | .pair a b t => a.size + b.size + t.size + 1
  | .proj _ a => a.size + 1
termination_by structural e => e
/-- `Expr.size` summed over arguments. -/
def Expr.sizeList : List Expr → Nat
  | [] => 0
  | e :: es => e.size + Expr.sizeList es
/-- `Expr.size` summed over the terms a local context substitutes. -/
def Expr.sizeCtx : List (LocalEntry Expr) → Nat
  | [] => 0
  | .lift .. :: l => Expr.sizeCtx l
  | .inst _ v :: l => v.size + Expr.sizeCtx l
end

theorem Expr.size_pos (e : Expr) : 0 < e.size := by
  cases e with
  | «let» _ t => cases t <;> (simp only [Expr.size]; omega)
  | _ => simp only [Expr.size]; omega

theorem Expr.size_le_sizeList {e : Expr} :
    ∀ {es : List Expr}, e ∈ es → e.size ≤ Expr.sizeList es
  | _ :: _, .head _ => by simp only [Expr.sizeList]; omega
  | _ :: _, .tail _ h => by
    have := Expr.size_le_sizeList h
    simp only [Expr.sizeList]
    omega

theorem Expr.size_lt_app_of_mem {f a x : Expr} {as : List Expr} (h : x ∈ a :: as) :
    x.size < (Expr.app f a as).size := by
  rcases List.mem_cons.mp h with rfl | h
  · simp only [Expr.size]
    omega
  · have := Expr.size_le_sizeList h
    simp only [Expr.size]
    omega

/-- The body, the value and the type of a `let` are smaller than it. -/
theorem Expr.size_lt_let (x : Name) (t : Option Expr) (v b : Expr) :
    b.size < (Expr.let x t v b).size ∧ v.size < (Expr.let x t v b).size ∧
      ∀ t' ∈ t, t'.size < (Expr.let x t v b).size := by
  cases t with
  | none => exact ⟨by simp only [Expr.size]; omega, by simp only [Expr.size]; omega, nofun⟩
  | some t =>
    refine ⟨by simp only [Expr.size]; omega, by simp only [Expr.size]; omega, fun t' ht' => ?_⟩
    cases ht'
    simp only [Expr.size]
    omega

/-! ## Opening keeps the size -/

section ReplaceSize

variable {F : Expr → Nat → Option Expr}

mutual
/-- A traversal that replaces variables and metavariables by terms of their size keeps the size. -/
theorem size_replace (hF : LeafFn F) (hs : ∀ e k r, F e k = some r → r.size = e.size) :
    ∀ (o : Nat) (e : Expr), (replace F o e).size = e.size
  | o, .var i => by
    cases h : F (.var i) o with
    | none => rw [replace_var h]
    | some r => rw [replace_of_some h, hs _ _ _ h]
  | o, .metavar m l => by
    cases h : F (.metavar m l) o with
    | none => rw [replace_metavar h]
    | some r => rw [replace_of_some h, hs _ _ _ h]
  | o, .constant .. => by rw [replace_constant (hF _ _ rfl)]
  | o, .type _ => by rw [replace_type (hF _ _ rfl)]
  | o, .value _ => by rw [replace_value (hF _ _ rfl)]
  | o, .app f a as => by
    rw [replace_app (hF _ _ rfl)]
    simp only [Expr.size, size_replace hF hs o f, size_replace hF hs o a,
      sizeList_replaceList hF hs o as]
  | o, .abst _ _ d b => by
    rw [replace_abst (hF _ _ rfl)]
    simp only [Expr.size, size_replace hF hs o d, size_replace hF hs (o + 1) b]
  | o, .let _ none v b => by
    rw [replace_let_none (hF _ _ rfl)]
    simp only [Expr.size, size_replace hF hs o v, size_replace hF hs (o + 1) b]
  | o, .let _ (some t) v b => by
    rw [replace_let_some (hF _ _ rfl)]
    simp only [Expr.size, size_replace hF hs o t, size_replace hF hs o v,
      size_replace hF hs (o + 1) b]
  | o, .heq l r => by
    rw [replace_heq (hF _ _ rfl)]
    simp only [Expr.size, size_replace hF hs o l, size_replace hF hs o r]
  | o, .pair a b t => by
    rw [replace_pair (hF _ _ rfl)]
    simp only [Expr.size, size_replace hF hs o a, size_replace hF hs o b, size_replace hF hs o t]
  | o, .proj _ a => by
    rw [replace_proj (hF _ _ rfl)]
    simp only [Expr.size, size_replace hF hs o a]
termination_by structural _ e => e
theorem sizeList_replaceList (hF : LeafFn F) (hs : ∀ e k r, F e k = some r → r.size = e.size) :
    ∀ (o : Nat) (es : List Expr), Expr.sizeList (replaceList F o es) = Expr.sizeList es
  | _, [] => rfl
  | o, e :: es => by
    simp only [replaceList_cons, Expr.sizeList, size_replace hF hs o e,
      sizeList_replaceList hF hs o es]
end

end ReplaceSize

theorem size_replaceVarWithName (b : Expr) (n : Name) : (replaceVarWithName b n).size = b.size :=
  size_replace (varToNameFn_leaf n) (fun e k r h => by
    cases e <;> simp only [varToNameFn, reduceCtorEq] at h
    split at h
    · cases h
      split <;> rfl
    · cases h) 0 b

theorem size_liftFreeVars (p : Expr) (s d : Nat) : (liftFreeVars p s d).size = p.size :=
  size_replace (liftFn_leaf s d) (fun e k r h => by
    cases e with
    | var i =>
      simp only [liftFn] at h
      split at h
      · cases h
        rfl
      · cases h
    | metavar m l =>
      cases h
      by_cases hd : d = 0 <;> simp only [addLift, hd, if_true, if_false, Expr.size, Expr.sizeCtx]
    | _ => cases h) 0 p

theorem size_openAbstBody (t : Expr) (n : Name) : (openAbstBody t n).size ≤ t.size := by
  cases t with
  | abst =>
    simp only [openAbstBody, size_replaceVarWithName, Expr.size]
    omega
  | _ => exact le_rfl

/-! ## What the printer opens is smaller -/

/-- `collect_nested` records domains smaller than the term it opens, and leaves a body and a type
side no larger. -/
theorem collectNestedAux_size (k : AbstKind) : ∀ (fuel : Nat) (st : Nested),
    (∀ p ∈ (collectNestedAux k fuel st).binders, p ∈ st.binders ∨ p.2.size < st.body.size) ∧
      (collectNestedAux k fuel st).body.size ≤ st.body.size ∧
      ∀ t' ∈ (collectNestedAux k fuel st).type, ∃ t ∈ st.type, t'.size ≤ t.size
  | 0, _ => ⟨fun _ hp => .inl hp, le_rfl, fun t' ht' => ⟨t', ht', le_rfl⟩⟩
  | fuel + 1, ⟨names, r, .abst k' x d b, T⟩ => by
    simp only [collectNestedAux]
    split
    · obtain ⟨hbs, hbody, htype⟩ := collectNestedAux_size k fuel
        ⟨getUnusedName x b :: names, r ++ [(getUnusedName x b, d)],
          replaceVarWithName b (getUnusedName x b), T.map (openAbstBody · (getUnusedName x b))⟩
      simp only [size_replaceVarWithName, Expr.size] at hbs hbody htype ⊢
      refine ⟨fun p hp => ?_, by omega, fun t' ht' => ?_⟩
      · rcases hbs p hp with hp | hp
        · rcases List.mem_append.mp hp with hp | hp
          · exact .inl hp
          · rw [List.mem_singleton.mp hp]
            exact .inr (by simp only; omega)
        · exact .inr (by omega)
      · obtain ⟨t, ht, hle⟩ := htype t' ht'
        obtain ⟨t₀, ht₀, rfl⟩ := Option.mem_map.mp ht
        exact ⟨t₀, ht₀, hle.trans (size_openAbstBody t₀ _)⟩
    · exact ⟨fun _ hp => .inl hp, le_rfl, fun t' ht' => ⟨t', ht', le_rfl⟩⟩
  | _ + 1, ⟨_, _, .var _, _⟩ | _ + 1, ⟨_, _, .constant .., _⟩ | _ + 1, ⟨_, _, .type _, _⟩
  | _ + 1, ⟨_, _, .value _, _⟩ | _ + 1, ⟨_, _, .app .., _⟩ | _ + 1, ⟨_, _, .let .., _⟩
  | _ + 1, ⟨_, _, .heq .., _⟩ | _ + 1, ⟨_, _, .pair .., _⟩ | _ + 1, ⟨_, _, .proj .., _⟩
  | _ + 1, ⟨_, _, .metavar .., _⟩ =>
    ⟨fun _ hp => .inl hp, le_rfl, fun t' ht' => ⟨t', ht', le_rfl⟩⟩

/-- Without a type side, `collect_nested` opens at least the abstraction at the root. -/
theorem collectNested_body_lt (names : List Name) (k : AbstKind) (x : Name) (d b : Expr) :
    (collectNested names (.abst k x d b) none k []).body.size < (Expr.abst k x d b).size := by
  have hstep := (collectNestedAux_size k (absSpine k b)
    ⟨getUnusedName x b :: names, [(getUnusedName x b, d)], replaceVarWithName b (getUnusedName x b),
      none⟩).2.1
  simp only [collectNested, absSpine_abst, if_true, collectNestedAux, beq_self_eq_true,
    Option.all_none, Bool.and_self, if_true, List.nil_append, Option.map_none'] at hstep ⊢
  simp only [size_replaceVarWithName, Expr.size] at hstep ⊢
  omega

/-- `collect_nested_let` records types and values smaller than the term it opens, and leaves a body
no larger. -/
theorem collectNestedLetAux_size : ∀ (fuel : Nat) (st : NestedLet),
    (∀ bd ∈ (collectNestedLetAux fuel st).bindings, bd ∈ st.bindings ∨
      (∀ t ∈ bd.2.1, t.size < st.body.size) ∧ bd.2.2.size < st.body.size) ∧
      (collectNestedLetAux fuel st).body.size ≤ st.body.size
  | 0, _ => ⟨fun _ hb => .inl hb, le_rfl⟩
  | fuel + 1, ⟨names, bs, .let x t v b⟩ => by
    obtain ⟨hbs, hbody⟩ := collectNestedLetAux_size fuel
      ⟨getUnusedName x b :: names, bs ++ [(getUnusedName x b, t, v)],
        replaceVarWithName b (getUnusedName x b)⟩
    simp only [collectNestedLetAux, size_replaceVarWithName] at hbs hbody ⊢
    have hlt := Expr.size_lt_let x t v b
    refine ⟨fun bd hb => ?_, hbody.trans hlt.1.le⟩
    rcases hbs bd hb with hb | ⟨ht, hv⟩
    · rcases List.mem_append.mp hb with hb | hb
      · exact .inl hb
      · rw [List.mem_singleton.mp hb]
        exact .inr ⟨hlt.2.2, hlt.2.1⟩
    · exact .inr ⟨fun t' ht' => (ht t' ht').trans hlt.1, hv.trans hlt.1⟩
  | _ + 1, ⟨_, _, .var _⟩ | _ + 1, ⟨_, _, .constant ..⟩ | _ + 1, ⟨_, _, .type _⟩
  | _ + 1, ⟨_, _, .value _⟩ | _ + 1, ⟨_, _, .app ..⟩ | _ + 1, ⟨_, _, .abst ..⟩
  | _ + 1, ⟨_, _, .heq ..⟩ | _ + 1, ⟨_, _, .pair ..⟩ | _ + 1, ⟨_, _, .proj ..⟩
  | _ + 1, ⟨_, _, .metavar ..⟩ => ⟨fun _ hb => .inl hb, le_rfl⟩

/-- `collect_nested_let` opens at least the `let` at the root. -/
theorem collectNestedLet_lt (names : List Name) (x : Name) (t : Option Expr) (v b : Expr) :
    (∀ bd ∈ (collectNestedLet names (.let x t v b) []).bindings,
      (∀ t' ∈ bd.2.1, t'.size < (Expr.let x t v b).size) ∧ bd.2.2.size < (Expr.let x t v b).size) ∧
      (collectNestedLet names (.let x t v b) []).body.size < (Expr.let x t v b).size := by
  obtain ⟨hbs, hbody⟩ := collectNestedLetAux_size (letSpine b)
    ⟨getUnusedName x b :: names, [(getUnusedName x b, t, v)], replaceVarWithName b (getUnusedName x b)⟩
  obtain ⟨hb, hv, ht⟩ := Expr.size_lt_let x t v b
  rw [size_replaceVarWithName] at hbs hbody
  refine ⟨fun bd hbd => ?_, hbody.trans_lt hb⟩
  rcases hbs bd hbd with hbd | ⟨ht', hv'⟩
  · rw [List.mem_singleton.mp hbd]
    exact ⟨ht, hv⟩
  · exact ⟨fun t' h => (ht' t' h).trans hb, hv'.trans hb⟩

/-- The argument under a chain of second projections is no larger than the chain. -/
theorem size_projChain : ∀ (a : Expr) (i : Nat), (projChain a i).1.size ≤ a.size
  | .proj false a, i => by
    have := size_projChain a (i + 1)
    simp only [projChain, Expr.size] at this ⊢
    omega
  | .var _, _ | .constant .., _ | .type _, _ | .value _, _ | .app .., _ | .abst .., _
  | .let .., _ | .heq .., _ | .pair .., _ | .proj true _, _ | .metavar .., _ => le_rfl

/-- The printer's view of `f a as` prints `f` or a constant, and the arguments `a :: as`. -/
theorem mkApplication_parts (ctx : PpContext) (names : List Name) (f a : Expr) (as : List Expr)
    (showImplicit : Bool) :
    (mkApplication ctx names f a as showImplicit).args = a :: as ∧
      (mkApplication ctx names f a as showImplicit).fn.size ≤ f.size := by
  unfold mkApplication
  split
  · split
    · exact ⟨rfl, Expr.size_pos f⟩
    · exact ⟨rfl, le_rfl⟩
  · exact ⟨rfl, le_rfl⟩

theorem Application.mem_args_of_mem_explicitArgs {app : Application} {a : Expr}
    (h : a ∈ app.explicitArgs) : a ∈ app.args := by
  unfold Application.explicitArgs at h
  split at h
  · obtain ⟨⟨_, a'⟩, hp, rfl⟩ := List.mem_map.mp h
    exact List.mem_of_mem_filter hp |> List.snd_mem_of_mem_enum
  · exact h

/-! ## Results and exhausted fuel -/

/-- The fault of exhausted fuel, the one the source cannot raise. -/
def PpFault.isOutOfFuel : PpFault → Bool
  | .outOfFuel => true
  | _ => false

/-- Every run of `x` that returns, from any state, returns a result with `Q`. -/
def Returns {α : Type} (Q : α → Prop) (x : PpM α) : Prop := ∀ s a s', x s = .ok (a, s') → Q a

namespace Returns

variable {α β : Type} {Q : α → Prop} {R : β → Prop}

theorem pure {a : α} (h : Q a) : Returns Q (Pure.pure a : PpM α) := fun _ _ _ he => by
  cases he
  exact h

theorem modify (f : PpState → PpState) :
    Returns (fun _ => True) (MonadState.modifyGet (fun s => ((), f s)) : PpM Unit) :=
  fun _ _ _ _ => trivial

theorem bind {x : PpM α} {f : α → PpM β} (hx : Returns Q x) (hf : ∀ a, Q a → Returns R (f a)) :
    Returns R (x >>= f) := by
  intro s b s' h
  rw [PpM.run_bind] at h
  split at h
  · exact hf _ (hx _ _ _ ‹_›) _ _ _ h
  · cases h

theorem ite {c : Prop} [Decidable c] {x y : PpM α} (hx : c → Returns Q x) (hy : ¬c → Returns Q y) :
    Returns Q (if c then x else y) := by
  split
  · exact hx ‹_›
  · exact hy ‹_›

theorem mono {x : PpM α} {Q' : α → Prop} (h : Returns Q x) (hQ : ∀ a, Q a → Q' a) :
    Returns Q' x := fun s a s' hx => hQ a (h s a s' hx)

end Returns

/-- `bind`, when what follows avoids the fault on the results the first computation returns. -/
theorem Avoids.bind_returns {α β : Type} {bad : PpFault → Bool} {Q : α → Prop} {x : PpM α}
    {f : α → PpM β} (hx : Avoids bad x) (hQ : Returns Q x) (hf : ∀ a, Q a → Avoids bad (f a)) :
    Avoids bad (x >>= f) := by
  intro s e h
  rw [PpM.run_bind] at h
  split at h
  · exact hf _ (hQ _ _ _ ‹_›) _ _ h
  · cases h
    exact hx s _ ‹_›

/-- `if`, when each branch avoids the fault under its condition. -/
theorem Avoids.ite_of {α : Type} {bad : PpFault → Bool} {c : Prop} [Decidable c] {x y : PpM α}
    (hx : c → Avoids bad x) (hy : ¬c → Avoids bad y) : Avoids bad (if c then x else y) := by
  split
  · exact hx ‹_›
  · exact hy ‹_›

theorem Avoids.outOfFuel_opClosed : PpM.OpClosed fun _ x => Avoids PpFault.isOutOfFuel x :=
  ⟨Avoids.pure, Avoids.bind, Avoids.throw rfl⟩

/-! ## The quantifier loop -/

section Quantifiers

variable (ctx : PpContext)

theorem isExistsExpr_eq_true {e : Expr} (h : isExistsExpr ctx e = true) :
    ∃ f t p, e = .app f t [p] := by
  unfold isExistsExpr at h
  split at h
  · exact ⟨_, _, _, rfl⟩
  · cases h

/-- One step of `collect_nested_quantifiers` on a lambda predicate. -/
theorem collectNestedQuantifiers_lambda (fuel : Nat) (f t : Expr) (x : Name) (d b : Expr)
    (r : List (Name × Expr)) :
    collectNestedQuantifiers ctx (fuel + 1) (.app f t [.abst .lambda x d b]) r = (do
      modify (·.insertLocalName (getUnusedName x b))
      if isExistsExpr ctx (replaceVarWithName b (getUnusedName x b)) then
        collectNestedQuantifiers ctx fuel (replaceVarWithName b (getUnusedName x b))
          (r ++ [(getUnusedName x b, d)])
      else pure (r ++ [(getUnusedName x b, d)], replaceVarWithName b (getUnusedName x b))) := rfl

/-- One step of `collect_nested_quantifiers` on another predicate: its normal form. -/
theorem collectNestedQuantifiers_eta (fuel : Nat) (f t p : Expr) (r : List (Name × Expr))
    (hp : ∀ x d b, p ≠ .abst .lambda x d b) :
    collectNestedQuantifiers ctx (fuel + 1) (.app f t [p]) r =
      collectNestedQuantifiers ctx fuel
        (.app f t [.abst .lambda "x" t (.app (liftFreeVars p 0 1) (.var 0) [])]) r := by
  cases p with
  | abst k x d b => cases k with
    | lambda => exact absurd rfl (hp x d b)
    | _ => rfl
  | _ => rfl

/-- A binder recorded after `r`, with a domain below `k`, is in `r` or below `k`. -/
theorem mem_append_singleton_size {q : Name × Expr} {r : List (Name × Expr)} {n : Name} {d : Expr}
    {k : Nat} (hq : q ∈ r ++ [(n, d)]) (hd : d.size < k) : q ∈ r ∨ q.2.size < k := by
  rcases List.mem_append.mp hq with hq | hq
  · exact .inl hq
  · exact .inr (by rw [List.mem_singleton.mp hq]; exact hd)

/-- `collect_nested_quantifiers` on an existential no larger than its fuel does not run out of
fuel, and the domains it records and the body it returns are smaller than the existential. -/
theorem collectNestedQuantifiers_fueled :
    ∀ (fuel : Nat) (f t p : Expr) (r : List (Name × Expr)), (Expr.app f t [p]).size ≤ fuel →
      Avoids PpFault.isOutOfFuel (collectNestedQuantifiers ctx fuel (.app f t [p]) r) ∧
        Returns (fun res => (∀ q ∈ res.1, q ∈ r ∨ q.2.size < (Expr.app f t [p]).size) ∧
            res.2.size < (Expr.app f t [p]).size)
          (collectNestedQuantifiers ctx fuel (.app f t [p]) r)
  | 0, f, _, _, _, h => absurd h (by simp only [Expr.size]; omega)
  | fuel + 1, f, t, p, r, h => by
    have hf := f.size_pos
    have ht := t.size_pos
    by_cases hp : ∃ x d b, p = .abst .lambda x d b
    · obtain ⟨x, d, b, rfl⟩ := hp
      simp only [Expr.size, Expr.sizeList] at h ⊢
      rw [collectNestedQuantifiers_lambda]
      refine ⟨.bind (.modify _) fun _ => .ite_of (fun hex => ?_) fun _ => .pure _,
        .bind (.modify _) fun _ _ => .ite (fun hex => ?_) fun _ => .pure ⟨fun q hq => ?_, ?_⟩⟩
      · obtain ⟨f', t', p', hb'⟩ := isExistsExpr_eq_true ctx hex
        have hsz := size_replaceVarWithName b (getUnusedName x b)
        rw [hb'] at hsz ⊢
        exact (collectNestedQuantifiers_fueled fuel f' t' p' _ (by omega)).1
      · obtain ⟨f', t', p', hb'⟩ := isExistsExpr_eq_true ctx hex
        have hsz := size_replaceVarWithName b (getUnusedName x b)
        rw [hb'] at hsz ⊢
        refine (collectNestedQuantifiers_fueled fuel f' t' p' _ (by omega)).2.mono
          fun res ⟨hq, hb⟩ => ⟨fun q hq' => ?_, by omega⟩
        rcases hq q hq' with hq | hq
        · exact mem_append_singleton_size hq (by omega)
        · exact .inr (by omega)
      · exact mem_append_singleton_size hq (by omega)
      · rw [size_replaceVarWithName]
        omega
    · have hp' : ∀ x d b, p ≠ .abst .lambda x d b := fun x d b he => hp ⟨x, d, b, he⟩
      rw [collectNestedQuantifiers_eta ctx fuel f t p r hp']
      obtain ⟨fuel, rfl⟩ : ∃ k, fuel = k + 1 :=
        ⟨fuel - 1, by have := p.size_pos; simp only [Expr.size, Expr.sizeList] at h; omega⟩
      have hbody : ∀ n, replaceVarWithName (.app (liftFreeVars p 0 1) (.var 0) []) n =
          .app (replaceVarWithName (liftFreeVars p 0 1) n) (.constant n none) [] := fun n => by
        rw [replaceVarWithName, replace_app (f := varToNameFn n) (o := 0) rfl]
        rfl
      rw [collectNestedQuantifiers_lambda, hbody]
      simp only [isExistsExpr, Bool.false_eq_true, if_false]
      refine ⟨.bind (.modify _) fun _ => .pure _, .bind (.modify _) fun _ _ => .pure ⟨?_, ?_⟩⟩
      · exact fun q hq => mem_append_singleton_size hq (by simp only [Expr.size, Expr.sizeList]; omega)
      · simp only [Expr.size, Expr.sizeList, size_replaceVarWithName, size_liftFreeVars]
        omega

end Quantifiers

/-! ## The methods, on terms below the bound

Each method lemma assumes that the recursive `pp` does not run out of fuel on a term of size below
`n`, and shows that the method does not on a term of size at most `n`: the terms it hands to the
recursive `pp` are smaller. -/

/-- `collect_nested` runs out of nothing, and the domains, body and type side it leaves are below
the bound: the body is smaller than the term when an abstraction is opened without a type side (from
`pp`), and no larger otherwise (from the entry points, which call it on a term below the bound). -/
theorem collectNestedM_fueled {n : Nat} {e : Expr} {T : Option Expr} (he : e.size ≤ n)
    (hopen : T = none ∧ e.isAbstraction = true ∨ e.size < n) (hT : ∀ t ∈ T, t.size < n) :
    Avoids PpFault.isOutOfFuel (collectNestedM e T) ∧
      Returns (fun nst : Nested => (∀ p ∈ nst.binders, p.2.size < n) ∧ nst.body.size < n ∧
        ∀ t ∈ nst.type, t.size < n) (collectNestedM e T) := by
  unfold collectNestedM
  split
  · next k x d b =>
    refine ⟨.bind .get fun _ => .bind (.set _) fun _ => .pure _, fun s nst s' h => ?_⟩
    simp only [PpM.run_bind, PpM.run_get, PpM.run_set, PpM.run_pure] at h
    obtain rfl := (Prod.mk.inj (Except.ok.inj h)).1
    obtain ⟨hb, hbody, htype⟩ := collectNestedAux_size k (absSpine k (.abst k x d b))
      ⟨s.localNames, [], .abst k x d b, T⟩
    refine ⟨fun p hp => ?_, ?_, fun t ht => ?_⟩
    · rcases hb p hp with h | h
      · cases h
      · exact lt_of_lt_of_le h he
    · rcases hopen with ⟨rfl, -⟩ | h
      · exact lt_of_lt_of_le (collectNested_body_lt _ _ _ _ _) he
      · exact lt_of_le_of_lt hbody h
    · obtain ⟨t₀, ht₀, hle⟩ := htype t ht
      exact lt_of_le_of_lt hle (hT t₀ ht₀)
  · next hne =>
    have hlt : e.size < n := by
      rcases hopen with ⟨-, habs⟩ | h
      · obtain ⟨k, x, d, b, rfl⟩ := Expr.exists_abst_of_isAbstraction habs
        exact (hne k x d b rfl).elim
      · exact h
    refine ⟨.ite (.throw rfl) (.bind .get fun _ => .pure _), .ite (fun _ => fun _ _ _ h => nomatch h)
      fun _ => fun s nst s' h => ?_⟩
    simp only [PpM.run_bind, PpM.run_get, PpM.run_pure] at h
    obtain rfl := (Prod.mk.inj (Except.ok.inj h)).1
    exact ⟨nofun, hlt, hT⟩

section Methods

variable (ctx : PpContext) (opts : PpOptions) {rec : Expr → Nat → Bool → PpM PpResult} {n : Nat}

theorem ppValue_avoids (bad : PpFault → Bool) (v : Value) : Avoids bad (ppValue ctx opts v) :=
  .bind .get fun _ => .ite (.pure _) (.pure _)

theorem ppConstant_avoids (bad : PpFault → Bool) (e : Expr) (n : Name) :
    Avoids bad (ppConstant ctx opts e n) :=
  .bind .get fun _ => .ite (.pure _) <| .ite (.pure _) <| .ite (.pure _) <| by
    split
    · exact ppValue_avoids ctx opts bad _
    · exact .pure _

variable (hrec : ∀ e d m, e.size < n → Avoids PpFault.isOutOfFuel (rec e d m))
include hrec

theorem ppChildWithParen_fueled {e : Expr} (depth : Nat) (he : e.size < n) :
    Avoids PpFault.isOutOfFuel (ppChildWithParen rec e depth) :=
  .bind (hrec _ _ _ he) fun _ => .ite (.pure _) (.pure _)

theorem ppChild_fueled {e : Expr} (depth : Nat) (he : e.size < n) :
    Avoids PpFault.isOutOfFuel (ppChild ctx opts rec e depth) :=
  .ite (hrec _ _ _ he) (ppChildWithParen_fueled hrec depth he)

theorem ppScopedChild_fueled {e : Expr} (depth prec : Nat) (he : e.size < n) :
    Avoids PpFault.isOutOfFuel (ppScopedChild ctx opts rec e depth prec) :=
  .ite (hrec _ _ _ he) <| withScope_avoids fun _ => .bind (hrec _ _ _ he) fun _ =>
    .bind .get fun _ => .ite (.ite (.pure _) (.pure _)) (.pure _)

theorem ppMixfixChild_fueled (op : OperatorInfo) {e : Expr} (depth : Nat) (he : e.size < n) :
    Avoids PpFault.isOutOfFuel (ppMixfixChild ctx opts rec op e depth) :=
  .ite (hrec _ _ _ he) <| .bind .get fun _ =>
    .ite (hrec _ _ _ he) (ppChildWithParen_fueled hrec depth he)

theorem ppInfixChild_fueled (op : OperatorInfo) {e : Expr} (depth : Nat) (fx : Fixity)
    (he : e.size < n) : Avoids PpFault.isOutOfFuel (ppInfixChild ctx opts rec op e depth fx) :=
  .ite (hrec _ _ _ he) <| .bind .get fun _ =>
    .ite (hrec _ _ _ he) <| .ite (hrec _ _ _ he) (ppChildWithParen_fueled hrec depth he)

theorem flushBlock_fueled (depth : Nat) :
    ∀ (cur : Option BinderBlock) (bs : Option Fmt) (w : Nat), (∀ blk ∈ cur, blk.domain.size < n) →
      Avoids PpFault.isOutOfFuel (flushBlock ctx opts rec depth cur bs w)
  | none, _, _, _ => .pure _
  | some _, _, _, h => .bind (ppScopedChild_fueled ctx opts hrec _ _ (h _ rfl)) fun _ => .pure _

theorem ppArrowDomains_fueled (depth : Nat) :
    ∀ (ds : List (Name × Expr)) (blk : Option Fmt) (w : Nat), (∀ p ∈ ds, p.2.size < n) →
      Avoids PpFault.isOutOfFuel (ppArrowDomains ctx opts rec depth ds blk w)
  | [], _, _, _ => .pure _
  | (_, _) :: rest, _, _, h =>
    .bind (ppScopedChild_fueled ctx opts hrec _ _ (h _ (.head _))) fun _ =>
      ppArrowDomains_fueled depth rest _ _ fun p hp => h p (.tail _ hp)

/-- A block's domain is a binder's domain, and the body is printed last. -/
theorem ppBlocks_fueled (implicitArgs : Option (List Bool)) (arrowStart : Option Nat)
    (head : Fmt) (headIndent : Nat) (bodySep : Fmt) {b : Expr} (depth : Nat) (hb : b.size < n) :
    ∀ (binders : List (Name × Expr)) (cur : Option BinderBlock) (pos : Nat) (bs : Option Fmt)
      (w : Nat), (∀ p ∈ binders, p.2.size < n) → (∀ blk ∈ cur, blk.domain.size < n) →
      Avoids PpFault.isOutOfFuel (ppBlocks ctx opts rec implicitArgs arrowStart head headIndent
        bodySep b depth binders cur pos bs w)
  | [], _, _, _, _, _, hcur => .bind (flushBlock_fueled ctx opts hrec _ _ _ _ hcur) fun _ =>
    .bind (ppScopedChild_fueled ctx opts hrec _ _ hb) fun _ => .pure _
  | (_, _) :: rest, _, _, _, _, hbs, hcur =>
    have hrest : ∀ p ∈ rest, p.2.size < n := fun p hp => hbs p (.tail _ hp)
    .ite (ppBlocks_fueled implicitArgs arrowStart head headIndent bodySep depth hb rest _ _ _ _ hrest
        fun _ hmap => by
          obtain ⟨blk, hblk, rfl⟩ := Option.mem_map.mp hmap
          exact hcur blk hblk)
      (.bind (flushBlock_fueled ctx opts hrec _ _ _ _ hcur) fun _ =>
        .ite (.bind (ppArrowDomains_fueled ctx opts hrec _ _ _ _ hbs) fun _ =>
            .bind (ppScopedChild_fueled ctx opts hrec _ _ hb) fun _ => .pure _)
          (ppBlocks_fueled implicitArgs arrowStart head headIndent bodySep depth hb rest _ _ _ _
            hrest fun _ hblk => by
              cases hblk
              exact hbs _ (.head _)))

/-- `pp_exists` prints the domains and the body `collect_nested_quantifiers` returns, which are
smaller than the existential. -/
theorem ppExists_fueled (fuel : Nat) {e : Expr} (depth : Nat) (he : e.size ≤ n)
    (hfuel : e.size ≤ fuel) (hex : isExistsExpr ctx e = true) :
    Avoids PpFault.isOutOfFuel (ppExists ctx opts rec fuel e depth) := by
  obtain ⟨f, t, p, rfl⟩ := isExistsExpr_eq_true ctx hex
  obtain ⟨hcnq, hret⟩ := collectNestedQuantifiers_fueled ctx fuel f t p [] hfuel
  refine .bind_returns hcnq hret fun ⟨nested, b⟩ ⟨hq, hb⟩ => ?_
  dsimp only at hq hb
  have hq' : ∀ q ∈ nested, q.2.size < n := fun q hq' => by
    rcases hq q hq' with h | h
    · cases h
    · omega
  rcases nested with _ | ⟨⟨_, _⟩, _⟩
  · exact .pure _
  · exact .ite (.bind (ppScopedChild_fueled ctx opts hrec _ _ (hq' _ (.head _))) fun _ =>
        .bind (ppScopedChild_fueled ctx opts hrec _ _ (by omega)) fun _ => .pure _)
      (ppBlocks_fueled ctx opts hrec _ _ _ _ _ _ (by omega) _ _ _ _ _ hq' fun _ h => nomatch h)

theorem ppArgs_fueled (app : Application) (simple : Bool) (depth : Nat)
    (hargs : ∀ a ∈ app.args, a.size < n) :
    ∀ (k i : Nat) (r : Fmt) (w : Nat), i + k = app.getNumArgs →
      Avoids PpFault.isOutOfFuel (ppArgs ctx opts rec app simple depth k i r w)
  | 0, _, _, _, _ => .pure _
  | k + 1, i, _, _, hk =>
    getArgM_bind (P := fun _ x => Avoids PpFault.isOutOfFuel x) (by omega) fun _ ha =>
      .bind (ppChild_fueled ctx opts hrec _ (hargs _ (Application.mem_args_of_mem_explicitArgs ha)))
        fun _ => ppArgs_fueled app simple depth hargs k (i + 1) _ _ (by omega)

theorem ppStandardApp_fueled (app : Application) (depth : Nat) (hfn : app.fn.size < n)
    (hargs : ∀ a ∈ app.args, a.size < n) :
    Avoids PpFault.isOutOfFuel (ppStandardApp ctx opts rec app depth) := by
  unfold ppStandardApp
  lift_lets
  intro f constName simple indent jp
  have hjp : ∀ p, Avoids PpFault.isOutOfFuel (jp p) := fun _ =>
    .bind (ppArgs_fueled ctx opts hrec app _ depth hargs _ 0 _ _ (Nat.zero_add _)) fun _ => .pure _
  have hf : f.size < n := hfn
  cases constName with
  | some n => exact .bind (.pure _) fun _ => hjp _
  | none =>
    refine .ite (.bind (ppChild_fueled ctx opts hrec _ hf) fun _ => hjp _) ?_
    revert hf
    cases f with
    | value => exact fun _ => .bind (.pure _) fun _ => hjp _
    | _ => exact fun hf => .bind (ppChild_fueled ctx opts hrec _ hf) fun _ => hjp _

/-- The arguments of `f a as`, and `f` (or the constant the printer's view puts in its place),
are smaller than the application. -/
theorem ppApp_fueled (fuel : Nat) (f a : Expr) (as : List Expr) (depth : Nat)
    (he : (Expr.app f a as).size ≤ n) (hfuel : (Expr.app f a as).size ≤ fuel) :
    Avoids PpFault.isOutOfFuel (ppApp ctx opts rec fuel f a as depth) := by
  have hargs : ∀ {names sh}, ∀ x ∈ (mkApplication ctx names f a as sh).args, x.size < n :=
    fun x hx => by
      rw [(mkApplication_parts ..).1] at hx
      exact lt_of_lt_of_le (Expr.size_lt_app_of_mem hx) he
  have hfn : ∀ {names sh}, (mkApplication ctx names f a as sh).fn.size < n := fun {names sh} => by
    have := (mkApplication_parts ctx names f a as sh).2
    simp only [Expr.size] at he
    omega
  refine .ite (hrec _ _ _ (lt_of_lt_of_le (Expr.size_lt_app_of_mem (.head _)) he))
    (.bind .get fun s => ?_)
  dsimp only
  split
  · rename_i op hop
    refine ppOperatorApp_closedOn Avoids.outOfFuel_opClosed
      (fun x hx => ppMixfixChild_fueled ctx opts hrec _ _
        (hargs x (Application.mem_args_of_mem_explicitArgs hx)))
      (fun x hx fx => ppInfixChild_fueled ctx opts hrec _ _ _
        (hargs x (Application.mem_args_of_mem_explicitArgs hx))) ?_
    split at hop
    · exact (Option.filter_eq_some.mp hop).2
    · cases hop
  · exact .ite_of (fun h => ppExists_fueled ctx opts hrec fuel depth he hfuel
      (Bool.and_eq_true_iff.mp h).2) fun _ => ppStandardApp_fueled ctx opts hrec _ _ hfn hargs

/-- `pp_abstraction_core` prints the binders' domains, the type side and the body that
`collect_nested` leaves. -/
theorem ppAbstractionCore_fueled {e : Expr} (depth : Nat) {T : Option Expr}
    (implicitArgs : Option (List Bool)) (he : e.size ≤ n)
    (hopen : T = none ∧ e.isAbstraction = true ∨ e.size < n) (hT : ∀ t ∈ T, t.size < n) :
    Avoids PpFault.isOutOfFuel (ppAbstractionCore ctx opts rec e depth T implicitArgs) := by
  unfold ppAbstractionCore
  split
  case h_1 | h_2 =>
    simp only [Expr.size] at he
    exact .bind (ppScopedChild_fueled ctx opts hrec _ _ (by omega)) fun _ =>
      .bind (ppScopedChild_fueled ctx opts hrec _ _ (by omega)) fun _ => .pure _
  · obtain ⟨hav, hret⟩ := collectNestedM_fueled he hopen hT
    refine .bind_returns hav hret fun nst ⟨hbs, hbody, hty⟩ => ?_
    split
    dsimp only
    split
    on_goal 1 => refine .bind (ppScopedChild_fueled ctx opts hrec _ _ (hty _ ‹_›)) fun _ => ?_
    all_goals
      refine .bind (.pure _) fun _ => ?_
      split
      · have hd0 := hbs _ (by rw [‹nst.binders = _›]; exact .head _)
        exact .ite (.bind (ppScopedChild_fueled ctx opts hrec _ _ hd0) fun _ =>
            .bind (ppScopedChild_fueled ctx opts hrec _ _ hbody) fun _ => .pure _)
          (ppBlocks_fueled ctx opts hrec _ _ _ _ _ _ hbody _ _ _ _ _ hbs fun _ h => nomatch h)
      · exact ppBlocks_fueled ctx opts hrec _ _ _ _ _ _ hbody _ _ _ _ _ hbs fun _ h => nomatch h

theorem ppLetBindings_fueled (depth : Nat) :
    ∀ (bs : List (Name × Option Expr × Expr)) (first : Bool) (r : Fmt) (w : Nat),
      (∀ bd ∈ bs, (∀ t ∈ bd.2.1, t.size < n) ∧ bd.2.2.size < n) →
      Avoids PpFault.isOutOfFuel (ppLetBindings ctx opts rec depth bs first r w)
  | [], _, _, _, _ => .pure _
  | (_, none, _) :: bs, _, _, _, h =>
    .bind (ppScopedChild_fueled ctx opts hrec _ _ (h _ (.head _)).2) fun _ =>
      ppLetBindings_fueled depth bs _ _ _ fun bd hbd => h bd (.tail _ hbd)
  | (_, some _, _) :: bs, _, _, _, h =>
    .bind (ppScopedChild_fueled ctx opts hrec _ _ (h _ (.head _)).2) fun _ =>
      .bind (ppScopedChild_fueled ctx opts hrec _ _ ((h _ (.head _)).1 _ rfl)) fun _ =>
        ppLetBindings_fueled depth bs _ _ _ fun bd hbd => h bd (.tail _ hbd)

theorem ppLet_fueled (x : Name) (t : Option Expr) (v b : Expr) (depth : Nat)
    (he : (Expr.let x t v b).size ≤ n) :
    Avoids PpFault.isOutOfFuel (ppLet ctx opts rec (.let x t v b) depth) :=
  .bind .get fun s =>
    have ⟨hbs, hbody⟩ := collectNestedLet_lt s.localNames x t v b
    .bind (.set _) fun _ =>
      .bind (ppLetBindings_fueled ctx opts hrec _ _ _ _ _ fun bd hbd =>
          ⟨fun t' ht' => lt_of_lt_of_le ((hbs bd hbd).1 t' ht') he,
            lt_of_lt_of_le (hbs bd hbd).2 he⟩) fun _ =>
        .bind (ppScopedChild_fueled ctx opts hrec _ _ (lt_of_lt_of_le hbody he)) fun _ => .pure _

theorem ppChoiceLoop_fueled (depth : Nat) :
    ∀ (cs : List Expr) (first : Bool) (r : Fmt) (w : Nat), (∀ c ∈ cs, c.size < n) →
      Avoids PpFault.isOutOfFuel (ppChoiceLoop ctx opts rec depth cs first r w)
  | [], _, _, _, _ => .pure _
  | _ :: cs, _, _, _, h => .bind (ppChild_fueled ctx opts hrec _ (h _ (.head _))) fun _ =>
    ppChoiceLoop_fueled depth cs _ _ _ fun c hc => h c (.tail _ hc)

theorem ppLocalEntries_fueled (depth : Nat) :
    ∀ (les : List (LocalEntry Expr)) (f : Option Fmt) (w : Nat), Expr.sizeCtx les < n →
      Avoids PpFault.isOutOfFuel (ppLocalEntries opts rec depth les f w)
  | [], _, _, _ => .pure _
  | .lift _ _ :: les, _, _, h => .bind (.pure _) fun _ => ppLocalEntries_fueled depth les _ _ h
  | .inst _ _ :: les, _, _, h => by
    simp only [Expr.sizeCtx] at h
    exact .bind (ppChildWithParen_fueled hrec _ (by omega)) fun _ =>
      ppLocalEntries_fueled depth les _ _ (by omega)

/-- The dispatch on the kind: every child is smaller than the term. -/
theorem ppKind_fueled (fuel : Nat) {e : Expr} (depth : Nat) (he : e.size ≤ n)
    (hfuel : e.size ≤ fuel) : Avoids PpFault.isOutOfFuel (ppKind ctx opts rec fuel e depth) := by
  have child : ∀ {x : Expr}, x.size < n → Avoids PpFault.isOutOfFuel (ppChild ctx opts rec x depth) :=
    ppChild_fueled ctx opts hrec depth
  cases e with
  | var | type => exact .pure _
  | constant n => exact ppConstant_avoids ctx opts _ _ n
  | value => exact ppValue_avoids ctx opts _ _
  | app f a as => exact ppApp_fueled ctx opts hrec fuel f a as depth he hfuel
  | abst => exact ppAbstractionCore_fueled ctx opts hrec depth none he (.inl ⟨rfl, rfl⟩) nofun
  | «let» x t v b => exact ppLet_fueled ctx opts hrec x t v b depth he
  | metavar _ l =>
    simp only [Expr.size] at he
    cases l with
    | nil => exact .pure _
    | cons => exact .bind (ppLocalEntries_fueled opts hrec _ _ _ _ (by omega)) fun _ => .pure _
  | heq =>
    simp only [Expr.size] at he
    exact .bind (child (by omega)) fun _ => .bind (child (by omega)) fun _ => .pure _
  | pair =>
    simp only [Expr.size] at he
    refine .bind (child (by omega)) fun _ => .bind (child (by omega)) fun _ => ?_
    dsimp only
    exact .ite (.pure _) (.bind (child (by omega)) fun _ => .pure _)
  | proj _ a =>
    have := size_projChain a 0
    simp only [Expr.size] at he
    exact .bind (child (by omega)) fun _ => .pure _

/-- **One call of `pp`**, on a term no larger than the bound and the fuel it hands to
`pp_exists`: with a recursive `pp` that does not run out of fuel below the bound, neither does
`pp`, when a choice's alternatives are smaller than the choice. -/
theorem ppStep_fueled (hchoice : ∀ e cs, ctx.choices e = some cs → ∀ c ∈ cs, c.size < e.size)
    (fuel : Nat) {e : Expr} (depth : Nat) (main : Bool) (he : e.size ≤ n) (hfuel : e.size ≤ fuel) :
    Avoids PpFault.isOutOfFuel (ppStep ctx opts rec fuel e depth main) :=
  .bind .get fun _ => .ite (.pure _) <| .bind (.set _) fun _ => by
    split
    · exact .pure _
    · refine .bind .get fun _ => ?_
      split
      · exact .pure _
      · split
        · rename_i cs hcs
          exact .bind (ppChoiceLoop_fueled ctx opts hrec _ _ _ _ _ fun c hc =>
            lt_of_lt_of_le (hchoice e cs hcs c hc) he) fun _ => .pure _
        · exact .bind (ppKind_fueled ctx opts hrec fuel depth he hfuel) fun _ =>
            .bind .get fun _ => .ite (.bind (.set _) fun _ => .pure _) (.pure _)

end Methods

/-! ## The printer and the formatter -/

section Entry

variable (ctx : PpContext) (opts : PpOptions)
  (hchoice : ∀ e cs, ctx.choices e = some cs → ∀ c ∈ cs, c.size < e.size)
include hchoice

/-- **`pp` does not run out of fuel on a term smaller than its fuel.** -/
theorem ppFuel_fueled : ∀ (fuel : Nat) (e : Expr) (depth : Nat) (main : Bool), e.size < fuel →
    Avoids PpFault.isOutOfFuel (ppFuel ctx opts fuel e depth main)
  | 0, _, _, _, h => absurd h (Nat.not_lt_zero _)
  | fuel + 1, _, _, _, h =>
    ppStep_fueled ctx opts (ppFuel_fueled fuel) hchoice fuel _ _ (by omega) (by omega)

theorem ppMain_fueled (fuel : Nat) {e : Expr} (he : e.size < fuel) :
    Avoids PpFault.isOutOfFuel (ppMain ctx opts fuel e) :=
  .bind (.modify _) fun _ =>
    .bind (ppScopedChild_fueled ctx opts (ppFuel_fueled ctx opts hchoice fuel) _ _ he) fun _ =>
      .pure _

theorem ppDefinitionFn_fueled (fuel : Nat) {v t : Expr} (implicitArgs : Option (List Bool))
    (hv : v.size < fuel) (ht : t.size < fuel) :
    Avoids PpFault.isOutOfFuel (ppDefinitionFn ctx opts fuel v t implicitArgs) :=
  .bind (.modify _) fun _ =>
    .bind (ppAbstractionCore_fueled ctx opts (ppFuel_fueled ctx opts hchoice fuel) 0 implicitArgs
      hv.le (.inr hv) fun _ h => by cases h; exact ht) fun _ => .pure _

theorem ppPiWithImplicitArgs_fueled (fuel : Nat) {e : Expr} (implicitArgs : List Bool)
    (he : e.size < fuel) :
    Avoids PpFault.isOutOfFuel (ppPiWithImplicitArgs ctx opts fuel e implicitArgs) :=
  .bind (.modify _) fun _ =>
    .bind (ppAbstractionCore_fueled ctx opts (ppFuel_fueled ctx opts hchoice fuel) 0 _ he.le
      (.inr he) nofun) fun _ => .pure _

theorem formatterPp_fueled (fuel : Nat) {e : Expr} (he : e.size < fuel) :
    ExceptAvoids PpFault.isOutOfFuel (formatterPp ctx opts fuel e) :=
  .run' (ppMain_fueled ctx opts hchoice fuel he)

theorem formatterPpDefinition_fueled (fuel : Nat) (kwd : String) (n : Name) {t v : Expr}
    (ht : t.size < fuel) (hv : v.size < fuel) :
    ExceptAvoids PpFault.isOutOfFuel (formatterPpDefinition ctx opts fuel kwd n t v) :=
  .bind (formatterPp_fueled ctx opts hchoice fuel ht) fun _ =>
    .ite (.bind (formatterPp_fueled ctx opts hchoice fuel hv) fun _ => .pure _) (.pure _)

theorem formatterPpCompactDefinition_fueled (fuel : Nat) (kwd : String) (n : Name) {t v : Expr}
    (ht : t.size < fuel) (hv : v.size < fuel) :
    ExceptAvoids PpFault.isOutOfFuel (formatterPpCompactDefinition ctx opts fuel kwd n t v) := by
  unfold formatterPpCompactDefinition
  split
  · refine .ite (formatterPpDefinition_fueled ctx opts hchoice fuel kwd n ht hv) ?_
    dsimp only
    split
    · exact .bind (.run' (ppDefinitionFn_fueled ctx opts hchoice fuel _ hv ht)) fun _ => .pure _
    · cases ctx.hasImplicitArguments n
      · exact .bind (formatterPp_fueled ctx opts hchoice fuel ht) fun _ =>
          .bind (.pure _) fun _ => .pure _
      · exact .bind (.run' (ppPiWithImplicitArgs_fueled ctx opts hchoice fuel _ ht)) fun _ =>
          .pure _
  · exact formatterPpDefinition_fueled ctx opts hchoice fuel kwd n ht hv

end Entry

/-- The one fault that is neither internal nor exhausted fuel. -/
theorem PpFault.eq_opNameEmpty {f : PpFault} (ha : f.isInternal = false)
    (hf : f.isOutOfFuel = false) : f = .opNameEmpty := by
  rcases PpFault.isInternal_eq_false_iff.mp ha with rfl | rfl
  · cases hf
  · rfl

/-- **Fuel above the size suffices.** In every environment whose choices have smaller
alternatives, with every option: `pp` never runs out of fuel on a term smaller than its fuel, from
any state; and the formatter's `pp` and `pp_definition`, on a type and a value smaller than the
fuel, fail, if at all, only on an operator without name parts; `pp_compact_definition` also at
`get_unused_name`'s assertion, when it prints without the value and with implicit arguments a type
that is not an abstraction. The bound the model puts on the recursion is never what stops a run
that has it. -/
theorem printer_terminates (ctx : PpContext) (opts : PpOptions)
    (hchoice : ∀ e cs, ctx.choices e = some cs → ∀ c ∈ cs, c.size < e.size) (fuel : Nat) :
    (∀ e depth main, e.size < fuel →
      Avoids PpFault.isOutOfFuel (ppFuel ctx opts fuel e depth main)) ∧
    (∀ (kwd : String) (n : Name) (t v : Expr) (f : PpFault), t.size < fuel → v.size < fuel →
      (formatterPp ctx opts fuel t = .error f ∨
        formatterPpDefinition ctx opts fuel kwd n t v = .error f) →
      f = .opNameEmpty) ∧
    ∀ (kwd : String) (n : Name) (t v : Expr) (f : PpFault), t.size < fuel → v.size < fuel →
      formatterPpCompactDefinition ctx opts fuel kwd n t v = .error f →
      f = .opNameEmpty ∨ (f = .notAbstraction ∧ opts.definitionValue = false ∧
        ctx.hasImplicitArguments n = true ∧ t.isAbstraction = false) := by
  refine ⟨ppFuel_fueled ctx opts hchoice fuel, fun kwd n t v f ht hv hf => ?_,
    fun kwd n t v f ht hv hf => ?_⟩
  · rcases hf with hf | hf
    · exact PpFault.eq_opNameEmpty (formatterPp_noInternalFault ctx opts fuel t f hf)
        (formatterPp_fueled ctx opts hchoice fuel ht f hf)
    · exact PpFault.eq_opNameEmpty
        (formatterPpDefinition_noInternalFault ctx opts fuel kwd n t v f hf)
        (formatterPpDefinition_fueled ctx opts hchoice fuel kwd n ht hv f hf)
  · exact (formatterPpCompactDefinition_fault ctx opts fuel kwd n t v hf).imp_left fun h =>
      PpFault.eq_opNameEmpty h (formatterPpCompactDefinition_fueled ctx opts hchoice fuel kwd n ht hv f hf)

/-- `g (fun c : A, c) c` has six nodes, so seven fuel suffice to print it. -/
theorem printer_terminates_siblingAfterBinder :
    (siblingAfterBinder "c").size < 7 ∧
      Avoids PpFault.isOutOfFuel (ppFuel plainContext plainOptions 7 (siblingAfterBinder "c") 0 true) :=
  ⟨by decide, (printer_terminates plainContext plainOptions (fun _ _ h => nomatch h) 7).1 _ 0 true
    (by decide)⟩

/-! ## The aliases' prefix

`find_unused_prefix` tries `c.1`, `c.2`, … until no name of the term has the prefix. The prefixes of
one name have different numbers of components, so a name has at most one prefix `c.i`; among
`namesOf e` plus one candidates one is unused, and the model's bound on the loop is never reached. -/

/-- The number of components of a name. -/
def Name.depth : Name → Nat
  | .anonymous => 0
  | .str p _ | .num p _ => p.depth + 1

end LeanKernel
