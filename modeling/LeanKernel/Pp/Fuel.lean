import LeanKernel.Pp.Printer
import Mathlib.Tactic.LiftLets

/-!
# Fuel monotonicity of the printer

`ppFuel` bounds the depth of `pp`'s recursion, which the source does not bound. The bound only
ever stops a run, with `outOfFuel`: a run that returns with some fuel returns the same document and
leaves the same state with any larger fuel. What a run that returns prints does not depend on the
fuel it was given.

Proof shape as for the evaluator's fuel monotonicity: each method's lemma assumes that the recursive
`pp` it is given is refined by a second one (`Refines`), and `ppStep_refines` is fed the induction
hypothesis in `ppFuel_succ_refines`. A continuation that does not call `pp` is refined by itself.

* `printer_fuel_mono` — **more fuel changes no result**, for `pp` and the formatter's entry
  points.
-/

namespace LeanKernel

/-! ## Refinement of computations -/

/-- Every run of `x` that returns is a run of `y`: the same result and the same final state. -/
def Refines {α : Type} (x y : PpM α) : Prop := ∀ s r, x s = .ok r → y s = .ok r

namespace Refines

variable {α β : Type} {x x' y y' : PpM α} {f f' : α → PpM β}

theorem refl (x : PpM α) : Refines x x := fun _ _ h => h

theorem trans {z : PpM α} (h₁ : Refines x y) (h₂ : Refines y z) : Refines x z :=
  fun s r h => h₂ s r (h₁ s r h)

/-- A fault is refined by anything. -/
theorem throw {e : PpFault} (y : PpM α) : Refines (MonadExcept.throw e) y := fun _ _ h => nomatch h

theorem bind (hx : Refines x x') (hf : ∀ a, Refines (f a) (f' a)) :
    Refines (x >>= f) (x' >>= f') := by
  intro s r h
  rw [PpM.run_bind] at h ⊢
  cases hxs : x s with
  | error e =>
    rw [hxs] at h
    cases h
  | ok p =>
    obtain ⟨a, s₁⟩ := p
    rw [hxs] at h
    rw [hx s _ hxs]
    exact hf a s₁ r h

theorem ite {c : Prop} [Decidable c] (hx : Refines x x') (hy : Refines y y') :
    Refines (if c then x else y) (if c then x' else y') := by
  split
  · exact hx
  · exact hy

end Refines

theorem withScope_refines {α : Type} {e : Expr} {body body' : Nat → PpM α}
    (h : ∀ n, Refines (body n) (body' n)) : Refines (withScope e body) (withScope e body') :=
  .bind (.refl _) fun _ => .bind (.refl _) fun _ =>
    .bind (h _) fun _ => .bind (.refl _) fun _ => .refl _

/-! ## The operator branch -/

section OperatorBranch

variable {app : Application} {op : OperatorInfo} {mixfixChild mixfixChild' : Expr → PpM PpResult}
  {infixChild infixChild' : Expr → Fixity → PpM PpResult}
  (hm : ∀ a, Refines (mixfixChild a) (mixfixChild' a))
include hm

theorem mixfixrLoop_refines (num : Nat) :
    ∀ (k i : Nat) (it : List Name) (r : Fmt) (w : Nat),
      Refines (mixfixrLoop app op mixfixChild num k i it r w)
        (mixfixrLoop app op mixfixChild' num k i it r w)
  | 0, _, _, _, _ => .refl _
  | k + 1, _, _, _, _ => .bind (.refl _) fun _ => .bind (hm _) fun _ =>
    .ite (.ite (mixfixrLoop_refines num k _ _ _ _)
        (.bind (.refl _) fun _ => mixfixrLoop_refines num k _ _ _ _))
      (.bind (.refl _) fun _ => mixfixrLoop_refines num k _ _ _ _)

theorem mixfixlLoop_refines :
    ∀ (k i : Nat) (it : List Name) (r : Fmt) (w : Nat),
      Refines (mixfixlLoop app mixfixChild k i it r w) (mixfixlLoop app mixfixChild' k i it r w)
  | 0, _, _, _, _ => .refl _
  | k + 1, _, _, _, _ => .bind (.refl _) fun _ => .bind (hm _) fun _ =>
    .bind (.refl _) fun _ => mixfixlLoop_refines k _ _ _ _

theorem ppOperatorApp_refines (hi : ∀ a fx, Refines (infixChild a fx) (infixChild' a fx)) :
    Refines (ppOperatorApp app op mixfixChild infixChild)
      (ppOperatorApp app op mixfixChild' infixChild') := by
  unfold ppOperatorApp
  split
  · exact .bind (.refl _) fun _ => .bind (hm _) fun _ => .bind (.refl _) fun _ =>
      .bind (hm _) fun _ => .refl _
  · exact .bind (.refl _) fun _ => .bind (hm _) fun _ => .bind (.refl _) fun _ =>
      .bind (hi _ _) fun _ => .refl _
  · exact .bind (.refl _) fun _ => .bind (hi _ _) fun _ => .bind (.refl _) fun _ =>
      .bind (hm _) fun _ => .refl _
  · exact .bind (.refl _) fun _ => .bind (hi _ _) fun _ => .refl _
  · exact .bind (.refl _) fun _ => .bind (hm _) fun _ => .refl _
  case h_6 | h_7 => exact mixfixrLoop_refines hm _ _ _ _ _ _
  all_goals exact .bind (mixfixlLoop_refines hm _ _ _ _ _) fun _ => .refl _

end OperatorBranch

/-! ## The methods -/

section Methods

variable (ctx : PpContext) (opts : PpOptions)

theorem collectNestedQuantifiers_succ_refines (fuel : Nat) :
    ∀ (e : Expr) (r : List (Name × Expr)),
      Refines (collectNestedQuantifiers ctx fuel e r) (collectNestedQuantifiers ctx (fuel + 1) e r) := by
  induction fuel with
  | zero => exact fun _ _ => .throw _
  | succ fuel ih =>
    intro e r
    unfold collectNestedQuantifiers
    split
    · omega
    · rename_i heq
      obtain rfl := Nat.succ.inj heq
      dsimp only
      exact .bind (.refl _) fun _ => .ite (ih _ _) (.refl _)
    · rename_i heq
      obtain rfl := Nat.succ.inj heq
      exact ih _ _
    · exact .refl _

variable {rec rec' : Expr → Nat → Bool → PpM PpResult}
  (hrec : ∀ e d m, Refines (rec e d m) (rec' e d m))
include hrec

theorem ppChildWithParen_refines (e : Expr) (depth : Nat) :
    Refines (ppChildWithParen rec e depth) (ppChildWithParen rec' e depth) :=
  .bind (hrec _ _ _) fun _ => .refl _

theorem ppChild_refines (e : Expr) (depth : Nat) :
    Refines (ppChild ctx opts rec e depth) (ppChild ctx opts rec' e depth) :=
  .ite (hrec _ _ _) (ppChildWithParen_refines hrec e depth)

theorem ppScopedChild_refines (e : Expr) (depth prec : Nat) :
    Refines (ppScopedChild ctx opts rec e depth prec) (ppScopedChild ctx opts rec' e depth prec) :=
  .ite (hrec _ _ _) (withScope_refines fun _ => .bind (hrec _ _ _) fun _ => .refl _)

theorem ppMixfixChild_refines (op : OperatorInfo) (e : Expr) (depth : Nat) :
    Refines (ppMixfixChild ctx opts rec op e depth) (ppMixfixChild ctx opts rec' op e depth) :=
  .ite (hrec _ _ _) <| .bind (.refl _) fun _ =>
    .ite (hrec _ _ _) (ppChildWithParen_refines hrec e depth)

theorem ppInfixChild_refines (op : OperatorInfo) (e : Expr) (depth : Nat) (fx : Fixity) :
    Refines (ppInfixChild ctx opts rec op e depth fx) (ppInfixChild ctx opts rec' op e depth fx) :=
  .ite (hrec _ _ _) <| .bind (.refl _) fun _ =>
    .ite (hrec _ _ _) <| .ite (hrec _ _ _) (ppChildWithParen_refines hrec e depth)

theorem flushBlock_refines (depth : Nat) :
    ∀ (cur : Option BinderBlock) (bs : Option Fmt) (w : Nat),
      Refines (flushBlock ctx opts rec depth cur bs w) (flushBlock ctx opts rec' depth cur bs w)
  | none, _, _ => .refl _
  | some _, _, _ => .bind (ppScopedChild_refines ctx opts hrec _ _ _) fun _ => .refl _

theorem ppArrowDomains_refines (depth : Nat) :
    ∀ (ds : List (Name × Expr)) (blk : Option Fmt) (w : Nat),
      Refines (ppArrowDomains ctx opts rec depth ds blk w)
        (ppArrowDomains ctx opts rec' depth ds blk w)
  | [], _, _ => .refl _
  | (_, _) :: rest, _, _ => .bind (ppScopedChild_refines ctx opts hrec _ _ _) fun _ =>
    ppArrowDomains_refines depth rest _ _

theorem ppBlocks_refines (implicitArgs : Option (List Bool)) (arrowStart : Option Nat)
    (head : Fmt) (headIndent : Nat) (bodySep : Fmt) (b : Expr) (depth : Nat) :
    ∀ (binders : List (Name × Expr)) (cur : Option BinderBlock) (pos : Nat) (bs : Option Fmt)
      (w : Nat),
      Refines
        (ppBlocks ctx opts rec implicitArgs arrowStart head headIndent bodySep b depth binders cur
          pos bs w)
        (ppBlocks ctx opts rec' implicitArgs arrowStart head headIndent bodySep b depth binders cur
          pos bs w)
  | [], _, _, _, _ => .bind (flushBlock_refines ctx opts hrec _ _ _ _) fun _ =>
    .bind (ppScopedChild_refines ctx opts hrec _ _ _) fun _ => .refl _
  | (_, _) :: rest, _, _, _, _ =>
    .ite (ppBlocks_refines implicitArgs arrowStart head headIndent bodySep b depth rest _ _ _ _)
      (.bind (flushBlock_refines ctx opts hrec _ _ _ _) fun _ =>
        .ite (.bind (ppArrowDomains_refines ctx opts hrec _ _ _ _) fun _ =>
            .bind (ppScopedChild_refines ctx opts hrec _ _ _) fun _ => .refl _)
          (ppBlocks_refines implicitArgs arrowStart head headIndent bodySep b depth rest _ _ _ _))

theorem ppExists_succ_refines (fuel : Nat) (e : Expr) (depth : Nat) :
    Refines (ppExists ctx opts rec fuel e depth) (ppExists ctx opts rec' (fuel + 1) e depth) :=
  .bind (collectNestedQuantifiers_succ_refines ctx _ _ _) fun
    | ([], _) => .refl _
    | (_ :: _, _) => .ite
      (.bind (ppScopedChild_refines ctx opts hrec _ _ _) fun _ =>
        .bind (ppScopedChild_refines ctx opts hrec _ _ _) fun _ => .refl _)
      (ppBlocks_refines ctx opts hrec _ _ _ _ _ _ _ _ _ _ _ _)

theorem ppArgs_refines (app : Application) (simple : Bool) (depth : Nat) :
    ∀ (k i : Nat) (r : Fmt) (w : Nat),
      Refines (ppArgs ctx opts rec app simple depth k i r w)
        (ppArgs ctx opts rec' app simple depth k i r w)
  | 0, _, _, _ => .refl _
  | k + 1, _, _, _ => .bind (.refl _) fun _ => .bind (ppChild_refines ctx opts hrec _ _) fun _ =>
    ppArgs_refines app simple depth k _ _ _

theorem ppStandardApp_refines (app : Application) (depth : Nat) :
    Refines (ppStandardApp ctx opts rec app depth) (ppStandardApp ctx opts rec' app depth) := by
  unfold ppStandardApp
  lift_lets
  intro f constName simple indent jp jp'
  have hjp : ∀ p, Refines (jp p) (jp' p) := fun _ =>
    .bind (ppArgs_refines ctx opts hrec app _ depth _ _ _ _) fun _ => .refl _
  cases constName with
  | some => exact .bind (.refl _) fun _ => hjp _
  | none =>
    refine .ite (.bind (ppChild_refines ctx opts hrec _ _) fun _ => hjp _) ?_
    cases f with
    | value => exact .bind (.refl _) fun _ => hjp _
    | _ => exact .bind (ppChild_refines ctx opts hrec _ _) fun _ => hjp _

theorem ppApp_succ_refines (fuel : Nat) (f a : Expr) (as : List Expr) (depth : Nat) :
    Refines (ppApp ctx opts rec fuel f a as depth) (ppApp ctx opts rec' (fuel + 1) f a as depth) := by
  refine .ite (hrec _ _ _) (.bind (.refl _) fun s => ?_)
  dsimp only
  split
  · exact ppOperatorApp_refines (fun _ => ppMixfixChild_refines ctx opts hrec _ _ _)
      (fun _ _ => ppInfixChild_refines ctx opts hrec _ _ _ _)
  · exact .ite (ppExists_succ_refines ctx opts hrec _ _ _)
      (ppStandardApp_refines ctx opts hrec _ _)

theorem ppAbstractionCore_refines (e : Expr) (depth : Nat) (T : Option Expr)
    (implicitArgs : Option (List Bool)) :
    Refines (ppAbstractionCore ctx opts rec e depth T implicitArgs)
      (ppAbstractionCore ctx opts rec' e depth T implicitArgs) := by
  unfold ppAbstractionCore
  split
  case h_1 | h_2 =>
    exact .bind (ppScopedChild_refines ctx opts hrec _ _ _) fun _ =>
      .bind (ppScopedChild_refines ctx opts hrec _ _ _) fun _ => .refl _
  · refine .bind (.refl _) fun nst => ?_
    split
    dsimp only
    split
    on_goal 1 => refine .bind (ppScopedChild_refines ctx opts hrec _ _ _) fun _ => ?_
    all_goals
      refine .bind (.refl _) fun _ => ?_
      split
      · exact .ite (.bind (ppScopedChild_refines ctx opts hrec _ _ _) fun _ =>
          .bind (ppScopedChild_refines ctx opts hrec _ _ _) fun _ => .refl _)
          (ppBlocks_refines ctx opts hrec _ _ _ _ _ _ _ _ _ _ _ _)
      · exact ppBlocks_refines ctx opts hrec _ _ _ _ _ _ _ _ _ _ _ _

theorem ppLetBindings_refines (depth : Nat) :
    ∀ (bs : List (Name × Option Expr × Expr)) (first : Bool) (r : Fmt) (w : Nat),
      Refines (ppLetBindings ctx opts rec depth bs first r w)
        (ppLetBindings ctx opts rec' depth bs first r w)
  | [], _, _, _ => .refl _
  | (_, none, _) :: bs, _, _, _ => .bind (ppScopedChild_refines ctx opts hrec _ _ _) fun _ =>
    ppLetBindings_refines depth bs _ _ _
  | (_, some _, _) :: bs, _, _, _ => .bind (ppScopedChild_refines ctx opts hrec _ _ _) fun _ =>
    .bind (ppScopedChild_refines ctx opts hrec _ _ _) fun _ => ppLetBindings_refines depth bs _ _ _

theorem ppChoiceLoop_refines (depth : Nat) :
    ∀ (cs : List Expr) (first : Bool) (r : Fmt) (w : Nat),
      Refines (ppChoiceLoop ctx opts rec depth cs first r w)
        (ppChoiceLoop ctx opts rec' depth cs first r w)
  | [], _, _, _ => .refl _
  | _ :: cs, _, _, _ => .bind (ppChild_refines ctx opts hrec _ _) fun _ =>
    ppChoiceLoop_refines depth cs _ _ _

theorem ppLocalEntries_refines (depth : Nat) :
    ∀ (les : List (LocalEntry Expr)) (f : Option Fmt) (w : Nat),
      Refines (ppLocalEntries opts rec depth les f w) (ppLocalEntries opts rec' depth les f w)
  | [], _, _ => .refl _
  | .lift _ _ :: les, _, _ => .bind (.refl _) fun _ => ppLocalEntries_refines depth les _ _
  | .inst _ _ :: les, _, _ => .bind (ppChildWithParen_refines hrec _ _) fun _ =>
    ppLocalEntries_refines depth les _ _

theorem ppKind_succ_refines (fuel : Nat) (e : Expr) (depth : Nat) :
    Refines (ppKind ctx opts rec fuel e depth) (ppKind ctx opts rec' (fuel + 1) e depth) := by
  have child := ppChild_refines ctx opts hrec
  cases e with
  | var | type | constant | value => exact .refl _
  | app => exact ppApp_succ_refines ctx opts hrec _ _ _ _ _
  | abst => exact ppAbstractionCore_refines ctx opts hrec _ _ _ _
  | «let» =>
    exact .bind (.refl _) fun _ => .bind (.refl _) fun _ =>
      .bind (ppLetBindings_refines ctx opts hrec _ _ _ _ _) fun _ =>
        .bind (ppScopedChild_refines ctx opts hrec _ _ _) fun _ => .refl _
  | metavar _ l =>
    cases l with
    | nil => exact .refl _
    | cons => exact .bind (ppLocalEntries_refines opts hrec _ _ _ _) fun _ => .refl _
  | heq => exact .bind (child _ _) fun _ => .bind (child _ _) fun _ => .refl _
  | pair =>
    refine .bind (child _ _) fun _ => .bind (child _ _) fun _ => ?_
    dsimp only
    exact .ite (.refl _) (.bind (child _ _) fun _ => .refl _)
  | proj => exact .bind (child _ _) fun _ => .refl _

/-- **One call of `pp`.** With a recursive `pp` refined by a second one, `pp` at fuel `fuel` is
refined by `pp` over the second at `fuel + 1`. -/
theorem ppStep_succ_refines (fuel : Nat) (e : Expr) (depth : Nat) (main : Bool) :
    Refines (ppStep ctx opts rec fuel e depth main) (ppStep ctx opts rec' (fuel + 1) e depth main) :=
  .bind (.refl _) fun _ => .ite (.refl _) <| .bind (.refl _) fun _ => by
    split
    · exact .refl _
    · refine .bind (.refl _) fun _ => ?_
      split
      · exact .refl _
      · split
        · exact .bind (ppChoiceLoop_refines ctx opts hrec _ _ _ _ _) fun _ => .refl _
        · exact .bind (ppKind_succ_refines ctx opts hrec _ _ _) fun _ => .refl _

end Methods

/-! ## The printer -/

section Entry

variable (ctx : PpContext) (opts : PpOptions)

/-- One more unit of fuel changes no run that returns. -/
theorem ppFuel_succ_refines :
    ∀ (fuel : Nat) (e : Expr) (depth : Nat) (main : Bool),
      Refines (ppFuel ctx opts fuel e depth main) (ppFuel ctx opts (fuel + 1) e depth main)
  | 0, _, _, _ => .throw _
  | fuel + 1, _, _, _ => ppStep_succ_refines ctx opts (ppFuel_succ_refines fuel) _ _ _ _

theorem ppFuel_refines {fuel fuel' : Nat} (h : fuel ≤ fuel') (e : Expr) (depth : Nat)
    (main : Bool) : Refines (ppFuel ctx opts fuel e depth main) (ppFuel ctx opts fuel' e depth main) := by
  induction h with
  | refl => exact .refl _
  | step _ ih => exact ih.trans (ppFuel_succ_refines ctx opts _ e depth main)

theorem ppMain_refines {fuel fuel' : Nat} (h : fuel ≤ fuel') (e : Expr) :
    Refines (ppMain ctx opts fuel e) (ppMain ctx opts fuel' e) :=
  .bind (.refl _) fun _ =>
    .bind (ppScopedChild_refines ctx opts (ppFuel_refines ctx opts h) _ _ _) fun _ => .refl _

theorem ppDefinitionFn_refines {fuel fuel' : Nat} (h : fuel ≤ fuel') (v t : Expr)
    (implicitArgs : Option (List Bool)) :
    Refines (ppDefinitionFn ctx opts fuel v t implicitArgs)
      (ppDefinitionFn ctx opts fuel' v t implicitArgs) :=
  .bind (.refl _) fun _ =>
    .bind (ppAbstractionCore_refines ctx opts (ppFuel_refines ctx opts h) _ _ _ _) fun _ => .refl _

theorem ppPiWithImplicitArgs_refines {fuel fuel' : Nat} (h : fuel ≤ fuel') (e : Expr)
    (implicitArgs : List Bool) :
    Refines (ppPiWithImplicitArgs ctx opts fuel e implicitArgs)
      (ppPiWithImplicitArgs ctx opts fuel' e implicitArgs) :=
  .bind (.refl _) fun _ =>
    .bind (ppAbstractionCore_refines ctx opts (ppFuel_refines ctx opts h) _ _ _ _) fun _ => .refl _

end Entry

/-! ## The formatter -/

/-- Every result that `x` returns, `y` returns. -/
def ExceptRefines {α : Type} (x y : Except PpFault α) : Prop := ∀ a, x = .ok a → y = .ok a

namespace ExceptRefines

variable {α β : Type}

theorem refl (x : Except PpFault α) : ExceptRefines x x := fun _ h => h

theorem bind {x x' : Except PpFault α} {g g' : α → Except PpFault β} (hx : ExceptRefines x x')
    (hg : ∀ a, ExceptRefines (g a) (g' a)) : ExceptRefines (x >>= g) (x' >>= g') := by
  intro b h
  cases hxs : x with
  | error e =>
    rw [hxs] at h
    cases h
  | ok a =>
    rw [hxs] at h
    rw [hx a hxs]
    exact hg a b h

theorem ite {c : Prop} [Decidable c] {x x' y y' : Except PpFault α} (hx : ExceptRefines x x')
    (hy : ExceptRefines y y') : ExceptRefines (if c then x else y) (if c then x' else y') := by
  split
  · exact hx
  · exact hy

/-- Two fresh `pp_fn` objects running computations one of which refines the other. -/
theorem run' {x y : PpM α} (h : Refines x y) :
    ExceptRefines (x.run' PpState.init) (y.run' PpState.init) := by
  intro a hx
  have hrun : ∀ z : PpM α, z.run' PpState.init = Prod.fst <$> z PpState.init := fun _ => rfl
  rw [hrun] at hx ⊢
  cases hz : x PpState.init with
  | error e =>
    rw [hz] at hx
    cases hx
  | ok p =>
    rw [hz] at hx
    rw [h _ _ hz]
    exact hx

end ExceptRefines

section Formatter

variable (ctx : PpContext) (opts : PpOptions) {fuel fuel' : Nat} (h : fuel ≤ fuel')
include h

theorem formatterPp_refines (e : Expr) :
    ExceptRefines (formatterPp ctx opts fuel e) (formatterPp ctx opts fuel' e) :=
  .run' (ppMain_refines ctx opts h e)

theorem formatterPpDefinition_refines (kwd : String) (n : Name) (t v : Expr) :
    ExceptRefines (formatterPpDefinition ctx opts fuel kwd n t v)
      (formatterPpDefinition ctx opts fuel' kwd n t v) :=
  .bind (formatterPp_refines ctx opts h t) fun _ =>
    .ite (.bind (formatterPp_refines ctx opts h v) fun _ => .refl _) (.refl _)

theorem formatterPpCompactDefinition_refines (kwd : String) (n : Name) (t v : Expr) :
    ExceptRefines (formatterPpCompactDefinition ctx opts fuel kwd n t v)
      (formatterPpCompactDefinition ctx opts fuel' kwd n t v) := by
  unfold formatterPpCompactDefinition
  split
  · refine .ite (formatterPpDefinition_refines ctx opts h kwd n t v) ?_
    dsimp only
    split
    · exact .bind (.run' (ppDefinitionFn_refines ctx opts h v t _)) fun _ => .refl _
    · cases ctx.hasImplicitArguments n
      · exact .bind (formatterPp_refines ctx opts h t) fun _ => .bind (.refl _) fun _ => .refl _
      · exact .bind (.run' (ppPiWithImplicitArgs_refines ctx opts h t _)) fun _ => .refl _
  · exact formatterPpDefinition_refines ctx opts h kwd n t v

end Formatter

/-- **More fuel changes no result.** In every environment and with every option: a run of `pp`
that returns, from any state, returns the same document and leaves the same state with every larger
fuel, and so do the formatter's `pp`, `pp_definition` and `pp_compact_definition`. The fuel only
bounds the recursion; it takes no part in what is printed. -/
theorem printer_fuel_mono (ctx : PpContext) (opts : PpOptions) {fuel fuel' : Nat}
    (h : fuel ≤ fuel') :
    (∀ e depth main,
      Refines (ppFuel ctx opts fuel e depth main) (ppFuel ctx opts fuel' e depth main)) ∧
    ∀ (kwd : String) (n : Name) (t v : Expr) (d : Fmt),
      (formatterPp ctx opts fuel t = .ok d → formatterPp ctx opts fuel' t = .ok d) ∧
      (formatterPpDefinition ctx opts fuel kwd n t v = .ok d →
        formatterPpDefinition ctx opts fuel' kwd n t v = .ok d) ∧
      (formatterPpCompactDefinition ctx opts fuel kwd n t v = .ok d →
        formatterPpCompactDefinition ctx opts fuel' kwd n t v = .ok d) :=
  ⟨ppFuel_refines ctx opts h, fun kwd n t v d =>
    ⟨formatterPp_refines ctx opts h t d, formatterPpDefinition_refines ctx opts h kwd n t v d,
      formatterPpCompactDefinition_refines ctx opts h kwd n t v d⟩⟩

/-- A variable printed with one unit of fuel prints the same with twenty. -/
example : formatterPp plainContext plainOptions 20 (.var 0) = .ok (.compose (.text "#") (Fmt.num 0)) :=
  ((printer_fuel_mono plainContext plainOptions (show 1 ≤ 20 by decide)).2 "Definition" "d" (.var 0)
    (.var 0) _).1 rfl

end LeanKernel
