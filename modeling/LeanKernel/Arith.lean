import LeanKernel.Expr

/-!
# The integer builtins

The `normalize` hooks of the integer values of `library/arith` (`int_type_value`,
`int_value_value`, `int_bin_op<Name, Hash, F>`, `int_le_value`). The normaliser calls a value's
hook when the value heads an application, with the whole argument array: `args[0]` is the value
itself, so a binary operator applied to two numerals arrives with `num_args = 3`.

- `Normalized` is a hook's outcome: declined (`return false`), reduced to `r` (`return true`), or
  a fault, where the evaluation reaches an `mpz` operation that has no result.
- The four operators are the one definition `intBinOpNormalize` with the evaluator `F` as a
  parameter; each keeps its own evaluator (`intAddEval`, `intSubEval`, `intMulEval`,
  `intDivEval`).
- The hook checks the argument count and that both arguments are numerals, never the divisor:
  `div a 0` reaches the division by zero (`intDivValue_normalize_zero`), and it is the only
  application of the integer values that faults (`Value.normalize_eq_fault_iff`).
-/

namespace LeanKernel

/-- The outcome of a value's `normalize` hook. -/
inductive Normalized where
  /-- `normalize` returns `false` -/
  | declined
  /-- `normalize` returns `true` with `r` -/
  | reduced (r : Expr)
  /-- the evaluation reaches an arithmetic operation that has no result -/
  | fault

/-- `is_int_value(e)`. -/
def isIntValue : Expr → Bool
  | .value (.intValue _) => true
  | _ => false

/-- `int_value_numeral(e)`, called on numerals only (`lean_assert(is_int_value(e))`). -/
def intValueNumeral : Expr → Int
  | .value (.intValue v) => v
  | _ => 0

/-- `mk_int_value(v)`. -/
def mkIntValue (v : Int) : Expr := .value (.intValue v)

/-! ## The evaluators -/

/-- `int_add_eval`. -/
def intAddEval (v₁ v₂ : Int) : Option Int := some (v₁ + v₂)

/-- `int_sub_eval`. -/
def intSubEval (v₁ v₂ : Int) : Option Int := some (v₁ - v₂)

/-- `int_mul_eval`. -/
def intMulEval (v₁ v₂ : Int) : Option Int := some (v₁ * v₂)

/-- `int_div_eval`: `v1 / v2` on `mpz`, the truncated quotient of `mpz_tdiv_q` (`mpz.h` is not in
src). A zero divisor has no quotient: `none` marks that the division is reached with it. -/
def intDivEval (v₁ v₂ : Int) : Option Int := if v₂ = 0 then none else some (v₁.tdiv v₂)

/-- The evaluator `F` of each `int_bin_op` instance. -/
def IntBinOp.eval : IntBinOp → Int → Int → Option Int
  | .add => intAddEval
  | .sub => intSubEval
  | .mul => intMulEval
  | .div => intDivEval

/-! ## The hooks -/

/-- `int_bin_op<Name, Hash, F>::normalize(num_args, args, r)`. -/
def intBinOpNormalize (F : Int → Int → Option Int) (args : List Expr) : Normalized :=
  if args.length = 3 ∧ isIntValue (args.getD 1 default) ∧ isIntValue (args.getD 2 default) then
    match F (intValueNumeral (args.getD 1 default)) (intValueNumeral (args.getD 2 default)) with
    | some v => .reduced (mkIntValue v)
    | none => .fault
  else .declined

/-- `int_le_value::normalize(num_args, args, r)`. -/
def intLeNormalize (args : List Expr) : Normalized :=
  if args.length = 3 ∧ isIntValue (args.getD 1 default) ∧ isIntValue (args.getD 2 default) then
    .reduced (.value (.bool (decide
      (intValueNumeral (args.getD 1 default) ≤ intValueNumeral (args.getD 2 default)))))
  else .declined

/-- `value::normalize`, dispatched on the value's class. `int_type_value` and `int_value_value`
decline; the Boolean values' class is in the missing `builtin.cpp` and is taken to decline. -/
def Value.normalize : Value → List Expr → Normalized
  | .intBinOp op, args => intBinOpNormalize op.eval args
  | .intLe, args => intLeNormalize args
  | .intType, _ | .intValue _, _ | .bool _, _ => .declined

/-! ## Faults -/

theorem isIntValue_iff {e : Expr} : isIntValue e = true ↔ ∃ v, e = mkIntValue v := by
  constructor
  · intro h
    match e, h with
    | .value (.intValue v), _ => exact ⟨v, rfl⟩
  · rintro ⟨v, rfl⟩
    rfl

/-- The hook of `int_bin_op<F>` on an application to two numerals. -/
theorem intBinOpNormalize_numerals (F : Int → Int → Option Int) (f : Expr) (a b : Int) :
    intBinOpNormalize F [f, mkIntValue a, mkIntValue b] =
      match F a b with
      | some v => .reduced (mkIntValue v)
      | none => .fault := rfl

/-- **The hook of `int_bin_op<F>` faults exactly where `F` does**, on an application to two
numerals. -/
theorem intBinOpNormalize_eq_fault_iff {F : Int → Int → Option Int} {args : List Expr} :
    intBinOpNormalize F args = .fault ↔
      ∃ f a b, args = [f, mkIntValue a, mkIntValue b] ∧ F a b = none := by
  constructor
  · intro h
    unfold intBinOpNormalize at h
    split at h
    · rename_i hargs
      obtain ⟨hl, ha, hb⟩ := hargs
      match args, hl with
      | [f, x, y], _ =>
        obtain ⟨a, rfl⟩ := isIntValue_iff.mp ha
        obtain ⟨b, rfl⟩ := isIntValue_iff.mp hb
        refine ⟨f, a, b, rfl, ?_⟩
        cases hF : F a b with
        | none => rfl
        | some v => simp [intValueNumeral, mkIntValue, hF] at h
    · exact absurd h (by simp)
  · rintro ⟨f, a, b, rfl, hF⟩
    rw [intBinOpNormalize_numerals, hF]

theorem intDivEval_eq_none_iff {a b : Int} : intDivEval a b = none ↔ b = 0 := by
  unfold intDivEval
  split <;> simp_all

/-- **Division by zero is reached.** For every numeral `a`, the hook of the `div` builtin on
`div a 0` calls `int_div_eval` with divisor `0`. -/
theorem intDivValue_normalize_zero (a : Int) :
    Value.normalize (.intBinOp .div) [.value (.intBinOp .div), mkIntValue a, mkIntValue 0] =
      .fault :=
  rfl

/-- **Only `div _ 0` faults.** Among the hooks of the integer values, the only application that
reaches an operation without a result is the `div` builtin applied to a numeral and `0`. -/
theorem Value.normalize_eq_fault_iff {v : Value} {args : List Expr} :
    v.normalize args = .fault ↔
      v = .intBinOp .div ∧ ∃ f a, args = [f, mkIntValue a, mkIntValue 0] := by
  cases v with
  | intBinOp op =>
    simp only [Value.normalize, intBinOpNormalize_eq_fault_iff, Value.intBinOp.injEq]
    cases op <;> simp [IntBinOp.eval, intAddEval, intSubEval, intMulEval, intDivEval_eq_none_iff]
  | intLe =>
    simp only [Value.normalize, intLeNormalize]
    split <;> simp
  | intType | intValue | bool => simp [Value.normalize]

end LeanKernel
