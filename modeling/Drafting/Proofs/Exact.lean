import Drafting.Scalar
import Mathlib.Analysis.SpecialFunctions.Complex.Arg
import Mathlib.Analysis.SpecialFunctions.Pow.Real
import Mathlib.Analysis.SpecialFunctions.Trigonometric.Inverse

/-!
# Drawing in exact real arithmetic

The instance of `Scalar` that drawings are reasoned about with. Arithmetic, order and
the elementary functions are those of the real numbers, where every number is finite.

Two entries of the class have no exact counterpart and are parameters here: the table
of quadrature nodes, and the numerals that stand for numbers in texts. What is proved
over this instance holds for each choice of them.
-/

namespace Drafting

/-- What exact arithmetic leaves open. -/
class ExactTables where
  legendre : List (ℝ × ℝ)
  toDecimal : ℝ → Decimal

namespace Exact

@[reducible] noncomputable def ofNat : (n : Nat) → OfNat ℝ n
  | 0 => inferInstance
  | 1 => inferInstance
  | _ + 2 => inferInstance

noncomputable def ofDecimal (d : Decimal) : ℝ :=
  (if d.negative then -1 else 1) * d.digits * (10 : ℝ) ^ d.exponent

noncomputable def cbrt (a : ℝ) : ℝ :=
  if a < 0 then -(-a) ^ (1 / 3 : ℝ) else a ^ (1 / 3 : ℝ)

/-- The nearest integer, halves going away from zero. -/
noncomputable def round (a : ℝ) : ℝ :=
  if a < 0 then -(⌊-a + 1 / 2⌋ : ℝ) else ⌊a + 1 / 2⌋

end Exact

noncomputable instance [ExactTables] : Scalar ℝ where
  toAdd := inferInstance
  toSub := inferInstance
  toMul := inferInstance
  toDiv := inferInstance
  toNeg := inferInstance
  toLT := inferInstance
  toLE := inferInstance
  toBEq := instBEqOfDecidableEq
  toOfScientific := inferInstance
  ofNat := Exact.ofNat
  decLt := Real.decidableLT
  decLe := Real.decidableLE
  isNaN _ := false
  isFinite _ := true
  pi := Real.pi
  legendre := ExactTables.legendre
  sqrt := Real.sqrt
  cbrt := Exact.cbrt
  sin := Real.sin
  cos := Real.cos
  acos := Real.arccos
  atan2 b a := Complex.arg ⟨a, b⟩
  hypot a b := Real.sqrt (a ^ 2 + b ^ 2)
  round := Exact.round
  ofDecimal := Exact.ofDecimal
  toDecimal := ExactTables.toDecimal

namespace Scalar

variable [ExactTables]

theorem lesser_eq_min (a b : ℝ) : lesser a b = min a b := by
  rw [min_def]
  rcases le_or_gt a b with h | h
  · simp [lesser, isNaN, h, not_lt.mpr h]
  · simp [lesser, isNaN, h, not_le.mpr h]

theorem greater_eq_max (a b : ℝ) : greater a b = max a b := by
  rw [max_def]
  rcases le_or_gt a b with h | h
  · rcases h.lt_or_eq with hlt | rfl
    · simp [greater, isNaN, h, hlt]
    · simp [greater, isNaN]
  · simp [greater, isNaN, not_lt.mpr h.le, not_le.mpr h]

theorem abs_eq_abs (a : ℝ) : Scalar.abs a = |a| := by
  unfold Scalar.abs
  split_ifs with h
  · exact (abs_of_neg h).symm
  · exact (abs_of_nonneg (not_lt.mp h)).symm

theorem sum_eq_sum (xs : List ℝ) : Scalar.sum xs = xs.sum := by
  rw [Scalar.sum, List.sum_eq_foldl]

theorem clamp_eq_max (r : ℝ) : clamp r 0 1 = max 0 (min r 1) := by
  unfold clamp
  split_ifs with hlow hhigh
  · rw [max_eq_left (min_le_of_left_le hlow.le)]
  · rw [min_eq_right hhigh.le, max_eq_right zero_le_one]
  · rw [min_eq_left (not_lt.mp hhigh), max_eq_right (not_lt.mp hlow)]

theorem clamp_mem_Icc (r : ℝ) : clamp r 0 1 ∈ Set.Icc (0 : ℝ) 1 := by
  rw [clamp_eq_max]
  exact ⟨le_max_left _ _, max_le zero_le_one (min_le_right _ _)⟩

theorem clamp_of_mem {r : ℝ} (h : r ∈ Set.Icc (0 : ℝ) 1) : clamp r 0 1 = r := by
  rw [clamp_eq_max, min_eq_left h.2, max_eq_right h.1]

theorem within_iff {t low high : ℝ} : within t low high = true ↔ t ∈ Set.Icc low high := by
  rw [within, Bool.and_eq_true]
  exact and_congr decide_eq_true_iff decide_eq_true_iff

theorem sentinel_pos : (0 : ℝ) < sentinel := by
  norm_num [sentinel]

end Scalar

end Drafting
