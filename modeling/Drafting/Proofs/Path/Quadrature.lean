import Mathlib.Algebra.Order.BigOperators.Group.List
import Mathlib.Tactic.Linarith
import Mathlib.Tactic.Ring
import Drafting.Path.Quadrature
import Drafting.Proofs.Exact

/-!
# Laws of the quadrature

The rule adds up values at pairs of places that lie symmetrically around the middle of an
interval. So it gives the same for a function and for its mirror image, and bisection, which
treats both halves alike, keeps this.

With weights that are not negative the integral of a function without negative values is not
negative. It is zero only if the rule is zero over both halves of some interval, and then the
function is zero at three places, if a node other than the middle has weight.
-/

namespace Drafting
namespace Quadrature

variable [ExactTables] {f : ℝ → ℝ} {a b : ℝ}

theorem gaussLegendre_eq (f : ℝ → ℝ) (a b : ℝ) :
    gaussLegendre f a b =
      (ExactTables.legendre.map fun e => e.2 *
        (f ((a + b) / 2 - (b - a) / 2 * e.1) + f ((a + b) / 2 + (b - a) / 2 * e.1))).sum *
          ((b - a) / 2) := by
  rw [← Scalar.sum_eq_sum]
  rfl

theorem gaussLegendre_const_mul (k : ℝ) (f : ℝ → ℝ) (a b : ℝ) :
    gaussLegendre (fun t => k * f t) a b = k * gaussLegendre f a b := by
  have hpair (w u v : ℝ) : w * (k * u + k * v) = k * (w * (u + v)) := by ring
  simp only [gaussLegendre_eq, hpair, List.sum_map_mul_left]
  ring

theorem gaussLegendre_neg (f : ℝ → ℝ) (a b : ℝ) :
    gaussLegendre (fun t => -f t) a b = -gaussLegendre f a b := by
  simpa using gaussLegendre_const_mul (-1) f a b

theorem gaussLegendre_add (f g : ℝ → ℝ) (a b : ℝ) :
    gaussLegendre (fun t => f t + g t) a b = gaussLegendre f a b + gaussLegendre g a b := by
  have hpair (w u v u' v' : ℝ) : w * (u + u' + (v + v')) = w * (u + v) + w * (u' + v') := by ring
  simp only [gaussLegendre_eq, hpair, List.sum_map_add]
  ring

theorem gaussLegendre_reflect (f : ℝ → ℝ) (c a b : ℝ) :
    gaussLegendre (fun t => f (c - t)) a b = gaussLegendre f (c - b) (c - a) := by
  have hpair (e : ℝ × ℝ) :
      e.2 * (f (c - ((a + b) / 2 - (b - a) / 2 * e.1)) +
          f (c - ((a + b) / 2 + (b - a) / 2 * e.1))) =
        e.2 * (f ((c - b + (c - a)) / 2 - (c - a - (c - b)) / 2 * e.1) +
          f ((c - b + (c - a)) / 2 + (c - a - (c - b)) / 2 * e.1)) := by
    rw [add_comm]
    congr 3 <;> ring
  simp only [gaussLegendre_eq, hpair]
  congr 1
  ring

/-- The two halves change places. -/
theorem bisect_reflect (f : ℝ → ℝ) (c : ℝ) (levels : ℕ) (a b whole tolerance : ℝ) :
    bisect (fun t => f (c - t)) levels a b whole tolerance =
      bisect f levels (c - b) (c - a) whole tolerance := by
  have hmid (a b : ℝ) : c - (a + b) / 2 = (c - b + (c - a)) / 2 := by ring
  induction levels generalizing a b whole tolerance with
  | zero =>
    simp only [bisect, gaussLegendre_reflect, hmid]
    rw [add_comm (gaussLegendre f ((c - b + (c - a)) / 2) _)]
  | succ levels ih =>
    rw [bisect, bisect]
    simp only [gaussLegendre_reflect, hmid, ih]
    rw [add_comm (gaussLegendre f ((c - b + (c - a)) / 2) _),
      add_comm (bisect f levels ((c - b + (c - a)) / 2) _ _ _).value,
      add_comm (bisect f levels ((c - b + (c - a)) / 2) _ _ _).error]

theorem adaptive_reflect (f : ℝ → ℝ) (c a b : ℝ) :
    adaptive (fun t => f (c - t)) a b = adaptive f (c - b) (c - a) := by
  rw [adaptive, adaptive, bisect_reflect, gaussLegendre_reflect]

/-- No weight of the table is negative. -/
structure Nonneg : Prop where
  weight_nonneg : ∀ entry ∈ ExactTables.legendre, 0 ≤ entry.2

/-- Moreover some weight belongs to a node other than the middle. -/
structure Positive : Prop extends Nonneg where
  exists_off_middle : ∃ entry ∈ ExactTables.legendre, 0 < entry.2 ∧ entry.1 ≠ 0

theorem positive_of_legendre (h : ExactTables.legendre = Scalar.legendreDigits) : Positive where
  weight_nonneg := by
    rw [h]
    norm_num [Scalar.legendreDigits]
  exists_off_middle := by
    rw [h]
    norm_num [Scalar.legendreDigits]

theorem positive_of_three_nodes (h : ExactTables.legendre = [(1, 1 / 3), (0, 2 / 3)]) :
    Positive where
  weight_nonneg := by
    rw [h]
    norm_num
  exists_off_middle := by
    rw [h]
    norm_num

theorem Nonneg.pair_nonneg (h : Nonneg) (hf : ∀ t, 0 ≤ f t) {e : ℝ × ℝ}
    (he : e ∈ ExactTables.legendre) (u v : ℝ) : 0 ≤ e.2 * (f u + f v) :=
  mul_nonneg (h.weight_nonneg e he) (add_nonneg (hf u) (hf v))

theorem Nonneg.gaussLegendre_nonneg (h : Nonneg) (hf : ∀ t, 0 ≤ f t) (hab : a ≤ b) :
    0 ≤ gaussLegendre f a b := by
  rw [gaussLegendre_eq]
  refine mul_nonneg (List.sum_nonneg ?_) (by linarith)
  rw [List.forall_mem_map]
  exact fun e he => h.pair_nonneg hf he _ _

/-- By induction on the levels, where the middle lies between the ends. -/
theorem Nonneg.bisect_nonneg (h : Nonneg) (hf : ∀ t, 0 ≤ f t) (levels : ℕ) (hab : a ≤ b)
    (whole tolerance : ℝ) : 0 ≤ (bisect f levels a b whole tolerance).value := by
  induction levels generalizing a b whole tolerance with
  | zero =>
    rw [bisect]
    exact add_nonneg (h.gaussLegendre_nonneg hf (by linarith))
      (h.gaussLegendre_nonneg hf (by linarith))
  | succ levels ih =>
    rw [bisect]
    dsimp only
    split_ifs
    · exact add_nonneg (h.gaussLegendre_nonneg hf (by linarith))
        (h.gaussLegendre_nonneg hf (by linarith))
    · exact add_nonneg (ih (by linarith) _ _) (ih (by linarith) _ _)

theorem Nonneg.adaptive_nonneg (h : Nonneg) (hf : ∀ t, 0 ≤ f t) (hab : a ≤ b) :
    0 ≤ (adaptive f a b).value :=
  h.bisect_nonneg hf maxDepth hab _ _

/-- No weight is negative, they add up to a half at least, and the nodes lie in the interval. -/
structure Averaging : Prop extends Nonneg where
  abs_node_le : ∀ entry ∈ ExactTables.legendre, |entry.1| ≤ 1
  half_le : 1 / 2 ≤ (ExactTables.legendre.map fun entry => entry.2).sum

theorem averaging_of_legendre (h : ExactTables.legendre = Scalar.legendreDigits) : Averaging where
  toNonneg := (positive_of_legendre h).toNonneg
  abs_node_le := by
    rw [h]
    norm_num [Scalar.legendreDigits, abs_le]
  half_le := by
    rw [h]
    norm_num [Scalar.legendreDigits]

theorem Averaging.le_gaussLegendre (h : Averaging) {k : ℝ} (hk : 0 ≤ k)
    (hf : ∀ t ∈ Set.Icc (0 : ℝ) 1, k ≤ f t) : k / 2 ≤ gaussLegendre f 0 1 := by
  have hpair : ∀ e ∈ ExactTables.legendre, 2 * k * e.2 ≤
      e.2 * (f ((0 + 1) / 2 - (1 - 0) / 2 * e.1) + f ((0 + 1) / 2 + (1 - 0) / 2 * e.1)) := by
    intro e he
    obtain ⟨hlow, hhigh⟩ := abs_le.mp (h.abs_node_le e he)
    have hleft := hf ((0 + 1) / 2 - (1 - 0) / 2 * e.1) ⟨by linarith, by linarith⟩
    have hright := hf ((0 + 1) / 2 + (1 - 0) / 2 * e.1) ⟨by linarith, by linarith⟩
    have hsum := mul_le_mul_of_nonneg_left (add_le_add hleft hright) (h.weight_nonneg e he)
    linarith
  have hsum := List.sum_le_sum hpair
  rw [List.sum_map_mul_left] at hsum
  have hhalf := mul_le_mul_of_nonneg_left h.half_le (mul_nonneg zero_le_two hk)
  rw [gaussLegendre_eq]
  linarith

/-- Some interval that is not halved any more has rules of zero over both halves. -/
theorem Nonneg.exists_halves (h : Nonneg) (hf : ∀ t, 0 ≤ f t) (levels : ℕ) (hab : a < b)
    {whole tolerance : ℝ} (h0 : (bisect f levels a b whole tolerance).value = 0) :
    ∃ u v, u < v ∧ gaussLegendre f u ((u + v) / 2) = 0 ∧ gaussLegendre f ((u + v) / 2) v = 0 := by
  have hleaf {a b : ℝ} (hab : a < b)
      (h0 : gaussLegendre f a ((a + b) / 2) + gaussLegendre f ((a + b) / 2) b = 0) :
      gaussLegendre f a ((a + b) / 2) = 0 ∧ gaussLegendre f ((a + b) / 2) b = 0 :=
    (add_eq_zero_iff_of_nonneg (h.gaussLegendre_nonneg hf (by linarith))
      (h.gaussLegendre_nonneg hf (by linarith))).mp h0
  induction levels generalizing a b whole tolerance with
  | zero => exact ⟨a, b, hab, hleaf hab h0⟩
  | succ levels ih =>
    rw [bisect] at h0
    dsimp only at h0
    split_ifs at h0
    · exact ⟨a, b, hab, hleaf hab h0⟩
    · have hleft := (add_eq_zero_iff_of_nonneg (h.bisect_nonneg hf levels (by linarith) _ _)
        (h.bisect_nonneg hf levels (by linarith) _ _)).mp h0
      exact ih (by linarith) hleft.1

/-- Where the rule gives zero, the function is zero at the nodes that have weight. -/
theorem Nonneg.eq_zero_of_gaussLegendre (h : Nonneg) (hf : ∀ t, 0 ≤ f t) (hab : a < b)
    (h0 : gaussLegendre f a b = 0) {e : ℝ × ℝ} (he : e ∈ ExactTables.legendre) (hw : 0 < e.2) :
    f ((a + b) / 2 - (b - a) / 2 * e.1) = 0 ∧ f ((a + b) / 2 + (b - a) / 2 * e.1) = 0 := by
  rw [gaussLegendre_eq] at h0
  have hsum := (mul_eq_zero.mp h0).resolve_right (by linarith)
  have hpair := List.all_zero_of_le_zero_le_of_sum_eq_zero
    (List.forall_mem_map.mpr fun e he => h.pair_nonneg hf he _ _) hsum (List.mem_map_of_mem he)
  exact (add_eq_zero_iff_of_nonneg (hf _) (hf _)).mp
    ((mul_eq_zero.mp hpair).resolve_left hw.ne')

/-- A function without negative values whose integral is zero is zero at three places. -/
theorem Positive.exists_zeros (h : Positive) (hf : ∀ t, 0 ≤ f t) (hab : a < b)
    (h0 : (adaptive f a b).value = 0) :
    ∃ r s t, r < s ∧ s < t ∧ f r = 0 ∧ f s = 0 ∧ f t = 0 := by
  obtain ⟨u, v, huv, hleft, hright⟩ := h.exists_halves hf maxDepth hab h0
  obtain ⟨e, he, hw, hx⟩ := h.exists_off_middle
  obtain ⟨l₁, l₂⟩ := h.eq_zero_of_gaussLegendre hf (by linarith) hleft he hw
  obtain ⟨r₁, r₂⟩ := h.eq_zero_of_gaussLegendre hf (by linarith) hright he hw
  -- The places on the left lie in this order or the other one, and one on the right is beyond.
  rcases hx.lt_or_gt with hx | hx
  · have hstep : (v - u) / 4 * e.1 < 0 := mul_neg_of_pos_of_neg (by linarith) hx
    exact ⟨_, _, _, by linarith, by linarith, l₂, l₁, r₁⟩
  · have hstep : 0 < (v - u) / 4 * e.1 := mul_pos (by linarith) hx
    exact ⟨_, _, _, by linarith, by linarith, l₁, l₂, r₂⟩

end Quadrature
end Drafting
