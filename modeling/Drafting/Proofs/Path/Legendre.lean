import Mathlib.Analysis.SpecialFunctions.Integrals.Basic
import Mathlib.LinearAlgebra.Vandermonde
import Mathlib.LinearAlgebra.Matrix.ToLin
import Mathlib.RingTheory.Polynomial.ShiftedLegendre
import Mathlib.Tactic.LinearCombination
import Drafting.Proofs.Path.Quadrature

/-!
# Rules that are exact for polynomials

A rule whose table gives the right integrals of the even powers between -1 and 1 gives those of
all polynomials of that degree over all intervals, because odd powers cancel at each pair of
nodes and an interval is an affine image of the one from -1 to 1.

Four pairs of nodes can be right up to degree fifteen. Their squares are the roots of a
polynomial of degree four that is orthogonal to the lower ones. The weights are solved for from
the first four even powers, and the next four follow, because the powers of the roots and the
integrals obey the same recurrence. The polynomial is the Legendre polynomial of degree eight in
disguise, and the weights are those of the classical formula.
-/

namespace Drafting
namespace Quadrature

open Polynomial

section

variable [ExactTables] {n : ℕ}

/-- The rule integrates the even powers up to the `n`-th exactly. -/
def ExactTo (n : ℕ) : Prop :=
  ∀ k, 2 * k ≤ n → (ExactTables.legendre.map fun e => e.2 * e.1 ^ (2 * k)).sum = 1 / (2 * k + 1)

theorem ExactTo.mono {m : ℕ} (h : ExactTo n) (hmn : m ≤ n) : ExactTo m :=
  fun k hk => h k (hk.trans hmn)

/-- The rule over the interval from -1 to 1. -/
noncomputable def pairSum (f : ℝ → ℝ) : ℝ :=
  (ExactTables.legendre.map fun e => e.2 * (f (-e.1) + f e.1)).sum

theorem pairSum_sum (c : ℕ → ℝ) (m : ℕ) :
    pairSum (fun t => ∑ i ∈ Finset.range m, c i * t ^ i) =
      ∑ i ∈ Finset.range m, c i * pairSum fun t => t ^ i := by
  have hpair (w u v c u' v' : ℝ) :
      w * (u + c * u' + (v + c * v')) = w * (u + v) + c * (w * (u' + v')) := by ring
  unfold pairSum
  induction m with
  | zero => simp
  | succ m ih =>
    simp only [Finset.sum_range_succ, hpair, List.sum_map_add, List.sum_map_mul_left]
    rw [ih]

theorem ExactTo.pairSum_pow (h : ExactTo n) {k : ℕ} (hk : k ≤ n) :
    pairSum (fun t => t ^ k) = ∫ t in (-1 : ℝ)..1, t ^ k := by
  rw [integral_pow, pairSum]
  rcases Nat.even_or_odd' k with ⟨j, rfl | rfl⟩
  · have hpair (e : ℝ × ℝ) :
        e.2 * ((-e.1) ^ (2 * j) + e.1 ^ (2 * j)) = 2 * (e.2 * e.1 ^ (2 * j)) := by
      rw [(even_two_mul j).neg_pow]
      ring
    simp only [hpair, List.sum_map_mul_left, h j hk]
    rw [(odd_two_mul_add_one j).neg_one_pow, one_pow]
    push_cast
    ring
  · have hpair (e : ℝ × ℝ) : e.2 * ((-e.1) ^ (2 * j + 1) + e.1 ^ (2 * j + 1)) = 0 := by
      rw [(odd_two_mul_add_one j).neg_pow]
      ring
    have heven : Even (2 * j + 1 + 1) := ⟨j + 1, by ring⟩
    simp [hpair, heven.neg_one_pow]

theorem ExactTo.pairSum_eval (h : ExactTo n) {q : ℝ[X]} (hq : q.natDegree ≤ n) :
    pairSum (fun t => q.eval t) = ∫ t in (-1 : ℝ)..1, q.eval t := by
  simp only [eval_eq_sum_range' (Nat.lt_succ_of_le hq)]
  rw [pairSum_sum, intervalIntegral.integral_finsetSum fun i _ =>
    (Continuous.intervalIntegrable (by fun_prop) _ _)]
  refine Finset.sum_congr rfl fun i hi => ?_
  rw [h.pairSum_pow (Finset.mem_range_succ_iff.mp hi), intervalIntegral.integral_const_mul]

theorem gaussLegendre_eq_pairSum (f : ℝ → ℝ) (a b : ℝ) :
    gaussLegendre f a b = (b - a) / 2 * pairSum fun t => f ((b - a) / 2 * t + (a + b) / 2) := by
  rw [gaussLegendre_eq, pairSum, mul_comm]
  congr 3
  funext e
  congr 3 <;> ring

/-- Polynomials up to the degree are integrated exactly over every interval. -/
theorem ExactTo.gaussLegendre_eval (h : ExactTo n) {p : ℝ[X]} (hp : p.natDegree ≤ n) (a b : ℝ) :
    gaussLegendre (fun t => p.eval t) a b = ∫ t in a..b, p.eval t := by
  let q : ℝ[X] := p.comp (C ((b - a) / 2) * X + C ((a + b) / 2))
  have hq : q.natDegree ≤ n := by
    refine (natDegree_comp_le.trans (Nat.mul_le_mul hp natDegree_linear_le)).trans ?_
    rw [mul_one]
  have heval (t : ℝ) : p.eval ((b - a) / 2 * t + (a + b) / 2) = q.eval t := by simp [q]
  rw [gaussLegendre_eq_pairSum]
  simp only [heval]
  rw [h.pairSum_eval hq]
  simp only [← heval]
  rw [intervalIntegral.mul_integral_comp_mul_add (f := fun t => p.eval t)]
  congr 1 <;> ring

end

/-- The polynomial whose roots are the squares of the nodes, up to a factor the Legendre
polynomial of degree eight. -/
def nodal (y : ℝ) : ℝ := 6435 * y ^ 4 - 12012 * y ^ 3 + 6930 * y ^ 2 - 1260 * y + 35

theorem exists_nodal_eq_zero {lo hi : ℝ} (h : lo ≤ hi)
    (hsign : nodal (lo ^ 2) * nodal (hi ^ 2) ≤ 0) : ∃ x ∈ Set.Icc lo hi, nodal (x ^ 2) = 0 := by
  have hcont : ContinuousOn (fun x => nodal (x ^ 2)) (Set.uIcc lo hi) := by
    unfold nodal
    fun_prop
  have hzero : (0 : ℝ) ∈ Set.uIcc (nodal (lo ^ 2)) (nodal (hi ^ 2)) := by
    rw [Set.mem_uIcc]
    rcases mul_nonpos_iff.mp hsign with ⟨h₁, h₂⟩ | ⟨h₁, h₂⟩
    · exact .inr ⟨h₂, h₁⟩
    · exact .inl ⟨h₁, h₂⟩
  obtain ⟨x, hx, h0⟩ := intermediate_value_uIcc hcont hzero
  exact ⟨x, Set.uIcc_of_le h ▸ hx, h0⟩

theorem exists_node : ∀ e ∈ (Scalar.legendreDigits : List (ℝ × ℝ)),
    ∃ x ∈ Set.Icc (e.1 - 1e-15) (e.1 + 1e-15), nodal (x ^ 2) = 0 := by
  intro e he
  refine exists_nodal_eq_zero (by linarith) ?_
  fin_cases he <;> norm_num [nodal]

/-- For four different places there are weights that integrate the first four powers. -/
theorem exists_weights {y : Fin 4 → ℝ} (hy : Function.Injective y) :
    ∃ w : Fin 4 → ℝ, ∀ k : Fin 4, ∑ i, w i * y i ^ (k : ℕ) = 1 / (2 * (k : ℕ) + 1) := by
  have hunit : IsUnit (Matrix.vandermonde y).transpose := by
    rw [Matrix.isUnit_iff_isUnit_det, Matrix.det_transpose, isUnit_iff_ne_zero]
    exact Matrix.det_vandermonde_ne_zero_iff.mpr hy
  obtain ⟨w, hw⟩ := Matrix.mulVec_surjective_iff_isUnit.mpr hunit
    fun k : Fin 4 => 1 / (2 * ((k : ℕ) : ℝ) + 1)
  refine ⟨w, fun k => ?_⟩
  rw [← congrFun hw k]
  exact Finset.sum_congr rfl fun i _ => mul_comm _ _

/-- At the roots the weights are right for four more powers. -/
theorem sum_eq_of_nodal {y w : Fin 4 → ℝ} (hy : ∀ i, nodal (y i) = 0)
    (hw : ∀ k : Fin 4, ∑ i, w i * y i ^ (k : ℕ) = 1 / (2 * (k : ℕ) + 1)) {k : ℕ} (hk : k < 8) :
    ∑ i, w i * y i ^ k = 1 / (2 * k + 1) := by
  have hstep (j : ℕ) : 6435 * ∑ i, w i * y i ^ (j + 4) =
      12012 * ∑ i, w i * y i ^ (j + 3) - 6930 * ∑ i, w i * y i ^ (j + 2) +
        1260 * ∑ i, w i * y i ^ (j + 1) - 35 * ∑ i, w i * y i ^ j := by
    simp only [Finset.mul_sum, ← Finset.sum_sub_distrib, ← Finset.sum_add_distrib]
    refine Finset.sum_congr rfl fun i _ => ?_
    have h0 := hy i
    unfold nodal at h0
    linear_combination w i * y i ^ j * h0
  have h0 := hw 0
  have h1 := hw 1
  have h2 := hw 2
  have h3 := hw 3
  norm_num at h0 h1 h2 h3
  have h4 := hstep 0
  have h5 := hstep 1
  have h6 := hstep 2
  have h7 := hstep 3
  norm_num [h0, h1, h2, h3] at h4 h5 h6 h7
  interval_cases k <;> norm_num <;> linarith

/-- The Legendre polynomial of a degree, which Mathlib has over the interval from 0 to 1. -/
noncomputable def legendrePolynomial (n : ℕ) : ℝ[X] :=
  ((shiftedLegendre n).map (Int.castRingHom ℝ)).comp (C 0.5 * (1 - X))

theorem legendrePolynomial_eight : legendrePolynomial 8 =
    C (1 / 128) * (6435 * X ^ 8 - 12012 * X ^ 6 + 6930 * X ^ 4 - 1260 * X ^ 2 + 35) := by
  refine Polynomial.funext fun x => ?_
  norm_num [legendrePolynomial, shiftedLegendre, Finset.sum_range_succ, Nat.choose]
  ring

/-- The derivative of `nodal`. -/
def nodalSlope (y : ℝ) : ℝ := 25740 * y ^ 3 - 36036 * y ^ 2 + 13860 * y - 1260

theorem eval_legendrePolynomial (x : ℝ) : (legendrePolynomial 8).eval x = nodal (x ^ 2) / 128 := by
  simp [legendrePolynomial_eight, nodal]
  ring

theorem eval_derivative_legendrePolynomial (x : ℝ) :
    (derivative (legendrePolynomial 8)).eval x = x * nodalSlope (x ^ 2) / 64 := by
  simp [legendrePolynomial_eight, nodalSlope]
  ring

theorem lt_one_of_nodal {y : ℝ} (h : nodal y = 0) : y < 1 := by
  by_contra hy
  have hz : 0 ≤ y - 1 := by linarith
  have hpos : 0 < 6435 * (y - 1) ^ 4 + 13728 * (y - 1) ^ 3 + 9504 * (y - 1) ^ 2 +
      2304 * (y - 1) + 128 := by positivity
  unfold nodal at h
  linarith

/-- The difference of two values of `nodal`, divided by the distance of the places. -/
def nodalQuotient (y z : ℝ) : ℝ :=
  6435 * (z ^ 3 + z ^ 2 * y + z * y ^ 2 + y ^ 3) - 12012 * (z ^ 2 + z * y + y ^ 2) +
    6930 * (z + y) - 1260

theorem mul_nodalQuotient (y z : ℝ) : (z - y) * nodalQuotient y z = nodal z - nodal y := by
  unfold nodalQuotient nodal
  ring

theorem nodalQuotient_self (y : ℝ) : nodalQuotient y y = nodalSlope y := by
  unfold nodalQuotient nodalSlope
  ring

theorem sum_nodalQuotient {y w : Fin 4 → ℝ}
    (hw : ∀ k : Fin 4, ∑ i, w i * y i ^ (k : ℕ) = 1 / (2 * (k : ℕ) + 1)) (z : ℝ) :
    ∑ j, w j * nodalQuotient z (y j) = 6435 * z ^ 3 - 9867 * z ^ 2 + 4213 * z - 15159 / 35 := by
  have hpowers : ∑ j, w j * nodalQuotient z (y j) =
      6435 * ∑ j, w j * y j ^ 3 + (6435 * z - 12012) * ∑ j, w j * y j ^ 2 +
        (6435 * z ^ 2 - 12012 * z + 6930) * ∑ j, w j * y j ^ 1 +
          (6435 * z ^ 3 - 12012 * z ^ 2 + 6930 * z - 1260) * ∑ j, w j * y j ^ 0 := by
    simp only [Finset.mul_sum, ← Finset.sum_add_distrib]
    refine Finset.sum_congr rfl fun j _ => ?_
    unfold nodalQuotient
    ring
  have h0 := hw 0
  have h1 := hw 1
  have h2 := hw 2
  have h3 := hw 3
  norm_num at h0 h1 h2 h3
  norm_num [h0, h1, h2, h3] at hpowers
  linarith

/-- Weights that are right for the first four powers are those of the classical formula: the
quotient of `nodal` at one root is zero at the others, so its integral is one weight times the
slope. -/
theorem weight_mul_eq {y w : Fin 4 → ℝ} (hy : ∀ i, nodal (y i) = 0) (hinj : Function.Injective y)
    (hw : ∀ k : Fin 4, ∑ i, w i * y i ^ (k : ℕ) = 1 / (2 * (k : ℕ) + 1)) (i : Fin 4) :
    w i * ((1 - y i) * y i * nodalSlope (y i) ^ 2) = 8192 := by
  have hother (j : Fin 4) (hj : j ≠ i) : nodalQuotient (y i) (y j) = 0 := by
    have hzero := mul_nodalQuotient (y i) (y j)
    rw [hy i, hy j, sub_zero] at hzero
    exact (mul_eq_zero.mp hzero).resolve_left (sub_ne_zero.mpr (hinj.ne hj))
  have hsum : ∑ j, w j * nodalQuotient (y i) (y j) = w i * nodalSlope (y i) := by
    rw [Finset.sum_eq_single i, nodalQuotient_self]
    · intro j _ hj
      rw [hother j hj, mul_zero]
    · simp
  rw [sum_nodalQuotient hw] at hsum
  have hroot := hy i
  unfold nodal at hroot
  unfold nodalSlope at hsum ⊢
  linear_combination
    -(1 - y i) * y i * (25740 * y i ^ 3 - 36036 * y i ^ 2 + 13860 * y i - 1260) * hsum +
      (-25740 * y i ^ 4 + 53196 * y i ^ 3 - 34452 * y i ^ 2 + 250812 / 35 * y i - 8192 / 35) *
        hroot

/-- The positive nodes of the Gauss-Legendre rule with eight nodes, each with its weight: the
positive roots `x` of the Legendre polynomial `P` of degree eight in ascending order, with the
weights `2 / ((1 - x²) P'(x)²)`. -/
structure IsGaussLegendre (table : List (ℝ × ℝ)) : Prop where
  length_eq : table.length = 4
  ascending : table.Pairwise fun d e => d.1 < e.1
  pos : ∀ e ∈ table, 0 < e.1
  root : ∀ e ∈ table, (legendrePolynomial 8).eval e.1 = 0
  weight : ∀ e ∈ table,
    e.2 = 2 / ((1 - e.1 ^ 2) * (derivative (legendrePolynomial 8)).eval e.1 ^ 2)

namespace IsGaussLegendre

variable {table : List (ℝ × ℝ)} {e : ℝ × ℝ}

theorem nodal_eq_zero (h : IsGaussLegendre table) (he : e ∈ table) : nodal (e.1 ^ 2) = 0 := by
  have hroot := h.root e he
  rw [eval_legendrePolynomial] at hroot
  linarith

theorem weight_eq (h : IsGaussLegendre table) (he : e ∈ table) :
    e.2 = 8192 / ((1 - e.1 ^ 2) * e.1 ^ 2 * nodalSlope (e.1 ^ 2) ^ 2) := by
  rw [h.weight e he, eval_derivative_legendrePolynomial]
  generalize 1 - e.1 ^ 2 = d
  ring

theorem sum_eq (h : IsGaussLegendre table) {k : ℕ} (hk : k < 8) :
    (table.map fun e => e.2 * e.1 ^ (2 * k)).sum = 1 / (2 * k + 1) := by
  have hget : table = List.ofFn fun i : Fin 4 => table.get (i.cast h.length_eq.symm) := by
    rw [← List.ofFn_congr h.length_eq, List.ofFn_get]
  generalize (fun i : Fin 4 => table.get (i.cast h.length_eq.symm)) = x at hget
  subst hget
  have hmem (i : Fin 4) : x i ∈ List.ofFn x := List.mem_ofFn.mpr ⟨i, rfl⟩
  have hmono : StrictMono fun i => (x i).1 ^ 2 := fun i j hij =>
    pow_lt_pow_left₀ (List.pairwise_ofFn.mp h.ascending hij) (h.pos _ (hmem i)).le two_ne_zero
  have hroot (i : Fin 4) : nodal ((x i).1 ^ 2) = 0 := h.nodal_eq_zero (hmem i)
  obtain ⟨w, hw⟩ := exists_weights hmono.injective
  have hweight (i : Fin 4) : (x i).2 = w i := by
    have hi := weight_mul_eq hroot hmono.injective hw i
    rw [h.weight_eq (hmem i), ← hi]
    exact mul_div_cancel_right₀ _ (right_ne_zero_of_mul (hi.trans_ne (by norm_num)))
  rw [← sum_eq_of_nodal hroot hw hk, List.map_ofFn, List.sum_ofFn]
  refine Finset.sum_congr rfl fun i _ => ?_
  simp only [Function.comp, hweight, pow_mul]

theorem sq_node_lt_one (h : IsGaussLegendre table) (he : e ∈ table) : e.1 ^ 2 < 1 :=
  lt_one_of_nodal (h.nodal_eq_zero he)

section

variable [ExactTables]

theorem exactTo (h : IsGaussLegendre ExactTables.legendre) : ExactTo 15 :=
  fun _ hk => h.sum_eq (by omega)

theorem averaging (h : IsGaussLegendre ExactTables.legendre) : Averaging where
  weight_nonneg := by
    intro e he
    have hone : 0 ≤ 1 - e.1 ^ 2 := by linarith [h.sq_node_lt_one he]
    rw [h.weight e he]
    positivity
  abs_node_le := fun e he => (sq_le_one_iff_abs_le_one e.1).mp (h.sq_node_lt_one he).le
  half_le := by
    have hsum := h.sum_eq (k := 0) (by norm_num)
    norm_num at hsum
    rw [hsum]
    norm_num

end

end IsGaussLegendre

/-- Near the nodes to sixteen places lie those of the exact rule. -/
theorem exists_gaussLegendre : ∃ table : List (ℝ × ℝ), IsGaussLegendre table ∧
    ∀ e ∈ table, ∃ d ∈ (Scalar.legendreDigits : List (ℝ × ℝ)), |e.1 - d.1| ≤ 1e-15 := by
  have hnodes := exists_node
  simp only [Scalar.legendreDigits, List.forall_mem_cons, List.not_mem_nil, false_implies,
    implies_true, and_true] at hnodes
  obtain ⟨⟨x₁, ⟨l₁, u₁⟩, h₁⟩, ⟨x₂, ⟨l₂, u₂⟩, h₂⟩, ⟨x₃, ⟨l₃, u₃⟩, h₃⟩, x₄, ⟨l₄, u₄⟩, h₄⟩ := hnodes
  refine ⟨[x₁, x₂, x₃, x₄].map fun x =>
    (x, 2 / ((1 - x ^ 2) * (derivative (legendrePolynomial 8)).eval x ^ 2)), ?_, ?_⟩
  · constructor
    case length_eq => rfl
    case ascending =>
      simp only [List.pairwise_map, List.pairwise_cons, List.forall_mem_cons, List.not_mem_nil,
        false_implies, implies_true, and_true, List.Pairwise.nil]
      refine ⟨⟨?_, ?_, ?_⟩, ⟨?_, ?_⟩, ?_⟩ <;> linarith
    case pos =>
      simp only [List.forall_mem_map, List.forall_mem_cons, List.not_mem_nil, false_implies,
        implies_true, and_true]
      refine ⟨?_, ?_, ?_, ?_⟩ <;> linarith
    case root => simp [eval_legendrePolynomial, h₁, h₂, h₃, h₄]
    case weight => simp
  · simp only [Scalar.legendreDigits, List.forall_mem_map, List.forall_mem_cons,
      List.exists_mem_cons_iff, abs_le]
    refine ⟨.inl ⟨?_, ?_⟩, .inr (.inl ⟨?_, ?_⟩), .inr (.inr (.inl ⟨?_, ?_⟩)),
      .inr (.inr (.inr (.inl ⟨?_, ?_⟩))), List.forall_mem_nil _⟩
    all_goals linarith

theorem exists_eightPoint : ∃ table : List (ℝ × ℝ), table.length = 4 ∧
    (∀ e ∈ table, ∃ d ∈ (Scalar.legendreDigits : List (ℝ × ℝ)), |e.1 - d.1| ≤ 1e-15) ∧
    ∀ k : ℕ, k < 8 → (table.map fun e => e.2 * e.1 ^ (2 * k)).sum = 1 / ((2 * k + 1 : ℕ) : ℝ) := by
  obtain ⟨table, htable, hnear⟩ := exists_gaussLegendre
  refine ⟨table, htable.length_eq, hnear, fun k hk => ?_⟩
  rw [htable.sum_eq hk]
  push_cast
  rfl

noncomputable def eightPoint : List (ℝ × ℝ) := exists_eightPoint.choose

theorem exactTo_of_legendre [ExactTables] (h : ExactTables.legendre = eightPoint) :
    ExactTo 15 := by
  intro k hk
  rw [h, eightPoint, exists_eightPoint.choose_spec.2.2 k (by omega)]
  push_cast
  rfl

end Quadrature
end Drafting
