import Drafting.Proofs.Path.Parameters
import Drafting.Proofs.Path.Reverse

/-!
# Three roots far apart

Whether a polynomial of degree three has three roots, and how far apart they are, is told by
two invariants. They are the coefficients of the polynomial without its quadratic term, up to
powers of the leading coefficient, so they scale with the polynomial and stay as they
are when it is run through backwards.

A line meets a piece whose polynomial is a multiple of such a polynomial, with coefficients
neither large nor negligible, where the polynomial has its roots: the answer leaves out no root
in the range that has no other root near it.
-/

namespace Drafting

variable [ExactTables]

section
variable {xs : List ℝ} {a b : ℝ}

theorem Scalar.magnitude_concat (xs : List ℝ) (a : ℝ) :
    magnitude (xs ++ [a]) = max (magnitude xs) |a| := by
  simp only [magnitude, List.foldl_append, List.foldl_cons, List.foldl_nil, greater_eq_max,
    abs_eq_abs]

theorem Scalar.magnitude_le_iff (hb : 0 ≤ b) : magnitude xs ≤ b ↔ ∀ a ∈ xs, |a| ≤ b := by
  induction xs using List.reverseRecOn with
  | nil => simpa [magnitude] using hb
  | append_singleton xs a ih => simp [magnitude_concat, ih, or_imp, forall_and]

theorem Scalar.magnitude_nonneg (xs : List ℝ) : 0 ≤ magnitude xs := by
  induction xs using List.reverseRecOn with
  | nil => exact le_rfl
  | append_singleton xs a ih => exact (magnitude_concat xs a).symm ▸ le_max_of_le_left ih

theorem Scalar.abs_le_magnitude (ha : a ∈ xs) : |a| ≤ magnitude xs :=
  (magnitude_le_iff (magnitude_nonneg xs)).mp le_rfl a ha

end

namespace Cubic

variable {p : Cubic ℝ} {k : ℝ}

noncomputable def scale (k : ℝ) (p : Cubic ℝ) : Cubic ℝ := p.map (k * ·)

omit [ExactTables] in
theorem coefficients_scale (k : ℝ) (p : Cubic ℝ) :
    (p.scale k).coefficients = p.coefficients.map (k * ·) := rfl

/-- The linear coefficient without the quadratic term, up to sign and leading coefficient. -/
noncomputable def linearInvariant (p : Cubic ℝ) : ℝ := p.c2 ^ 2 - 3 * p.c3 * p.c1

/-- The constant coefficient without the quadratic term, up to the leading coefficient. -/
noncomputable def constInvariant (p : Cubic ℝ) : ℝ :=
  2 * p.c2 ^ 3 - 9 * p.c3 * p.c2 * p.c1 + 27 * p.c3 ^ 2 * p.c0

/-- Degree three, and a discriminant that is clearly that of three roots. -/
structure Apart (p : Cubic ℝ) : Prop where
  degree : p.c3 ≠ 0
  linear_pos : 0 < p.linearInvariant
  const_le : p.constInvariant ^ 2 ≤ 3 * p.linearInvariant ^ 3

namespace Apart

theorem scale (h : p.Apart) (hk : k ≠ 0) : (p.scale k).Apart := by
  have hlinear : (p.scale k).linearInvariant = k ^ 2 * p.linearInvariant := by
    simp only [linearInvariant, Cubic.scale, map]
    ring
  have hconst : (p.scale k).constInvariant = k ^ 3 * p.constInvariant := by
    simp only [constInvariant, Cubic.scale, map]
    ring
  refine ⟨mul_ne_zero hk h.degree, ?_, ?_⟩
  · rw [hlinear]
    exact mul_pos (by positivity) h.linear_pos
  · calc (p.scale k).constInvariant ^ 2
        = k ^ 6 * p.constInvariant ^ 2 := by rw [hconst]; ring
      _ ≤ k ^ 6 * (3 * p.linearInvariant ^ 3) := by gcongr; exact h.const_le
      _ = 3 * (p.scale k).linearInvariant ^ 3 := by rw [hlinear]; ring

theorem reverse (h : p.Apart) : p.reverse.Apart := by
  have hlinear : p.reverse.linearInvariant = p.linearInvariant := by
    simp only [linearInvariant, Cubic.reverse]
    ring
  have hconst : p.reverse.constInvariant = p.constInvariant := by
    simp only [constInvariant, Cubic.reverse]
    ring
  refine ⟨by simpa [Cubic.reverse] using h.degree, hlinear ▸ h.linear_pos, ?_⟩
  rw [hlinear, hconst]
  exact h.const_le

theorem decided (h : p.Apart) :
    Decided (depressedDisc (depressedLinear p.c3 p.c2 p.c1) (depressedConst p.c3 p.c2 p.c1 p.c0))
      (depressedScale (depressedLinear p.c3 p.c2 p.c1) (depressedConst p.c3 p.c2 p.c1 p.c0)) := by
  have hdegree := h.degree
  have hunit : 0 < 1 / (2916 * p.c3 ^ 6) := by positivity
  have hsq : depressedConst p.c3 p.c2 p.c1 p.c0 / 2 * (depressedConst p.c3 p.c2 p.c1 p.c0 / 2) =
      1 / (2916 * p.c3 ^ 6) * p.constInvariant ^ 2 := by
    simp only [depressedConst, constInvariant]
    field_simp
    ring
  have hcube : depressedLinear p.c3 p.c2 p.c1 / 3 * (depressedLinear p.c3 p.c2 p.c1 / 3) *
      (depressedLinear p.c3 p.c2 p.c1 / 3) =
      -(1 / (2916 * p.c3 ^ 6) * (4 * p.linearInvariant ^ 3)) := by
    simp only [depressedLinear, linearInvariant]
    field_simp
    ring
  have hpos := pow_pos h.linear_pos 3
  have hle := h.const_le
  rw [depressedDisc, depressedScale, hsq, hcube, abs_neg, abs_of_nonneg (by positivity),
    ← mul_max_of_nonneg _ _ hunit.le, max_eq_right (by linarith), ← sub_eq_add_neg, ← mul_sub]
  right
  rw [abs_of_neg (mul_neg_of_pos_of_neg hunit (by linarith)), ← mul_neg, mul_left_comm]
  refine mul_lt_mul_of_pos_left ?_ hunit
  norm_num [discriminantEpsilon]
  linarith

end Apart

def Moderate (c : ℝ) : Prop := 1e-12 ≤ |c| ∧ |c| ≤ 1

theorem Moderate.of_pos {c : ℝ} (hlow : 1e-12 ≤ c) (hhigh : c ≤ 1) : Moderate c := by
  have hpos : 0 ≤ c := by linarith
  rw [Moderate, abs_of_nonneg hpos]
  exact ⟨hlow, hhigh⟩

theorem Moderate.neg {c : ℝ} (h : Moderate c) : Moderate (-c) := by
  rwa [Moderate, abs_neg]

theorem Moderate.of_neg {c : ℝ} (hlow : -1 ≤ c) (hhigh : c ≤ -1e-12) : Moderate c := by
  rw [← neg_neg c]
  exact (of_pos (by linarith) (by linarith)).neg

/-- Three roots far apart, and coefficients that are moderate or zero. -/
structure Regular (p : Cubic ℝ) : Prop where
  apart : p.Apart
  moderate : ∀ c ∈ p.coefficients, c = 0 ∨ Moderate c
  half_le : ∃ c ∈ p.coefficients, 1 / 2 ≤ |c|

namespace Regular

theorem abs_le_one (h : p.Regular) {c : ℝ} (hc : c ∈ p.coefficients) : |c| ≤ 1 := by
  rcases h.moderate c hc with rfl | hmoderate
  · simp
  · exact hmoderate.2

theorem neg (h : p.Regular) : (p.scale (-1)).Regular where
  apart := h.apart.scale (by norm_num)
  moderate := by
    rw [coefficients_scale, List.forall_mem_map]
    intro c hc
    rw [neg_one_mul]
    exact (h.moderate c hc).imp neg_eq_zero.mpr Moderate.neg
  half_le := by
    obtain ⟨c, hc, hhalf⟩ := h.half_le
    exact ⟨-1 * c, List.mem_map_of_mem hc, by simpa using hhalf⟩

theorem half_mul_le_magnitude (h : p.Regular) : |k| / 2 ≤ (p.scale k).magnitude := by
  obtain ⟨c, hc, hhalf⟩ := h.half_le
  have hmem : k * c ∈ (p.scale k).coefficients := List.mem_map_of_mem hc
  calc |k| / 2 = |k| * (1 / 2) := by ring
    _ ≤ |k| * |c| := by gcongr
    _ = |k * c| := (abs_mul k c).symm
    _ ≤ (p.scale k).magnitude := Scalar.abs_le_magnitude hmem

theorem wellConditioned (h : p.Regular) (hk : k ≠ 0) : (p.scale k).WellConditioned := by
  have hapart := h.apart.scale hk
  refine ⟨⟨_, ?_, hapart.degree⟩, ?_, fun h3 => absurd h3 hapart.degree, fun _ => hapart.decided⟩
  · simp [coefficients]
  · have hsize : (p.scale k).magnitude ≤ |k| := by
      refine (Scalar.magnitude_le_iff (abs_nonneg k)).mpr ?_
      rw [coefficients_scale, List.forall_mem_map]
      intro c hc
      rw [abs_mul]
      exact mul_le_of_le_one_right (abs_nonneg k) (h.abs_le_one hc)
    rw [coefficients_scale, List.forall_mem_map]
    intro c hc hne
    have hmoderate := (h.moderate c hc).resolve_left (right_ne_zero_of_mul hne)
    rw [abs_mul, coefficientEpsilon]
    calc 1e-12 * (p.scale k).magnitude ≤ |c| * |k| :=
          mul_le_mul hmoderate.1 hsize (Scalar.magnitude_nonneg _) (abs_nonneg c)
      _ = |k| * |c| := mul_comm _ _

end Regular

end Cubic

namespace Line

variable {l : Line ℝ} {P : Piece ℝ} {p : Cubic ℝ} {k m t : ℝ} {us : List ℝ}

/-- There is an answer when the multiple is not negligible beside the coefficients of the piece. -/
theorem exists_parameters_of_regular (h : p.Regular) (hk : k ≠ 0) (hl : l.direction.norm = 1)
    (hpoly : l.polynomial P = p.scale k) (hm : 1e-12 * m < |k| / 2)
    (hcoefficients : ∀ c ∈ (P.relativeTo l.point).coefficients, |c| ≤ m) :
    ∃ us, l.parameters P = .ok us := by
  have hwell : (l.polynomial P).WellConditioned := hpoly ▸ h.wellConditioned hk
  refine exists_parameters hwell ?_
  have hm0 : 0 ≤ m := (abs_nonneg _).trans (hcoefficients _ List.mem_cons_self)
  have hsize := (Scalar.magnitude_le_iff hm0).mpr hcoefficients
  rw [hl, one_mul, hpoly, Cubic.coefficientEpsilon]
  calc 1e-12 * Scalar.magnitude (P.relativeTo l.point).coefficients ≤ 1e-12 * m := by gcongr
    _ < |k| / 2 := hm
    _ ≤ (p.scale k).magnitude := h.half_mul_le_magnitude

/-- A crossing without other roots near it is reported. -/
theorem mem_parameters_of_isolated (h : (l.polynomial P).WellConditioned)
    (hok : l.parameters P = .ok us) (ht : t ∈ Set.Icc (0 : ℝ) 1)
    (hroot : (l.polynomial P).eval t = 0)
    (halone : ∀ s, (l.polynomial P).eval s = 0 → |t - s| ≤ 1e-8 + 1e-5 * |s| → s = t) : t ∈ us := by
  obtain ⟨u, hu, hclose⟩ := Cubic.exists_mem_mergeClose ((h.rootsOf.mem_iff t).mpr hroot)
  have hreal := (h.rootsOf.mem_iff u).mp ((Cubic.mergeClose_sublist _).subset hu)
  obtain rfl := halone u hreal (Scalar.approxEq_iff.mp hclose)
  refine (mem_parameters_iff h hok).mpr ⟨u, hu, ?_, Scalar.clamp_of_mem ht⟩
  exact Set.Icc_subset_Icc (by norm_num) (by norm_num) ht

end Line

end Drafting
