import Mathlib.Algebra.Order.Ring.Pow
import Mathlib.Tactic.FieldSimp
import Mathlib.Tactic.LinearCombination
import Mathlib.Tactic.Linarith
import Drafting.Path.Cubic
import Drafting.Proofs.Exact

/-!
# The closed formulas for real roots

The polynomial is a product of linear factors as far as it has real roots, and the closed
formulas list these roots. Which factors there are and in which order the list names them
is told by `RootsOf`, with one constructor for each branch of the solver that ends in a
list of its own. Everything else about the solver is read off from it.

A discriminant in the tolerance band around zero is taken for zero, so the formulas are
exact when the discriminant is zero or outside the band.
-/

namespace Drafting

theorem Exact.cbrt_pow_three (a : ℝ) : cbrt a ^ 3 = a := by
  have hcube {b : ℝ} (hb : 0 ≤ b) : (b ^ (1 / 3 : ℝ)) ^ 3 = b := by
    rw [← Real.rpow_natCast, ← Real.rpow_mul hb]
    norm_num
  unfold cbrt
  split_ifs with ha
  · rw [Odd.neg_pow (by decide), hcube (by linarith), neg_neg]
  · exact hcube (not_lt.mp ha)

theorem Exact.cube_injective : Function.Injective fun a : ℝ => a ^ 3 :=
  (Odd.strictMono_pow (by decide)).injective

namespace Cubic

/-- The list names each real root of the function once, in the order of the solver. Of two
roots of a quadratic polynomial the one farther from zero comes first; a simple root
comes before a double one; and three roots descend. -/
inductive RootsOf (f : ℝ → ℝ) : List ℝ → Prop
  | none (h : ∀ t, f t ≠ 0) : RootsOf f []
  | one {r : ℝ} (h : ∀ t, f t = 0 ↔ t = r) : RootsOf f [r]
  | two {a r s : ℝ} (ha : a ≠ 0) (h : ∀ t, f t = a * (t - r) * (t - s)) (hne : r ≠ s)
      (hle : |s| ≤ |r|) : RootsOf f [r, s]
  | double {a r s : ℝ} (ha : a ≠ 0) (h : ∀ t, f t = a * (t - r) * (t - s) ^ 2) (hne : r ≠ s) :
      RootsOf f [r, s]
  | three {a r s w : ℝ} (ha : a ≠ 0) (h : ∀ t, f t = a * (t - r) * (t - s) * (t - w))
      (hrs : s < r) (hsw : w < s) : RootsOf f [r, s, w]

namespace RootsOf

variable {f g : ℝ → ℝ} {rs : List ℝ}

theorem mem_iff (h : RootsOf f rs) (t : ℝ) : t ∈ rs ↔ f t = 0 := by
  cases h with
  | none h => simp [h t]
  | one h => simp [h t]
  | two ha h => simp [h t, ha, sub_eq_zero]
  | double ha h => simp [h t, ha, sub_eq_zero]
  | three ha h => simp [h t, ha, sub_eq_zero, or_assoc]

theorem nodup (h : RootsOf f rs) : rs.Nodup := by
  cases h with
  | none => simp
  | one => simp
  | two _ _ hne => simpa using hne
  | double _ _ hne => simpa using hne
  | three _ _ hrs hsw => simp [hrs.ne', hsw.ne', (hsw.trans hrs).ne']

theorem const_mul (h : RootsOf f rs) {k : ℝ} (hk : k ≠ 0) (hg : ∀ t, g t = k * f t) :
    RootsOf g rs := by
  cases h with
  | none h => exact .none fun t => by simp [hg, hk, h t]
  | one h => exact .one fun t => by simp [hg, hk, h t]
  | two ha h hne hle => exact .two (mul_ne_zero hk ha) (fun t => by rw [hg, h]; ring) hne hle
  | double ha h hne => exact .double (mul_ne_zero hk ha) (fun t => by rw [hg, h]; ring) hne
  | three ha h hrs hsw =>
    exact .three (mul_ne_zero hk ha) (fun t => by rw [hg, h]; ring) hrs hsw

end RootsOf

variable [ExactTables]

noncomputable def quadraticDisc (a b c : ℝ) : ℝ := b * b - 4 * a * c

noncomputable def quadraticScale (a b c : ℝ) : ℝ := max (b * b) |4 * a * c|

/-- The numerator of the first root. Both terms have the same sign, so it does not cancel. -/
noncomputable def quadraticPivot (a b c : ℝ) : ℝ :=
  -0.5 * (b + (if 0 ≤ b then 1 else -1) * √(quadraticDisc a b c))

section
variable {a b c : ℝ}

theorem sq_pivot (h : 0 < quadraticDisc a b c) :
    quadraticPivot a b c ^ 2 + b * quadraticPivot a b c + a * c = 0 := by
  have hroot : √(quadraticDisc a b c) ^ 2 = b * b - 4 * a * c := Real.sq_sqrt h.le
  unfold quadraticPivot
  split_ifs
  · linear_combination hroot / 4
  · linear_combination hroot / 4

theorem abs_pivot (a b c : ℝ) :
    2 * |quadraticPivot a b c| = |b| + √(quadraticDisc a b c) := by
  have hroot := Real.sqrt_nonneg (quadraticDisc a b c)
  unfold quadraticPivot
  split_ifs with hb
  · rw [abs_of_nonneg hb, abs_of_nonpos (by linarith)]
    ring
  · rw [abs_of_neg (not_le.mp hb), abs_of_pos (by linarith)]
    ring

/-- The division by the pivot is defined. -/
theorem pivot_ne_zero (h : 0 < quadraticDisc a b c) : quadraticPivot a b c ≠ 0 := by
  have hroot := Real.sqrt_pos.mpr h
  have habs := abs_pivot a b c
  rw [← abs_pos]
  linarith [abs_nonneg b]

/-- The product of the roots is at most the square of the first one. -/
theorem abs_mul_le_sq_pivot (h : 0 < quadraticDisc a b c) :
    |a * c| ≤ quadraticPivot a b c ^ 2 := by
  have hroot : √(quadraticDisc a b c) ^ 2 = b * b - 4 * a * c := Real.sq_sqrt h.le
  have hcross := mul_nonneg (abs_nonneg b) (Real.sqrt_nonneg (quadraticDisc a b c))
  have hsq : 4 * quadraticPivot a b c ^ 2 = (|b| + √(quadraticDisc a b c)) ^ 2 := by
    rw [← abs_pivot, mul_pow, sq_abs]
    norm_num
  have hb := abs_mul_abs_self b
  rw [abs_le]
  constructor
  · nlinarith [mul_self_nonneg b]
  · nlinarith [sq_nonneg √(quadraticDisc a b c)]

theorem four_mul_quadratic (a b c t : ℝ) :
    4 * a * (a * t ^ 2 + b * t + c) = (2 * a * t + b) ^ 2 - quadraticDisc a b c := by
  unfold quadraticDisc
  ring

end

/-- The linear coefficient `p` of `s³ + p s + q`, which `a t³ + b t² + c t + d` becomes when
`a` is divided out and the quadratic term is shifted away. -/
noncomputable def depressedLinear (a b c : ℝ) : ℝ := c / a - b / a * (b / a) / 3

noncomputable def depressedConst (a b c d : ℝ) : ℝ :=
  2 * (b / a) * (b / a) * (b / a) / 27 - b / a * (c / a) / 3 + d / a

/-- The discriminant of `s³ + p s + q`. It is negative when there are three roots. -/
noncomputable def depressedDisc (p q : ℝ) : ℝ := q / 2 * (q / 2) + p / 3 * (p / 3) * (p / 3)

noncomputable def depressedScale (p q : ℝ) : ℝ :=
  max (q / 2 * (q / 2)) |p / 3 * (p / 3) * (p / 3)|

/-- The cosine of three times the angle of the first root. -/
noncomputable def trigRatio (p q : ℝ) : ℝ := 3 * q / (2 * p) * √(-3 / p)

/-- The roots of `s³ + p s + q` as points of a circle, an angle of `k` thirds of a turn behind
the first one. -/
noncomputable def trigRoot (p q k : ℝ) : ℝ :=
  2 * √(-p / 3) * Real.cos (Real.arccos (trigRatio p q) / 3 - 2 * Real.pi * k / 3)

section
variable {p q : ℝ}

theorem depressedScale_eq_zero_iff : depressedScale p q = 0 ↔ p = 0 ∧ q = 0 := by
  have hq := mul_self_nonneg (q / 2)
  have hp := abs_nonneg (p / 3 * (p / 3) * (p / 3))
  constructor
  · intro h
    have hq0 : q / 2 * (q / 2) = 0 := le_antisymm (h ▸ le_max_left _ _) hq
    have hp0 : |p / 3 * (p / 3) * (p / 3)| = 0 := le_antisymm (h ▸ le_max_right _ _) hp
    simpa using And.intro hp0 hq0
  · rintro ⟨rfl, rfl⟩
    simp [depressedScale]

/-- With discriminant zero, half the constant term is the cube of a double root. -/
theorem eq_of_depressedDisc_eq_zero (h : depressedDisc p q = 0) :
    p = -3 * Exact.cbrt (-q / 2) ^ 2 := by
  have hu := Exact.cbrt_pow_three (-q / 2)
  have hcube : (Exact.cbrt (-q / 2) ^ 2) ^ 3 = (-p / 3) ^ 3 := by
    unfold depressedDisc at h
    linear_combination (Exact.cbrt (-q / 2) ^ 3 - q / 2) * hu + h
  linear_combination 3 * Exact.cube_injective hcube

/-- The product of the two cube roots in the formula for a single root. -/
theorem cbrt_mul_cbrt (h : 0 < depressedDisc p q) :
    Exact.cbrt (-q / 2 + √(depressedDisc p q)) * Exact.cbrt (-q / 2 - √(depressedDisc p q)) =
      -p / 3 := by
  have hroot : √(depressedDisc p q) ^ 2 = q / 2 * (q / 2) + p / 3 * (p / 3) * (p / 3) :=
    Real.sq_sqrt h.le
  apply Exact.cube_injective
  simp only [mul_pow, Exact.cbrt_pow_three]
  linear_combination -hroot

theorem cbrt_sub_cbrt_ne_zero (h : 0 < depressedDisc p q) :
    Exact.cbrt (-q / 2 + √(depressedDisc p q)) - Exact.cbrt (-q / 2 - √(depressedDisc p q)) ≠ 0 := by
  intro heq
  have hcube := congrArg (· ^ 3) (sub_eq_zero.mp heq)
  simp only [Exact.cbrt_pow_three] at hcube
  linarith [Real.sqrt_pos.mpr h]

/-- With positive discriminant there is one real root, the sum of two cube roots. -/
theorem depressed_eq_zero_iff (h : 0 < depressedDisc p q) (s : ℝ) :
    s ^ 3 + p * s + q = 0 ↔ s = Exact.cbrt (-q / 2 + √(depressedDisc p q)) +
      Exact.cbrt (-q / 2 - √(depressedDisc p q)) := by
  have hprod := cbrt_mul_cbrt h
  have hne := cbrt_sub_cbrt_ne_zero h
  have hu := Exact.cbrt_pow_three (-q / 2 + √(depressedDisc p q))
  have hv := Exact.cbrt_pow_three (-q / 2 - √(depressedDisc p q))
  generalize Exact.cbrt (-q / 2 + √(depressedDisc p q)) = u at *
  generalize Exact.cbrt (-q / 2 - √(depressedDisc p q)) = v at *
  have hfactor : s ^ 3 + p * s + q =
      (s - (u + v)) * ((s + (u + v) / 2) ^ 2 + 3 / 4 * (u - v) ^ 2) := by
    linear_combination (3 * s) * hprod + hu + hv
  have hpos : 0 < (s + (u + v) / 2) ^ 2 + 3 / 4 * (u - v) ^ 2 := by positivity
  rw [hfactor, mul_eq_zero, sub_eq_zero, or_iff_left hpos.ne']

/-- Three real roots take a negative linear term, so that the square roots are defined. -/
theorem neg_of_depressedDisc_neg (h : depressedDisc p q < 0) : p < 0 := by
  unfold depressedDisc at h
  by_contra hp
  have hcube : 0 ≤ p / 3 * (p / 3) * (p / 3) := by
    have : 0 ≤ p := not_lt.mp hp
    positivity
  linarith [mul_self_nonneg (q / 2)]

/-- The arc cosine is taken of a number between -1 and 1. -/
theorem abs_trigRatio_lt_one (h : depressedDisc p q < 0) : |trigRatio p q| < 1 := by
  have hp := neg_of_depressedDisc_neg h
  have hroot : √(-3 / p) ^ 2 = -3 / p := Real.sq_sqrt (div_nonneg_of_nonpos (by norm_num) hp.le)
  have hsq : trigRatio p q ^ 2 = 27 * q ^ 2 / (4 * -p ^ 3) := by
    rw [trigRatio, mul_pow, hroot]
    field_simp
    ring
  have hcube : 0 < 4 * -p ^ 3 := by
    have : 0 < (-p) ^ 3 := pow_pos (by linarith) 3
    linarith [Odd.neg_pow (by decide : Odd 3) p]
  rw [← sq_lt_one_iff_abs_lt_one, hsq, div_lt_one hcube]
  unfold depressedDisc at h
  linarith

/-- The angle of the first root is less than a third of half a turn, so going back by thirds
of a turn leads down to the second root and on to the third. -/
theorem trigRoot_descending (h : depressedDisc p q < 0) :
    trigRoot p q 1 < trigRoot p q 0 ∧ trigRoot p q 2 < trigRoot p q 1 := by
  have hp := neg_of_depressedDisc_neg h
  have hratio := abs_lt.mp (abs_trigRatio_lt_one h)
  have hamplitude : 0 < 2 * √(-p / 3) := by
    have : 0 < -p / 3 := by linarith
    positivity
  have hpos : 0 < Real.arccos (trigRatio p q) := Real.arccos_pos.mpr hratio.2
  have hlt : Real.arccos (trigRatio p q) < Real.pi :=
    lt_of_le_of_ne (Real.arccos_le_pi _) fun heq =>
      hratio.1.not_ge (Real.arccos_eq_pi.mp heq)
  unfold trigRoot
  generalize Real.arccos (trigRatio p q) = φ at *
  have hfirst : Real.cos (φ / 3 - 2 * Real.pi * 1 / 3) = Real.cos (2 * Real.pi / 3 - φ / 3) := by
    rw [← Real.cos_neg]
    ring_nf
  have hsecond : Real.cos (φ / 3 - 2 * Real.pi * 2 / 3) = Real.cos (2 * Real.pi / 3 + φ / 3) := by
    rw [← Real.cos_add_two_pi]
    ring_nf
  rw [hfirst, hsecond]
  constructor
  · refine mul_lt_mul_of_pos_left (Real.cos_lt_cos_of_nonneg_of_le_pi ?_ ?_ ?_) hamplitude <;>
      linarith
  · refine mul_lt_mul_of_pos_left (Real.cos_lt_cos_of_nonneg_of_le_pi ?_ ?_ ?_) hamplitude <;>
      linarith

/-- The three values are the roots, by the formula for the cosine of three times an angle. -/
theorem depressed_eq_mul (h : depressedDisc p q < 0) (s : ℝ) : s ^ 3 + p * s + q =
    (s - trigRoot p q 0) * (s - trigRoot p q 1) * (s - trigRoot p q 2) := by
  have hp := neg_of_depressedDisc_neg h
  have hratio := abs_lt.mp (abs_trigRatio_lt_one h)
  have hroot : √(-p / 3) ^ 2 = -p / 3 := Real.sq_sqrt (by linarith)
  -- The amplitude is chosen so that the constant term comes out.
  have hconst : √(-p / 3) * p * trigRatio p q = 3 / 2 * q := by
    have hmul : √(-p / 3) * √(-3 / p) = 1 := by
      have hone : -p / 3 * (-3 / p) = 1 := by
        field_simp [hp.ne]
      rw [← Real.sqrt_mul (by linarith), hone, Real.sqrt_one]
    have hcancel : p * (3 * q / (2 * p)) = 3 / 2 * q := by
      field_simp [hp.ne]
    unfold trigRatio
    linear_combination √(-p / 3) * √(-3 / p) * hcancel + 3 / 2 * q * hmul
  have htriple : 4 * Real.cos (Real.arccos (trigRatio p q) / 3) ^ 3 -
      3 * Real.cos (Real.arccos (trigRatio p q) / 3) = trigRatio p q := by
    rw [← Real.cos_three_mul, mul_div_cancel₀ _ three_ne_zero,
      Real.cos_arccos hratio.1.le hratio.2.le]
  have hpythagoras := Real.sin_sq_add_cos_sq (Real.arccos (trigRatio p q) / 3)
  unfold trigRoot
  generalize Real.arccos (trigRatio p q) / 3 = θ at *
  have hthird : Real.cos (2 * Real.pi / 3) = -1 / 2 ∧ Real.sin (2 * Real.pi / 3) = √3 / 2 := by
    rw [show 2 * Real.pi / 3 = Real.pi - Real.pi / 3 by ring, Real.cos_pi_sub, Real.sin_pi_sub,
      Real.cos_pi_div_three, Real.sin_pi_div_three]
    norm_num
  have hzero : θ - 2 * Real.pi * 0 / 3 = θ := by ring
  have hfirst : Real.cos (θ - 2 * Real.pi * 1 / 3) = -Real.cos θ / 2 + √3 / 2 * Real.sin θ := by
    rw [mul_one, Real.cos_sub, hthird.1, hthird.2]
    ring
  have hsecond : Real.cos (θ - 2 * Real.pi * 2 / 3) = -Real.cos θ / 2 - √3 / 2 * Real.sin θ := by
    rw [← Real.cos_add_two_pi, show θ - 2 * Real.pi * 2 / 3 + 2 * Real.pi = θ + 2 * Real.pi / 3 by ring,
      Real.cos_add, hthird.1, hthird.2]
    ring
  have hthree : √3 ^ 2 = 3 := Real.sq_sqrt (by norm_num)
  rw [hzero, hfirst, hsecond]
  generalize √(-p / 3) = m at *
  linear_combination (3 * s + 2 * m * trigRatio p q) * hroot +
    (3 * m ^ 2 * s - 6 * m ^ 3 * Real.cos θ) * hpythagoras +
    (m ^ 2 * s * Real.sin θ ^ 2 - 2 * m ^ 3 * Real.cos θ * Real.sin θ ^ 2) * hthree +
    2 * m ^ 3 * htriple - 2 / 3 * hconst

end

/-- The discriminant is zero, or so large beside the terms it is the sum of that the solver
does not take it for zero. -/
def Decided (disc scale : ℝ) : Prop := disc = 0 ∨ discriminantEpsilon * scale < |disc|

theorem Decided.le_iff {disc scale : ℝ} (h : Decided disc scale) (hscale : 0 ≤ scale) :
    |disc| ≤ discriminantEpsilon * scale ↔ disc = 0 := by
  have hband : 0 ≤ discriminantEpsilon * scale :=
    mul_nonneg (by norm_num [discriminantEpsilon]) hscale
  constructor
  · intro hle
    rcases h with h | h
    · exact h
    · exact absurd hle (not_le.mpr h)
  · rintro rfl
    simpa using hband

section
variable {a b c : ℝ}

theorem quadraticRoots_eq (a b c : ℝ) : quadraticRoots a b c =
    if |quadraticDisc a b c| ≤ discriminantEpsilon * quadraticScale a b c then [-b / (2 * a)]
    else if quadraticDisc a b c < 0 then []
    else [quadraticPivot a b c / a, c / quadraticPivot a b c] := by
  simp only [quadraticRoots, Scalar.abs_eq_abs, Scalar.greater_eq_max]
  rfl

theorem rootsOf_quadratic (ha : a ≠ 0) (h : Decided (quadraticDisc a b c) (quadraticScale a b c)) :
    RootsOf (fun t => a * t ^ 2 + b * t + c) (quadraticRoots a b c) := by
  have hscale : 0 ≤ quadraticScale a b c := le_max_of_le_left (mul_self_nonneg b)
  rw [quadraticRoots_eq]
  simp only [h.le_iff hscale]
  split_ifs with hzero hneg
  · refine .one fun t => ?_
    have ht : 4 * a * (a * t ^ 2 + b * t + c) = (2 * a * t + b) ^ 2 := by
      rw [four_mul_quadratic, hzero, sub_zero]
    have hiff : a * t ^ 2 + b * t + c = 0 ↔ 2 * a * t + b = 0 := by
      rw [← pow_eq_zero_iff (a := 2 * a * t + b) two_ne_zero, ← ht]
      simp [ha]
    rw [hiff, eq_div_iff (by simpa using ha)]
    constructor <;> intro h <;> linarith
  · refine .none fun t ht => ?_
    have := four_mul_quadratic a b c t
    rw [ht] at this
    nlinarith [sq_nonneg (2 * a * t + b)]
  · have hpos : 0 < quadraticDisc a b c := lt_of_le_of_ne (not_lt.mp hneg) (Ne.symm hzero)
    have hpivot := pivot_ne_zero hpos
    have hsum := sq_pivot hpos
    refine .two ha (fun t => ?_) (fun heq => ?_) ?_
    · field_simp
      linear_combination t * hsum
    · -- Equal roots would make the discriminant zero.
      rw [div_eq_div_iff ha hpivot] at heq
      have hdisc : (quadraticPivot a b c) ^ 2 * quadraticDisc a b c = 0 := by
        unfold quadraticDisc
        linear_combination (b * quadraticPivot a b c - quadraticPivot a b c ^ 2 - a * c) * hsum +
          (quadraticPivot a b c ^ 2 - c * a) * heq
      exact (mul_pos (by positivity) hpos).ne' hdisc
    · rw [abs_div, abs_div, div_le_div_iff₀ (abs_pos.mpr hpivot) (abs_pos.mpr ha), ← abs_mul,
        mul_comm c a, abs_mul_abs_self, ← sq]
      exact abs_mul_le_sq_pivot hpos

end

section
variable {p q : ℝ}

theorem depressedScale_nonneg (p q : ℝ) : 0 ≤ depressedScale p q :=
  le_max_of_le_left (mul_self_nonneg _)

theorem clamp_trigRatio (h : depressedDisc p q < 0) :
    Scalar.clamp (trigRatio p q) (-1) 1 = trigRatio p q := by
  have hratio := abs_lt.mp (abs_trigRatio_lt_one h)
  rw [Scalar.clamp, if_neg (not_lt.mpr hratio.1.le), if_neg (not_lt.mpr hratio.2.le)]

theorem depressedRoots_eq (p q shift : ℝ) : depressedRoots p q shift =
    if depressedScale p q = 0 then [shift]
    else if |depressedDisc p q| ≤ discriminantEpsilon * depressedScale p q then
      [2 * Exact.cbrt (-q / 2) + shift, -Exact.cbrt (-q / 2) + shift]
    else if 0 < depressedDisc p q then
      [Exact.cbrt (-q / 2 + √(depressedDisc p q)) + Exact.cbrt (-q / 2 - √(depressedDisc p q)) +
        shift]
    else [trigRoot p q 0 + shift, trigRoot p q 1 + shift, trigRoot p q 2 + shift] := by
  have hroot (k : ℝ) (h : depressedDisc p q < 0) :
      2 * √(-p / 3) * Real.cos (Real.arccos (Scalar.clamp (trigRatio p q) (-1) 1) / 3 -
        Scalar.tau * k / 3) = trigRoot p q k := by
    rw [clamp_trigRatio h]
    rfl
  simp only [depressedRoots, Scalar.abs_eq_abs, Scalar.greater_eq_max]
  change (if (depressedScale p q == 0) = true then _
    else if |depressedDisc p q| ≤ discriminantEpsilon * depressedScale p q then _
    else if 0 < depressedDisc p q then _ else _) = _
  simp only [beq_iff_eq]
  split_ifs with hscale hzero hpos
  · rfl
  · rfl
  · rfl
  · have hneg : depressedDisc p q < 0 := by
      refine lt_of_le_of_ne (not_lt.mp hpos) fun h => hzero ?_
      rw [h, abs_zero]
      exact mul_nonneg (by norm_num [discriminantEpsilon]) (depressedScale_nonneg p q)
    rw [← hroot 0 hneg, ← hroot 1 hneg, ← hroot 2 hneg]
    rfl

theorem rootsOf_depressed (shift : ℝ) (h : Decided (depressedDisc p q) (depressedScale p q)) :
    RootsOf (fun t => (t - shift) ^ 3 + p * (t - shift) + q) (depressedRoots p q shift) := by
  rw [depressedRoots_eq]
  simp only [h.le_iff (depressedScale_nonneg p q)]
  split_ifs with hscale hzero hpos
  · obtain ⟨rfl, rfl⟩ := depressedScale_eq_zero_iff.mp hscale
    exact .one fun t => by simp [sub_eq_zero]
  · have hp := eq_of_depressedDisc_eq_zero hzero
    have hu := Exact.cbrt_pow_three (-q / 2)
    generalize Exact.cbrt (-q / 2) = u at *
    have hne : u ≠ 0 := by
      rintro rfl
      exact hscale (depressedScale_eq_zero_iff.mpr ⟨by simpa using hp, by linarith⟩)
    refine .double one_ne_zero (fun t => ?_) fun heq => hne (by linarith)
    linear_combination (t - shift) * hp + 2 * hu
  · refine .one fun t => ?_
    rw [depressed_eq_zero_iff hpos, sub_eq_iff_eq_add]
  · have hneg : depressedDisc p q < 0 := lt_of_le_of_ne (not_lt.mp hpos) hzero
    obtain ⟨hfirst, hsecond⟩ := trigRoot_descending hneg
    refine .three one_ne_zero (fun t => ?_) (by linarith) (by linarith)
    rw [depressed_eq_mul hneg]
    ring

theorem rootsOf_cubic {a b c d : ℝ} (ha : a ≠ 0)
    (h : Decided (depressedDisc (depressedLinear a b c) (depressedConst a b c d))
      (depressedScale (depressedLinear a b c) (depressedConst a b c d))) :
    RootsOf (fun t => a * t ^ 3 + b * t ^ 2 + c * t + d) (cubicRoots a b c d) := by
  refine (rootsOf_depressed (-(b / a) / 3) h).const_mul ha fun t => ?_
  simp only [depressedLinear, depressedConst]
  field_simp
  ring

end

/-- The polynomial is not zero, none of its coefficients is negligible, and the discriminant
that decides the number of roots is not mistaken for zero. -/
structure WellConditioned (p : Cubic ℝ) : Prop where
  ne_zero : ∃ c ∈ p.coefficients, c ≠ 0
  significant : ∀ c ∈ p.coefficients, c ≠ 0 → coefficientEpsilon * p.magnitude ≤ |c|
  quadratic : p.c3 = 0 → p.c2 ≠ 0 →
    Decided (quadraticDisc p.c2 p.c1 p.c0) (quadraticScale p.c2 p.c1 p.c0)
  cubic : p.c3 ≠ 0 →
    Decided (depressedDisc (depressedLinear p.c3 p.c2 p.c1) (depressedConst p.c3 p.c2 p.c1 p.c0))
      (depressedScale (depressedLinear p.c3 p.c2 p.c1) (depressedConst p.c3 p.c2 p.c1 p.c0))

variable {p : Cubic ℝ}

theorem magnitude_eq (p : Cubic ℝ) : p.magnitude = max (max (max |p.c0| |p.c1|) |p.c2|) |p.c3| := by
  simp only [magnitude, coefficients, Scalar.magnitude, List.foldl_cons, List.foldl_nil,
    Scalar.greater_eq_max, Scalar.abs_eq_abs]
  rw [max_eq_right (abs_nonneg p.c0)]

theorem eval_eq (p : Cubic ℝ) (t : ℝ) :
    p.eval t = p.c3 * t ^ 3 + p.c2 * t ^ 2 + p.c1 * t + p.c0 := by
  unfold eval
  ring

namespace WellConditioned

theorem magnitude_pos (h : p.WellConditioned) : 0 < p.magnitude := by
  obtain ⟨c, hc, hne⟩ := h.ne_zero
  refine (abs_pos.mpr hne).trans_le ?_
  simp only [coefficients, List.mem_cons, List.not_mem_nil, or_false] at hc
  rw [magnitude_eq]
  rcases hc with rfl | rfl | rfl | rfl <;> simp

theorem flush_eq (h : p.WellConditioned) : p.flush = p := by
  have hkept (c : ℝ) (hc : c ∈ p.coefficients) :
      (if Scalar.abs c < coefficientEpsilon * p.magnitude then 0 else c) = c := by
    rw [Scalar.abs_eq_abs]
    split_ifs with hlt
    · by_contra hne
      exact hlt.not_ge (h.significant c hc (Ne.symm hne))
    · rfl
  ext
  · exact hkept p.c0 (by simp [coefficients])
  · exact hkept p.c1 (by simp [coefficients])
  · exact hkept p.c2 (by simp [coefficients])
  · exact hkept p.c3 (by simp [coefficients])

theorem rootsOf (h : p.WellConditioned) : RootsOf p.eval p.rootsByDegree := by
  unfold rootsByDegree
  simp only [Bool.not_eq_true', beq_eq_false_iff_ne]
  split_ifs with h3 h2 h1
  · rw [funext p.eval_eq]
    exact rootsOf_cubic h3 (h.cubic h3)
  · rw [not_not] at h3
    rw [funext p.eval_eq]
    simp only [h3, zero_mul, zero_add]
    exact rootsOf_quadratic h2 (h.quadratic h3 h2)
  · rw [not_not] at h3 h2
    refine .one fun t => ?_
    rw [eval_eq, h3, h2, eq_div_iff h1]
    constructor <;> intro ht <;> linarith
  · rw [not_not] at h3 h2 h1
    obtain ⟨c, hc, hne⟩ := h.ne_zero
    refine .none fun t => ?_
    rw [eval_eq, h3, h2, h1]
    simp only [coefficients, h3, h2, h1, List.mem_cons, List.not_mem_nil, or_false] at hc
    rcases hc with rfl | hc
    · simpa using hne
    · exact absurd (by simpa using hc) hne

end WellConditioned

end Cubic

end Drafting
