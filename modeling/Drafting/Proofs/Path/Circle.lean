import Mathlib.Analysis.SpecialFunctions.Trigonometric.Basic
import Drafting.Proofs.Path.Apart
import Drafting.Shape

/-!
# The circle of eight pieces

The pieces of the unit circle are those of its first quarter and what three quarter turns make
of them, and within a quarter the second piece mirrors the first one, run through backwards. So
what is to be known about the circle is known from two polynomials, the coordinates of the first
piece. One has no root near the piece, the other one a root at its start.

Seen along an axis every piece is again a piece of the circle, so a line along an axis through
the centre meets it in the ends of the two pieces that lie on the line, and nowhere else.
-/

namespace Drafting

variable [ExactTables]

namespace Shape

/-- The cosine and the sine of an eighth of a turn. -/
noncomputable def diag : ℝ := √2 / 2

theorem diag_gt : 0.70710678 < diag := by
  have h : (1.41421356 : ℝ) < √2 := Real.lt_sqrt_of_sq_lt (by norm_num)
  rw [diag]
  linarith

theorem diag_lt : diag < 0.70710679 := by
  have h : √2 < (1.41421358 : ℝ) := (Real.sqrt_lt' (by norm_num)).mpr (by norm_num)
  rw [diag]
  linarith

end Shape

open Shape

namespace Shape

/-- The first coordinate along the first piece, which starts in the east. -/
noncomputable def across : Cubic ℝ := Piece.bezier 1 1 (diag + diag * kappa) diag

/-- The second coordinate along the first piece. -/
noncomputable def up : Cubic ℝ := Piece.bezier 0 kappa (diag - diag * kappa) diag

theorem kappa_eq : (kappa : ℝ) = 0.265216489839544 := rfl

theorem across_c0 : across.c0 = 1 := rfl

theorem across_c1 : across.c1 = 0 := by
  simp [across, Piece.bezier]

theorem across_bounds : (-0.3161 ≤ across.c2 ∧ across.c2 ≤ -0.3160) ∧
    0.0231 ≤ across.c3 ∧ across.c3 ≤ 0.0232 := by
  have hlow := diag_gt
  have hhigh := diag_lt
  have h2 : across.c2 = 3 * (diag + diag * 0.265216489839544 - 1) := by
    simp [across, Piece.bezier, kappa_eq]
  have h3 : across.c3 = diag - 1 - 3 * (diag + diag * 0.265216489839544 - 1) := by
    simp [across, Piece.bezier, kappa_eq]
  rw [h2, h3]
  refine ⟨⟨?_, ?_⟩, ?_, ?_⟩ <;> linarith

theorem up_c0 : up.c0 = 0 := rfl

theorem up_bounds : (0.7956 ≤ up.c1 ∧ up.c1 ≤ 0.7957) ∧ (-0.0326 ≤ up.c2 ∧ up.c2 ≤ -0.0325) ∧
    -0.0560 ≤ up.c3 ∧ up.c3 ≤ -0.0559 := by
  have hlow := diag_gt
  have hhigh := diag_lt
  have h1 : up.c1 = 3 * 0.265216489839544 := by
    simp [up, Piece.bezier, kappa_eq]
  have h2 : up.c2 = 3 * (diag - diag * 0.265216489839544) - 6 * 0.265216489839544 := by
    simp [up, Piece.bezier, kappa_eq]
  have h3 : up.c3 = diag - 3 * (diag - diag * 0.265216489839544) + 3 * 0.265216489839544 := by
    simp [up, Piece.bezier, kappa_eq]
  rw [h1, h2, h3]
  refine ⟨⟨?_, ?_⟩, ⟨?_, ?_⟩, ?_, ?_⟩ <;> linarith

/-- Both polynomials have three roots, as the bounds of the coefficients show. -/
theorem apart_across : across.Apart := by
  obtain ⟨⟨hlow2, hhigh2⟩, hlow3, hhigh3⟩ := across_bounds
  have hlinear : across.linearInvariant = across.c2 ^ 2 := by
    rw [Cubic.linearInvariant, across_c1]
    ring
  have hconst : across.constInvariant = 2 * across.c2 ^ 3 + 27 * across.c3 ^ 2 := by
    rw [Cubic.constInvariant, across_c1, across_c0]
    ring
  have hsq : 0.0998 ≤ across.c2 ^ 2 := by nlinarith
  have hcube : -0.0317 ≤ across.c2 ^ 3 ∧ across.c2 ^ 3 ≤ -0.0315 := ⟨by nlinarith, by nlinarith⟩
  have hsq3 : 0.0005 ≤ across.c3 ^ 2 ∧ across.c3 ^ 2 ≤ 0.0006 := ⟨by nlinarith, by nlinarith⟩
  refine ⟨by linarith, by linarith, ?_⟩
  rw [hlinear, hconst]
  calc (2 * across.c2 ^ 3 + 27 * across.c3 ^ 2) ^ 2 ≤ 0.05 ^ 2 :=
        sq_le_sq' (by linarith) (by linarith)
    _ ≤ 3 * 0.0998 ^ 3 := by norm_num
    _ ≤ 3 * (across.c2 ^ 2) ^ 3 := by gcongr

theorem apart_up : up.Apart := by
  obtain ⟨⟨hlow1, hhigh1⟩, ⟨hlow2, hhigh2⟩, hlow3, hhigh3⟩ := up_bounds
  have hprod : -0.045 ≤ up.c3 * up.c1 ∧ up.c3 * up.c1 ≤ -0.044 := ⟨by nlinarith, by nlinarith⟩
  have hlinear : 0.13 ≤ up.linearInvariant := by
    rw [Cubic.linearInvariant]
    nlinarith
  have hconst : up.constInvariant = up.c2 * (2 * up.c2 ^ 2 - 9 * (up.c3 * up.c1)) := by
    rw [Cubic.constInvariant, up_c0]
    ring
  have hfactor : 0 ≤ 2 * up.c2 ^ 2 - 9 * (up.c3 * up.c1) ∧
      2 * up.c2 ^ 2 - 9 * (up.c3 * up.c1) ≤ 0.5 := ⟨by nlinarith, by nlinarith⟩
  have hbound : up.constInvariant ^ 2 ≤ 0.05 ^ 2 := by
    rw [hconst]
    exact sq_le_sq' (by nlinarith) (by nlinarith)
  refine ⟨by linarith, by linarith, hbound.trans ?_⟩
  calc (0.05 : ℝ) ^ 2 ≤ 3 * 0.13 ^ 3 := by norm_num
    _ ≤ 3 * up.linearInvariant ^ 3 := by gcongr

theorem regular_across : across.Regular where
  apart := apart_across
  moderate := by
    obtain ⟨⟨hlow2, hhigh2⟩, hlow3, hhigh3⟩ := across_bounds
    simp only [Cubic.coefficients, List.forall_mem_cons, across_c0]
    exact ⟨.inr (.of_pos (by norm_num) le_rfl), .inl across_c1,
      .inr (.of_neg (by linarith) (by linarith)), .inr (.of_pos (by linarith) (by linarith)),
      by simp⟩
  half_le := ⟨across.c0, by simp [Cubic.coefficients], by norm_num [across_c0]⟩

theorem regular_reverse_across : across.reverse.Regular where
  apart := apart_across.reverse
  moderate := by
    obtain ⟨⟨hlow2, hhigh2⟩, hlow3, hhigh3⟩ := across_bounds
    simp only [Cubic.coefficients, Cubic.reverse, List.forall_mem_cons, across_c0, across_c1]
    exact ⟨.inr (.of_pos (by linarith) (by linarith)), .inr (.of_pos (by linarith) (by linarith)),
      .inr (.of_neg (by linarith) (by linarith)), .inr (.of_neg (by linarith) (by linarith)),
      by simp⟩
  half_le := by
    obtain ⟨⟨hlow2, hhigh2⟩, hlow3, hhigh3⟩ := across_bounds
    refine ⟨across.reverse.c0, by simp [Cubic.coefficients], le_abs.mpr (.inl ?_)⟩
    simp only [Cubic.reverse, across_c0, across_c1]
    linarith

theorem regular_up : up.Regular where
  apart := apart_up
  moderate := by
    obtain ⟨⟨hlow1, hhigh1⟩, ⟨hlow2, hhigh2⟩, hlow3, hhigh3⟩ := up_bounds
    simp only [Cubic.coefficients, List.forall_mem_cons]
    exact ⟨.inl up_c0, .inr (.of_pos (by linarith) (by linarith)),
      .inr (.of_neg (by linarith) (by linarith)), .inr (.of_neg (by linarith) (by linarith)),
      by simp⟩
  half_le := by
    obtain ⟨⟨hlow1, hhigh1⟩, -⟩ := up_bounds
    exact ⟨up.c1, by simp [Cubic.coefficients], le_abs.mpr (.inl (by linarith))⟩

theorem regular_reverse_up : up.reverse.Regular where
  apart := apart_up.reverse
  moderate := by
    obtain ⟨⟨hlow1, hhigh1⟩, ⟨hlow2, hhigh2⟩, hlow3, hhigh3⟩ := up_bounds
    simp only [Cubic.coefficients, Cubic.reverse, List.forall_mem_cons, up_c0]
    exact ⟨.inr (.of_pos (by linarith) (by linarith)), .inr (.of_neg (by linarith) (by linarith)),
      .inr (.of_neg (by linarith) (by linarith)), .inr (.of_pos (by linarith) (by linarith)),
      by simp⟩
  half_le := by
    obtain ⟨⟨hlow1, hhigh1⟩, ⟨hlow2, hhigh2⟩, hlow3, hhigh3⟩ := up_bounds
    refine ⟨up.reverse.c0, by simp [Cubic.coefficients], le_abs.mpr (.inl ?_)⟩
    simp only [Cubic.reverse, up_c0]
    linarith

end Shape

namespace Line

/-- What a line takes for a parameter of a piece. -/
def parameterRange : Set ℝ := Set.Icc (-1e-6) (1 + 1e-6)

theorem mirror_mem_parameterRange {t : ℝ} (ht : t ∈ parameterRange) : 1 - t ∈ parameterRange := by
  obtain ⟨hlow, hhigh⟩ := ht
  constructor <;> linarith

theorem Icc_subset_parameterRange : Set.Icc 0 1 ⊆ parameterRange :=
  Set.Icc_subset_Icc (by norm_num) (by norm_num)

end Line

open Line (parameterRange)

namespace Shape

section
variable {t : ℝ}

theorem across_eval_pos (ht : t ∈ parameterRange) : 0.6 ≤ across.eval t := by
  obtain ⟨hlow, hhigh⟩ := ht
  obtain ⟨⟨hlow2, hhigh2⟩, hlow3, hhigh3⟩ := across_bounds
  have hsq : t ^ 2 ≤ 1.01 := by nlinarith
  have hfactor : -0.32 ≤ across.c2 + across.c3 * t := by nlinarith
  have heval : across.eval t = 1 + t ^ 2 * (across.c2 + across.c3 * t) := by
    rw [Cubic.eval_eq, across_c0, across_c1]
    ring
  rw [heval]
  nlinarith [sq_nonneg t]

theorem up_eval_eq (t : ℝ) : up.eval t = t * ((up.c3 * t + up.c2) * t + up.c1) := by
  rw [Cubic.eval_eq, up_c0]
  ring

theorem up_factor_pos (ht : t ∈ parameterRange) : 0.6 ≤ (up.c3 * t + up.c2) * t + up.c1 := by
  obtain ⟨hlow, hhigh⟩ := ht
  obtain ⟨⟨hlow1, hhigh1⟩, ⟨hlow2, hhigh2⟩, hlow3, hhigh3⟩ := up_bounds
  have hslope : -0.09 ≤ up.c3 * t + up.c2 ∧ up.c3 * t + up.c2 ≤ 0 := ⟨by nlinarith, by nlinarith⟩
  nlinarith

theorem eq_zero_of_up_eval (ht : t ∈ parameterRange) (h : up.eval t = 0) : t = 0 := by
  have hfactor := up_factor_pos ht
  rw [up_eval_eq] at h
  exact (mul_eq_zero.mp h).resolve_right (by linarith)

/-- The first piece turns left around the centre. -/
theorem sweep_pos (ht : t ∈ Set.Icc (0 : ℝ) 1) :
    0.3 ≤ across.eval t * up.derivative t - up.eval t * across.derivative t := by
  have hrange : t ∈ parameterRange := Line.Icc_subset_parameterRange ht
  obtain ⟨h0, h1⟩ := ht
  have hacross := across_eval_pos hrange
  have hup : 0 ≤ up.eval t := by
    rw [up_eval_eq]
    exact mul_nonneg h0 (by linarith [up_factor_pos hrange])
  have hback : across.derivative t ≤ 0 := by
    obtain ⟨⟨hlow2, hhigh2⟩, hlow3, hhigh3⟩ := across_bounds
    have hslope : 3 * across.c3 * t + 2 * across.c2 ≤ 0 := by nlinarith
    rw [Cubic.derivative, across_c1, add_zero]
    exact mul_nonpos_of_nonpos_of_nonneg hslope h0
  have hforth : 0.5 ≤ up.derivative t := by
    obtain ⟨⟨hlow1, hhigh1⟩, ⟨hlow2, hhigh2⟩, hlow3, hhigh3⟩ := up_bounds
    have hslope : -0.25 ≤ 3 * up.c3 * t + 2 * up.c2 := by nlinarith
    rw [Cubic.derivative]
    nlinarith
  nlinarith

end

end Shape

theorem Cubic.eval_zero (p : Cubic ℝ) : p.eval 0 = p.c0 := by
  simp [eval]

theorem Cubic.eval_scale (k : ℝ) (p : Cubic ℝ) (t : ℝ) : (p.scale k).eval t = k * p.eval t := by
  simp only [eval, scale, map]
  ring

theorem Cubic.derivative_scale (k : ℝ) (p : Cubic ℝ) (t : ℝ) :
    (p.scale k).derivative t = k * p.derivative t := by
  simp only [derivative, scale, map]
  ring

def Point.turn (p : Point ℝ) : Point ℝ := ⟨-p.y, p.x⟩

namespace Piece

noncomputable def turn (P : Piece ℝ) : Piece ℝ := ⟨P.y.scale (-1), P.x⟩

theorem eval_turn (P : Piece ℝ) (t : ℝ) : P.turn.eval t = (P.eval t).turn := by
  simp [eval, turn, Point.turn, Cubic.eval_scale]

end Piece

namespace Shape

noncomputable def first : Piece ℝ := ⟨across, up⟩

/-- The piece of the second eighth, which mirrors the first one backwards. -/
noncomputable def second : Piece ℝ := ⟨up.reverse, across.reverse⟩

noncomputable def quarter : List (Piece ℝ) := [first, second]

noncomputable def eighths : List (Piece ℝ) :=
  (List.range 4).flatMap fun k => quarter.map Piece.turn^[k]

theorem exists_of_mem_eighths {P : Piece ℝ} (h : P ∈ eighths) :
    ∃ Q ∈ quarter, ∃ k, Piece.turn^[k] Q = P := by
  obtain ⟨k, -, hP⟩ := List.mem_flatMap.mp h
  obtain ⟨Q, hQ, rfl⟩ := List.mem_map.mp hP
  exact ⟨Q, hQ, k, rfl⟩

theorem mem_eighths {Q : Piece ℝ} (hQ : Q ∈ quarter) {k : ℕ} (hk : k < 4) :
    Piece.turn^[k] Q ∈ eighths :=
  List.mem_flatMap.mpr ⟨k, List.mem_range.mpr hk, List.mem_map_of_mem hQ⟩

end Shape

/-- The second coordinate is zero at an end only, and there the distance from the centre is one. -/
structure Piece.CutsAxis (P : Piece ℝ) : Prop where
  regular : P.y.Regular
  cut : ∀ t ∈ parameterRange, P.y.eval t = 0 → (t = 0 ∨ t = 1) ∧ |P.x.eval t| = 1

namespace Piece

theorem CutsAxis.half_turn {P : Piece ℝ} (h : P.CutsAxis) : P.turn.turn.CutsAxis where
  regular := h.regular.neg
  cut t ht hzero := by
    simp only [turn, Cubic.eval_scale, neg_one_mul, neg_eq_zero, abs_neg] at hzero ⊢
    exact h.cut t ht hzero

theorem cutsAxis_first : first.CutsAxis where
  regular := regular_up
  cut t ht hzero := by
    obtain rfl := eq_zero_of_up_eval ht hzero
    simp [first, Cubic.eval_zero, across_c0]

theorem cutsAxis_second : second.CutsAxis where
  regular := regular_reverse_across
  cut t ht hzero := by
    have hpos := across_eval_pos (Line.mirror_mem_parameterRange ht)
    rw [second, Cubic.eval_reverse] at hzero
    linarith

theorem cutsAxis_first_turn : first.turn.CutsAxis where
  regular := regular_across
  cut t ht hzero := by
    have hpos := across_eval_pos ht
    exact absurd hzero (by simp only [turn, first]; linarith)

theorem cutsAxis_second_turn : second.turn.CutsAxis where
  regular := regular_reverse_up
  cut t ht hzero := by
    simp only [turn, second, Cubic.eval_reverse] at hzero
    have h := eq_zero_of_up_eval (Line.mirror_mem_parameterRange ht) hzero
    obtain rfl : t = 1 := by linarith
    simp only [turn, second, Cubic.eval_scale, Cubic.eval_reverse, sub_self, Cubic.eval_zero,
      across_c0]
    simp

/-- By induction on the turns, two at a time: they only change signs. -/
theorem cutsAxis_turns {Q : Piece ℝ} (hQ : Q ∈ quarter) (k : ℕ) : (turn^[k] Q).CutsAxis := by
  induction k using Nat.twoStepInduction with
  | zero =>
    rcases List.mem_pair.mp hQ with rfl | rfl
    · exact cutsAxis_first
    · exact cutsAxis_second
  | one =>
    rcases List.mem_pair.mp hQ with rfl | rfl
    · exact cutsAxis_first_turn
    · exact cutsAxis_second_turn
  | more k ih _ =>
    rw [Function.iterate_succ_apply', Function.iterate_succ_apply']
    exact ih.half_turn

end Piece

/-- The unit vectors along the axes. -/
inductive Offset.IsAxis : Offset ℝ → Prop
  | east : IsAxis ⟨1, 0⟩
  | north : IsAxis ⟨0, 1⟩
  | west : IsAxis ⟨-1, 0⟩
  | south : IsAxis ⟨0, -1⟩

namespace Offset.IsAxis

variable {d : Offset ℝ}

theorem norm_eq (h : d.IsAxis) : d.norm = 1 := by
  have hsq : d.dx * d.dx + d.dy * d.dy = 1 := by
    cases h <;> norm_num
  change √(d.dx * d.dx + d.dy * d.dy) = 1
  rw [hsq, Real.sqrt_one]

/-- Seen along the direction a piece is, turned a few times, again a piece of the circle. -/
theorem exists_turns (h : d.IsAxis) : ∃ k, ∀ P : Piece ℝ,
    (Piece.turn^[k] P).y = Line.implicit d P ∧
    ∀ t, (Piece.turn^[k] P).x.eval t = -(d.dx * P.x.eval t + d.dy * P.y.eval t) := by
  cases h with
  | east =>
    refine ⟨2, fun P => ⟨?_, fun t => ?_⟩⟩
    · ext <;> simp [Piece.turn, Line.implicit, Cubic.scale, Cubic.map]
    · simp [Piece.turn, Cubic.eval_scale]
  | north =>
    refine ⟨1, fun P => ⟨?_, fun t => ?_⟩⟩
    · ext <;> simp [Piece.turn, Line.implicit]
    · simp [Piece.turn, Cubic.eval_scale]
  | west =>
    refine ⟨0, fun P => ⟨?_, fun t => ?_⟩⟩
    · ext <;> simp [Line.implicit]
    · simp
  | south =>
    refine ⟨3, fun P => ⟨?_, fun t => ?_⟩⟩
    · ext <;> simp [Piece.turn, Line.implicit, Cubic.scale, Cubic.map]
    · simp [Piece.turn, Cubic.eval_scale (-1) (P.y.scale (-1)), Cubic.eval_scale (-1) P.y]

/-- A line along an axis through the centre meets the circle at the ends of the direction. -/
theorem cuts (h : d.IsAxis) {P : Piece ℝ} (hP : P ∈ eighths) :
    (Line.implicit d P).Regular ∧ ∀ t ∈ parameterRange, (Line.implicit d P).eval t = 0 →
      (t = 0 ∨ t = 1) ∧ |d.dx * P.x.eval t + d.dy * P.y.eval t| = 1 := by
  obtain ⟨Q, hQ, j, rfl⟩ := exists_of_mem_eighths hP
  obtain ⟨k, hk⟩ := h.exists_turns
  obtain ⟨hy, hx⟩ := hk (Piece.turn^[j] Q)
  have hcuts := Piece.cutsAxis_turns hQ (k + j)
  rw [Function.iterate_add_apply] at hcuts
  refine ⟨hy ▸ hcuts.regular, fun t ht hzero => ?_⟩
  rw [← abs_neg, ← hx]
  exact hcuts.cut t ht (hy ▸ hzero)

theorem exists_turns_east (h : d.IsAxis) :
    ∃ k < 4, Point.turn^[k] ⟨1, 0⟩ = (⟨d.dx, d.dy⟩ : Point ℝ) := by
  cases h with
  | east => exact ⟨0, by norm_num, rfl⟩
  | north => exact ⟨1, by norm_num, by simp [Point.turn]⟩
  | west => exact ⟨2, by norm_num, by simp [Point.turn]⟩
  | south => exact ⟨3, by norm_num, by simp [Point.turn]⟩

theorem exists_start (h : d.IsAxis) : ∃ P ∈ eighths, P.eval 0 = (⟨d.dx, d.dy⟩ : Point ℝ) := by
  obtain ⟨k, hk, hturns⟩ := h.exists_turns_east
  have hstart : first.eval 0 = (⟨1, 0⟩ : Point ℝ) := by
    simp [Piece.eval, first, Cubic.eval_zero, across_c0, up_c0]
  have hsemi : Function.Semiconj (fun P : Piece ℝ => P.eval 0) Piece.turn Point.turn :=
    fun P => P.eval_turn 0
  refine ⟨_, mem_eighths List.mem_cons_self hk, ?_⟩
  rw [← hturns, ← hstart]
  exact hsemi.iterate_right k first

end Offset.IsAxis

end Drafting
