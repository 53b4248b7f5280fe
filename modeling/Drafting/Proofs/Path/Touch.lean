import Mathlib.Tactic.FieldSimp
import Mathlib.Tactic.Linarith
import Drafting.Proofs.Exact
import Drafting.Proofs.Path.Merging

/-!
# Where a line touches straight pieces

The polynomial of a straight piece is linear. Its root tells where the line meets the
line of the piece, and the piece answers with a point of its own: none when the root is
too far outside the range from 0 to 1, an end when it is just outside, and the start
when the polynomial is negligible there.

The crossings of a path are these points, one piece after the other, without the ones
that are close to an earlier one. Points far apart do not hinder each other, so the
crossings on one side of a gap are found from the points on that side.
-/

namespace Drafting

variable [ExactTables]

namespace Cubic

theorem magnitude_linear (k m : ℝ) : magnitude ⟨k, m, 0, 0⟩ = max |k| |m| := by
  simp only [magnitude, coefficients, Scalar.magnitude, List.foldl_cons, List.foldl_nil,
    Scalar.greater_eq_max, Scalar.abs_eq_abs]
  simp

/-- A coefficient that is negligible beside the other one counts as zero. -/
theorem roots_linear {k m : ℝ} (h : 0 < max |k| |m|) :
    roots ⟨k, m, 0, 0⟩ = .ok (if |m| < 1e-12 * max |k| |m| then []
      else [-(if |k| < 1e-12 * max |k| |m| then 0 else k) / m]) := by
  have hflush : flush ⟨k, m, 0, 0⟩ = ⟨if |k| < 1e-12 * max |k| |m| then 0 else k,
      if |m| < 1e-12 * max |k| |m| then 0 else m, 0, 0⟩ := by
    simp only [flush, map, magnitude_linear, Scalar.abs_eq_abs, coefficientEpsilon]
    simp
  have hsize : ¬ (max |k| |m| == 0) = true := by simpa using h.ne'
  rw [roots, magnitude_linear, if_neg hsize, hflush]
  generalize (if |k| < 1e-12 * max |k| |m| then 0 else k) = k'
  by_cases hm : |m| < 1e-12 * max |k| |m|
  · simp [hm, rootsByDegree, mergeClose]
  · have hne : m ≠ 0 := by
      rintro rfl
      rw [abs_zero] at hm h
      exact hm (by positivity)
    simp [hm, hne, rootsByDegree, mergeClose, Scalar.isFinite]

end Cubic

/-- The polynomial `k + m t` has the root `r`, and a piece answers for it with its point at
the parameter `t`. -/
structure LinearAnswer (k m r t : ℝ) : Prop where
  slope : m ≠ 0
  root : k + r * m = 0
  param : |r| < 1e-12 ∧ t = 0 ∨ r ∈ Set.Icc (-1e-6 : ℝ) (1 + 1e-6) ∧ t = max 0 (min r 1)

noncomputable def linearAnswers (k m : ℝ) : List ℝ :=
  let found := if |m| < 1e-12 * max |k| |m| then []
    else [-(if |k| < 1e-12 * max |k| |m| then 0 else k) / m]
  (found.filter fun r => Scalar.within r (-Line.parameterTolerance) (1 + Line.parameterTolerance)).map
    fun r => max 0 (min r 1)

theorem abs_lt_of_negligible {k m : ℝ} (hpos : 0 < max |k| |m|)
    (h : |k| < 1e-12 * max |k| |m|) : |k| < 1e-12 * |m| := by
  rcases le_total |k| |m| with hle | hle
  · rwa [max_eq_right hle] at h
  · rw [max_eq_left hle] at h hpos
    linarith

theorem linearAnswer_of_mem {k m t : ℝ} (hpos : 0 < max |k| |m|) (ht : t ∈ linearAnswers k m) :
    ∃ r, LinearAnswer k m r t := by
  obtain ⟨r, hr, rfl⟩ := List.mem_map.mp ht
  obtain ⟨hr, hrange⟩ := List.mem_filter.mp hr
  by_cases hflat : |m| < 1e-12 * max |k| |m|
  · rw [if_pos hflat] at hr
    cases hr
  · have hne : m ≠ 0 := by
      rintro rfl
      rw [abs_zero] at hflat hpos
      exact hflat (by positivity)
    have hroot : k + -k / m * m = 0 := by
      field_simp
      ring
    rw [if_neg hflat, List.mem_singleton] at hr
    refine ⟨-k / m, hne, hroot, ?_⟩
    split_ifs at hr with hstart
    · left
      rw [neg_zero, zero_div] at hr
      refine ⟨?_, by simp [hr]⟩
      rw [abs_div, abs_neg, div_lt_iff₀ (abs_pos.mpr hne)]
      exact abs_lt_of_negligible hpos hstart
    · right
      rw [← hr]
      exact ⟨Scalar.within_iff.mp hrange, rfl⟩

/-- A root in the range is answered. -/
theorem linearAnswers_ne_nil {k m r : ℝ} (hslope : m ≠ 0) (hroot : k + r * m = 0)
    (hr : r ∈ Set.Icc (0 : ℝ) 1) : linearAnswers k m ≠ [] := by
  -- The root is at most one, so the polynomial is not flat.
  have hk : |k| ≤ |m| := by
    rw [show k = -(r * m) by linarith, abs_neg, abs_mul, abs_of_nonneg hr.1]
    exact mul_le_of_le_one_left (abs_nonneg m) hr.2
  have hflat : ¬ |m| < 1e-12 * max |k| |m| := by
    have hm := abs_pos.mpr hslope
    rw [max_eq_right hk]
    linarith
  have hfound : -(if |k| < 1e-12 * max |k| |m| then 0 else k) / m ∈ Set.Icc (0 : ℝ) 1 := by
    split_ifs
    · simp
    · rwa [show -k / m = r by field_simp; linarith]
  have hrange : Scalar.within (-(if |k| < 1e-12 * max |k| |m| then 0 else k) / m)
      (-Line.parameterTolerance) (1 + Line.parameterTolerance) = true :=
    Scalar.within_iff.mpr (Set.Icc_subset_Icc (by norm_num [Line.parameterTolerance])
      (by norm_num [Line.parameterTolerance]) hfound)
  simp only [linearAnswers, if_neg hflat, List.filter_singleton, hrange]
  exact List.cons_ne_nil _ _

namespace LinearAnswer

variable {k m r t : ℝ}

theorem mem_Icc (h : LinearAnswer k m r t) : t ∈ Set.Icc (0 : ℝ) 1 := by
  rcases h.param with ⟨-, rfl⟩ | ⟨-, rfl⟩
  · exact ⟨le_rfl, zero_le_one⟩
  · exact ⟨le_max_left _ _, max_le zero_le_one (min_le_right _ _)⟩

/-- The answer is close to the root. -/
theorem abs_sub_le (h : LinearAnswer k m r t) : |t - r| ≤ 1e-6 := by
  rcases h.param with ⟨hr, rfl⟩ | ⟨⟨hlow, hhigh⟩, rfl⟩
  · rw [zero_sub, abs_neg]
    linarith
  · rw [abs_le]
    rcases le_total r 1 with h1 | h1
    · rcases le_total r 0 with h0 | h0
      · rw [min_eq_left h1, max_eq_left h0]
        constructor <;> linarith
      · rw [min_eq_left h1, max_eq_right h0]
        constructor <;> linarith
    · rw [min_eq_right h1, max_eq_right zero_le_one]
      constructor <;> linarith

/-- A root that does not miss the range narrowly is in the range, and the answer is the
root itself or negligibly close to it. -/
theorem of_not_near (h : LinearAnswer k m r t)
    (hclear : r ∉ Set.Ico (-1e-6 : ℝ) 0 ∪ Set.Ioc 1 (1 + 1e-6)) :
    r ∈ Set.Icc (0 : ℝ) 1 ∧ |t - r| ≤ 1e-12 := by
  simp only [Set.mem_union, Set.mem_Ico, Set.mem_Ioc, not_or, not_and, not_lt, not_le] at hclear
  rcases h.param with ⟨hr, rfl⟩ | ⟨⟨hlow, hhigh⟩, rfl⟩
  · rw [abs_lt] at hr
    have h0 : 0 ≤ r := hclear.1 (by linarith)
    refine ⟨⟨h0, by linarith⟩, ?_⟩
    rw [zero_sub, abs_neg, abs_of_nonneg h0]
    exact hr.2.le
  · have h0 : 0 ≤ r := hclear.1 hlow
    have h1 : r ≤ 1 := by
      by_contra hgt
      exact (hclear.2 (not_le.mp hgt)).not_ge hhigh
    refine ⟨⟨h0, h1⟩, ?_⟩
    rw [min_eq_left h1, max_eq_right h0, sub_self, abs_zero]
    norm_num

end LinearAnswer

theorem Piece.eval_line (a b : Point ℝ) (t : ℝ) : (line a b).eval t = a + (b - a) * t := by
  ext
  · simp only [eval, line, Cubic.eval, Point.add_x, Offset.mul_dx, Point.sub_dx]
    ring
  · simp only [eval, line, Cubic.eval, Point.add_y, Offset.mul_dy, Point.sub_dy]
    ring

namespace Line

/-- The equation of the line. It is positive to the right of the direction. -/
noncomputable def side (l : Line ℝ) (p : Point ℝ) : ℝ :=
  l.direction.dy * (p.x - l.point.x) - l.direction.dx * (p.y - l.point.y)

/-- The line runs along the edge from `a` to `b`, as far as the solver can tell: the
equation is negligible at both ends beside the coordinates that it is made from. -/
def Covers (l : Line ℝ) (a b : Point ℝ) : Prop :=
  max |l.side a| |l.side b - l.side a| ≤ 1e-12 * (l.direction.norm *
    max (max |a.x - l.point.x| |b.x - a.x|) (max |a.y - l.point.y| |b.y - a.y|))

noncomputable def touches (l : Line ℝ) (a b : Point ℝ) : List (Point ℝ) :=
  (linearAnswers (l.side a) (l.side b - l.side a)).map fun t => a + (b - a) * t

variable {l : Line ℝ} {a b : Point ℝ}

theorem implicit_line (l : Line ℝ) (a b : Point ℝ) :
    implicit l.direction ((Piece.line a b).relativeTo l.point) =
      ⟨l.side a, l.side b - l.side a, 0, 0⟩ := by
  ext
  · rfl
  · simp only [implicit, Piece.relativeTo, Piece.line, side]
    ring
  · simp [implicit, Piece.relativeTo, Piece.line]
  · simp [implicit, Piece.relativeTo, Piece.line]

theorem magnitude_line (a b c : Point ℝ) :
    Scalar.magnitude ((Piece.line a b).relativeTo c).coefficients =
      max (max |a.x - c.x| |b.x - a.x|) (max |a.y - c.y| |b.y - a.y|) := by
  simp only [Piece.coefficients, Piece.relativeTo, Piece.line, Cubic.coefficients,
    List.cons_append, List.nil_append, Scalar.magnitude, List.foldl_cons, List.foldl_nil,
    Scalar.greater_eq_max, Scalar.abs_eq_abs]
  simp [max_assoc]

theorem covers_iff : l.Covers a b ↔
    (implicit l.direction ((Piece.line a b).relativeTo l.point)).magnitude ≤
      Cubic.coefficientEpsilon *
        (l.direction.norm * Scalar.magnitude ((Piece.line a b).relativeTo l.point).coefficients) := by
  rw [implicit_line, Cubic.magnitude_linear, magnitude_line]
  rfl

theorem crossings_of_covers (h : l.Covers a b) :
    l.crossings (Piece.line a b) = .error .coincidentLines := by
  rw [covers_iff] at h
  rw [crossings, parameters]
  dsimp only
  rw [if_pos h]
  rfl

theorem magnitude_pos_of_not_covers (h : ¬ l.Covers a b) :
    0 < max |l.side a| |l.side b - l.side a| := by
  refine lt_of_le_of_lt ?_ (not_le.mp h)
  have hspan : 0 ≤ max (max |a.x - l.point.x| |b.x - a.x|) (max |a.y - l.point.y| |b.y - a.y|) :=
    le_max_of_le_left (le_max_of_le_left (abs_nonneg _))
  exact mul_nonneg (by norm_num) (mul_nonneg (Real.sqrt_nonneg _) hspan)

theorem crossings_of_not_covers (h : ¬ l.Covers a b) :
    l.crossings (Piece.line a b) = .ok (l.touches a b) := by
  have hpos := magnitude_pos_of_not_covers h
  rw [covers_iff] at h
  rw [crossings, parameters]
  dsimp only
  rw [if_neg h, implicit_line, Cubic.roots_linear hpos]
  simp only [funext (Piece.eval_line a b), funext Scalar.clamp_eq_max]
  rfl

end Line

namespace Path

theorem mergeDistance_eq_mul (p : Path ℝ) :
    p.mergeDistance = 1e-8 * max 1 √p.box.diagonalSq := by
  rw [mergeDistance, Scalar.greater_eq_max, Scalar.absoluteTolerance, max_comm]
  rfl

theorem mergeDistance_pos (p : Path ℝ) : 0 < p.mergeDistance := by
  rw [mergeDistance_eq_mul]
  exact mul_pos (by norm_num) (lt_max_of_lt_left one_pos)

variable {m : ℝ}

theorem mergePoints_cons_of_far {found : List (Point ℝ)} {p : Point ℝ}
    (h : ∀ q ∈ found, m < (q - p).length) (ps : List (Point ℝ)) :
    mergePoints m found (p :: ps) = mergePoints m (found ++ [p]) ps := by
  refine mergePoints_cons_of_not_close ?_ ps
  rintro ⟨q, hq, hle⟩
  exact (h q hq).not_ge hle

/-- Points on one side of a gap wider than the distance are merged as if there were no
others. -/
theorem filter_mergePoints {P : Point ℝ → Bool} {found ps : List (Point ℝ)}
    (hgap : ∀ q ∈ found ++ ps, ∀ p ∈ ps, P q ≠ P p → m < (q - p).length) :
    (mergePoints m found ps).filter P = mergePoints m (found.filter P) (ps.filter P) := by
  induction ps generalizing found with
  | nil => rfl
  | cons p ps ih =>
    by_cases hclose : ∃ q ∈ found, (q - p).length ≤ m
    · have hfound : (mergePoints m found ps).filter P =
          mergePoints m (found.filter P) (ps.filter P) := by
        refine ih fun q hq p' hp' => hgap q ?_ p' (List.mem_cons_of_mem p hp')
        exact ((List.sublist_cons_self p ps).append_left found).subset hq
      rw [mergePoints_cons_of_close hclose, hfound]
      by_cases hp : P p = true
      · -- What is close to `p` is on the same side.
        obtain ⟨q, hq, hle⟩ := hclose
        have hqp : P q = P p := by
          by_contra hne
          exact (hgap q (List.mem_append_left _ hq) p List.mem_cons_self hne).not_ge hle
        rw [List.filter_cons_of_pos hp]
        refine (mergePoints_cons_of_close ⟨q, ?_, hle⟩ _).symm
        exact List.mem_filter.mpr ⟨hq, hqp.trans hp⟩
      · rw [List.filter_cons_of_neg hp]
    · push Not at hclose
      have hfound : (mergePoints m (found ++ [p]) ps).filter P =
          mergePoints m ((found ++ [p]).filter P) (ps.filter P) := by
        refine ih fun q hq p' hp' => hgap q ?_ p' (List.mem_cons_of_mem p hp')
        rwa [List.append_assoc] at hq
      rw [mergePoints_cons_of_far hclose, hfound, List.filter_append]
      by_cases hp : P p = true
      · rw [List.filter_cons_of_pos hp, List.filter_cons_of_pos hp, List.filter_nil]
        exact (mergePoints_cons_of_far (fun q hq => hclose q (List.mem_of_mem_filter hq)) _).symm
      · rw [List.filter_cons_of_neg hp, List.filter_cons_of_neg hp, List.filter_nil,
          List.append_nil]

/-- Points close to the first one are reported as the first one. -/
theorem mergePoints_of_close {p : Point ℝ} {ps : List (Point ℝ)}
    (h : ∀ q ∈ ps, (p - q).length ≤ m) : mergePoints m [] (p :: ps) = [p] := by
  rw [mergePoints_cons_of_far (by simp), List.nil_append]
  induction ps with
  | nil => rfl
  | cons q ps ih =>
    rw [mergePoints_cons_of_close ⟨p, List.mem_cons_self, h q List.mem_cons_self⟩]
    exact ih fun q hq => h q (List.mem_cons_of_mem _ hq)

theorem two_le_length_mergePoints {p q : Point ℝ} {ps : List (Point ℝ)} (hq : q ∈ ps)
    (hfar : m < (p - q).length) : 2 ≤ (mergePoints m [] (p :: ps)).length := by
  rw [mergePoints_cons_of_far (by simp), List.nil_append]
  induction ps with
  | nil => cases hq
  | cons r ps ih =>
    by_cases hr : (p - r).length ≤ m
    · rw [mergePoints_cons_of_close ⟨p, List.mem_cons_self, hr⟩]
      rcases List.mem_cons.mp hq with rfl | hq
      · exact absurd hr (not_le.mpr hfar)
      · exact ih hq
    · rw [mergePoints_cons_of_far (by simpa using hr)]
      exact (prefix_mergePoints m [p, r] ps).length_le

variable {p : Path ℝ} {edges : List (Point ℝ × Point ℝ)} {l : Line ℝ}

theorem crossings_of_covers (hp : p.pieces = edges.map fun (a, b) => Piece.line a b)
    (h : ∃ e ∈ edges, l.Covers e.1 e.2) : p.crossings l = .error .coincidentLines := by
  obtain ⟨e, he, hcovers⟩ := h
  have hpiece : Piece.line e.1 e.2 ∈ p.pieces := hp ▸ List.mem_map_of_mem he
  exact crossings_of_error hpiece (Line.crossings_of_covers hcovers)

theorem crossings_of_not_covers (hp : p.pieces = edges.map fun (a, b) => Piece.line a b)
    (h : ∀ e ∈ edges, ¬ l.Covers e.1 e.2) :
    p.crossings l =
      .ok (mergePoints p.mergeDistance [] (edges.flatMap fun e => l.touches e.1 e.2)) :=
  crossings_of_ok hp fun e he => Line.crossings_of_not_covers (h e he)

end Path

end Drafting
