import Drafting.Proofs.Path.Polygon
import Drafting.Proofs.Path.Touch
import Drafting.Node

/-!
# Rays from the centroid of a convex polygon

A ray from an inner point of a strictly convex polygon leaves it at one point, but the
solver answers with points of edges that the line of the ray misses narrowly, and these
stay apart from the right one when they are farther from it than the merge distance.

A line through the centroid has the two coordinates `reach`, along its direction, and
`side`, across it. At an edge that the line meets with the vertices falling from the
right to the left side of it, it meets it in front of the centroid, at the edges with
rising vertices behind, and how far follows from the height of the centroid above the
edge. So in a polygon that is not too thin the points in front and those behind are
apart by more than all tolerances.
-/

namespace Drafting

variable [ExactTables]

def Point.Near (k : ℝ) (p q : Point ℝ) : Prop := |p.x - q.x| ≤ k ∧ |p.y - q.y| ≤ k

theorem Point.Near.length_sub_le {k : ℝ} {p q o : Point ℝ} (hp : p.Near k o) (hq : q.Near k o) :
    (p - q).length ≤ 4 * k := by
  have hx : |p.x - q.x| ≤ k + k := by
    refine (abs_sub_le p.x o.x q.x).trans (add_le_add hp.1 ?_)
    rw [abs_sub_comm]
    exact hq.1
  have hy : |p.y - q.y| ≤ k + k := by
    refine (abs_sub_le p.y o.y q.y).trans (add_le_add hp.2 ?_)
    rw [abs_sub_comm]
    exact hq.2
  have h := Offset.length_le_of_abs_le (p - q) hx hy
  linarith

namespace Line

noncomputable def reach (l : Line ℝ) (p : Point ℝ) : ℝ :=
  l.direction.dx * (p.x - l.point.x) + l.direction.dy * (p.y - l.point.y)

def IsUnit (l : Line ℝ) : Prop := l.direction.dx ^ 2 + l.direction.dy ^ 2 = 1

variable {l : Line ℝ} {p : Point ℝ}

theorem IsUnit.eq (hl : l.IsUnit) : l.direction.dx ^ 2 + l.direction.dy ^ 2 = 1 := hl

theorem IsUnit.norm (hl : l.IsUnit) : l.direction.norm = 1 := by
  change √(l.direction.dx * l.direction.dx + l.direction.dy * l.direction.dy) = 1
  rw [← sq, ← sq, hl.eq, Real.sqrt_one]

theorem isUnit_atAngle (c : Point ℝ) (a : Angle ℝ) : (atAngle c a).IsUnit :=
  Real.cos_sq_add_sin_sq a.radians

omit [ExactTables] in
theorem isAffineForm_side (l : Line ℝ) : IsAffineForm l.side :=
  ⟨l.direction.dx * l.point.y - l.direction.dy * l.point.x, l.direction.dy, -l.direction.dx,
    fun p => by
      unfold side
      ring⟩

theorem side_between (l : Line ℝ) (a b : Point ℝ) (t : ℝ) :
    l.side (a + (b - a) * t) = l.side a + t * (l.side b - l.side a) := by
  simp only [side, Point.add_x, Point.add_y, Offset.mul_dx, Offset.mul_dy, Point.sub_dx,
    Point.sub_dy]
  ring

theorem reach_between (l : Line ℝ) (a b : Point ℝ) (t : ℝ) :
    l.reach (a + (b - a) * t) = l.reach a + t * (l.reach b - l.reach a) := by
  simp only [reach, Point.add_x, Point.add_y, Offset.mul_dx, Offset.mul_dy, Point.sub_dx,
    Point.sub_dy]
  ring

section
variable (hl : l.IsUnit)
include hl

theorem sq_side_add_sq_reach (a b : Point ℝ) :
    (l.side b - l.side a) ^ 2 + (l.reach b - l.reach a) ^ 2 = (b - a).length ^ 2 := by
  rw [Offset.sq_length]
  simp only [side, reach, Point.sub_dx, Point.sub_dy]
  linear_combination ((b.x - a.x) ^ 2 + (b.y - a.y) ^ 2) * hl.eq

theorem abs_side_sub_le (a b : Point ℝ) : |l.side b - l.side a| ≤ (b - a).length := by
  refine abs_le_of_sq_le_sq ?_ (Offset.length_nonneg _)
  rw [← sq_side_add_sq_reach hl]
  exact le_add_of_nonneg_right (sq_nonneg _)

theorem abs_reach_sub_le (a b : Point ℝ) : |l.reach b - l.reach a| ≤ (b - a).length := by
  refine abs_le_of_sq_le_sq ?_ (Offset.length_nonneg _)
  rw [← sq_side_add_sq_reach hl]
  exact le_add_of_nonneg_left (sq_nonneg _)

theorem turn_eq (a b : Point ℝ) :
    turn a b l.point = l.side a * l.reach b - l.reach a * l.side b := by
  simp only [turn, side, reach]
  linear_combination (-((b.x - a.x) * (l.point.y - a.y) - (b.y - a.y) * (l.point.x - a.x))) * hl.eq

theorem eq_of_side_eq_zero (h : l.side p = 0) : p = l.point + l.direction * l.reach p := by
  ext
  · simp only [side, reach, Point.add_x, Offset.mul_dx] at h ⊢
    linear_combination l.direction.dy * h - (p.x - l.point.x) * hl.eq
  · simp only [side, reach, Point.add_y, Offset.mul_dy] at h ⊢
    linear_combination -l.direction.dx * h - (p.y - l.point.y) * hl.eq

theorem sub_x_eq (p : Point ℝ) :
    p.x - l.point.x = l.reach p * l.direction.dx + l.side p * l.direction.dy := by
  simp only [side, reach]
  linear_combination (-(p.x - l.point.x)) * hl.eq

theorem sub_y_eq (p : Point ℝ) :
    p.y - l.point.y = l.reach p * l.direction.dy + -l.side p * l.direction.dx := by
  simp only [side, reach]
  linear_combination (-(p.y - l.point.y)) * hl.eq

/-- The larger coordinate of the direction is at least a half. -/
theorem half_le_abs : (|l.direction.dy| ≤ |l.direction.dx| ∧ 1 / 2 ≤ |l.direction.dx|) ∨
    (|l.direction.dx| < |l.direction.dy| ∧ 1 / 2 ≤ |l.direction.dy|) := by
  have hunit : |l.direction.dx| ^ 2 + |l.direction.dy| ^ 2 = 1 := by
    rw [sq_abs, sq_abs]
    exact hl
  rcases le_or_gt |l.direction.dy| |l.direction.dx| with h | h
  · left
    refine ⟨h, ?_⟩
    nlinarith [abs_nonneg l.direction.dy, abs_nonneg l.direction.dx]
  · right
    refine ⟨h, ?_⟩
    nlinarith [abs_nonneg l.direction.dy, abs_nonneg l.direction.dx]

end

end Line

namespace Node

variable {l : Line ℝ} {p : Point ℝ} {k : ℝ}

theorem ahead_iff : ahead l.direction l.point p = true ↔
    if |l.direction.dy| ≤ |l.direction.dx| then 0 < (p.x - l.point.x) * l.direction.dx
    else 0 < (p.y - l.point.y) * l.direction.dy := by
  unfold ahead
  simp only [Scalar.abs_eq_abs, Point.sub_dx, Point.sub_dy]
  split_ifs
  · exact decide_eq_true_iff
  · exact decide_eq_true_iff

/-- The sign of a sum along the larger of two coordinates is that of its greater part. -/
theorem mul_add_mul_pos_iff {r s x y : ℝ} (hxy : |y| ≤ |x|) (hx : 1 / 2 ≤ |x|) (h : |s| < |r|) :
    0 < (r * x + s * y) * x ↔ 0 < r := by
  have hpos : 0 < x ^ 2 := by
    rw [← sq_abs]
    positivity
  have hmix : |s * y * x| ≤ |s| * x ^ 2 := by
    rw [abs_mul, abs_mul, mul_assoc, ← sq_abs x, sq]
    gcongr
  have hlt := mul_lt_mul_of_pos_right h hpos
  have hsum : (r * x + s * y) * x = r * x ^ 2 + s * y * x := by ring
  obtain ⟨hlow, hhigh⟩ := abs_le.mp hmix
  rw [hsum]
  rcases le_or_gt r 0 with hr | hr
  · rw [abs_of_nonpos hr] at hlt
    exact iff_of_false (by linarith) (not_lt.mpr hr)
  · rw [abs_of_pos hr] at hlt
    exact iff_of_true (by linarith) hr

theorem ahead_iff_reach (hl : l.IsUnit) (h : |l.side p| < |l.reach p|) :
    ahead l.direction l.point p = true ↔ 0 < l.reach p := by
  rw [ahead_iff, Line.sub_x_eq hl, Line.sub_y_eq hl]
  rcases Line.half_le_abs hl with ⟨hle, hhalf⟩ | ⟨hlt, hhalf⟩
  · rw [if_pos hle]
    exact mul_add_mul_pos_iff hle hhalf h
  · rw [if_neg (not_le.mpr hlt)]
    exact mul_add_mul_pos_iff hlt.le hhalf (by rwa [abs_neg])

/-- A point ahead and near the line is near a point of the ray: the one with the same
coordinate along the larger coordinate of the direction. -/
theorem exists_near_of_ahead (hl : l.IsUnit) (h : ahead l.direction l.point p = true)
    (hside : |l.side p| ≤ k) : ∃ s : ℝ, 0 < s ∧ p.Near (2 * k) (l.point + l.direction * s) := by
  have hk : 0 ≤ k := (abs_nonneg _).trans hside
  rw [ahead_iff] at h
  rcases Line.half_le_abs hl with ⟨hle, hhalf⟩ | ⟨hlt, hhalf⟩
  · rw [if_pos hle] at h
    have hne : l.direction.dx ≠ 0 := right_ne_zero_of_mul h.ne'
    refine ⟨(p.x - l.point.x) / l.direction.dx, ?_, ?_, ?_⟩
    · exact div_pos_iff.mpr (mul_pos_iff.mp h)
    · rw [Point.add_x, Offset.mul_dx, mul_div_cancel₀ _ hne, add_sub_cancel, sub_self, abs_zero]
      positivity
    · have hdev : p.y - (l.point + l.direction * ((p.x - l.point.x) / l.direction.dx)).y =
          -l.side p / l.direction.dx := by
        rw [Point.add_y, Offset.mul_dy, Line.side]
        field_simp
        ring
      rw [hdev, abs_div, abs_neg, div_le_iff₀ (by positivity)]
      nlinarith
  · rw [if_neg (not_le.mpr hlt)] at h
    have hne : l.direction.dy ≠ 0 := right_ne_zero_of_mul h.ne'
    refine ⟨(p.y - l.point.y) / l.direction.dy, ?_, ?_, ?_⟩
    · exact div_pos_iff.mpr (mul_pos_iff.mp h)
    · have hdev : p.x - (l.point + l.direction * ((p.y - l.point.y) / l.direction.dy)).x =
          l.side p / l.direction.dy := by
        rw [Point.add_x, Offset.mul_dx, Line.side]
        field_simp
        ring
      rw [hdev, abs_div, div_le_iff₀ (by positivity)]
      nlinarith
    · rw [Point.add_y, Offset.mul_dy, mul_div_cancel₀ _ hne, add_sub_cancel, sub_self, abs_zero]
      positivity

end Node

namespace ConvexPolygon

variable {P : ConvexPolygon} {l : Line ℝ} {e : Point ℝ × Point ℝ} {r t : ℝ}

noncomputable def touches (P : ConvexPolygon) (l : Line ℝ) : List (Point ℝ) :=
  P.edges.flatMap fun e => l.touches e.1 e.2

/-- Every edge has a vertex that is farther from its line than `k` times the size. -/
def WiderThan (P : ConvexPolygon) (k : ℝ) : Prop :=
  ∀ e ∈ P.edges, ∃ v ∈ P.vertices, k * P.size * (e.2 - e.1).length < P.height e v

/-- The ray from `c` along `u` passes through the line of an edge just beyond an end. -/
def Skims (P : ConvexPolygon) (c : Point ℝ) (u : Offset ℝ) : Prop :=
  ∃ e ∈ P.edges, ∃ r ∈ Set.Ico (-1e-6 : ℝ) 0 ∪ Set.Ioc 1 (1 + 1e-6), ∃ s : ℝ, 0 < s ∧
    e.1 + (e.2 - e.1) * r = c + u * s

/-- How much farther right of the line an edge begins than it ends, on a polygon that runs
counter-clockwise. -/
noncomputable def fall (P : ConvexPolygon) (l : Line ℝ) (e : Point ℝ × Point ℝ) : ℝ :=
  P.sign * (l.side e.1 - l.side e.2)

theorem exists_of_mem_touches (hcovers : ∀ e ∈ P.edges, ¬ l.Covers e.1 e.2) {p : Point ℝ}
    (hp : p ∈ P.touches l) : ∃ e ∈ P.edges, ∃ r t,
      LinearAnswer (l.side e.1) (l.side e.2 - l.side e.1) r t ∧ p = e.1 + (e.2 - e.1) * t := by
  obtain ⟨e, he, hp⟩ := List.mem_flatMap.mp hp
  obtain ⟨t, ht, rfl⟩ := List.mem_map.mp hp
  obtain ⟨r, hr⟩ := linearAnswer_of_mem (Line.magnitude_pos_of_not_covers (hcovers e he)) ht
  exact ⟨e, he, r, t, hr, rfl⟩

theorem abs_fall_le (hl : l.IsUnit) : |P.fall l e| ≤ (e.2 - e.1).length := by
  rw [fall, abs_mul, abs_sign, one_mul, abs_sub_comm]
  exact Line.abs_side_sub_le hl e.1 e.2

theorem near_between (he : e ∈ P.edges) {k : ℝ} (h : |t - r| ≤ k) :
    (e.1 + (e.2 - e.1) * t).Near (k * P.size) (e.1 + (e.2 - e.1) * r) := by
  have hk : 0 ≤ k := (abs_nonneg _).trans h
  have hlength := length_edge_le_size he
  constructor
  · have hx : (e.1 + (e.2 - e.1) * t).x - (e.1 + (e.2 - e.1) * r).x =
        (t - r) * (e.2 - e.1).dx := by
      simp only [Point.add_x, Offset.mul_dx]
      ring
    rw [hx, abs_mul]
    exact mul_le_mul h ((Offset.abs_dx_le_length _).trans hlength) (abs_nonneg _) hk
  · have hy : (e.1 + (e.2 - e.1) * t).y - (e.1 + (e.2 - e.1) * r).y =
        (t - r) * (e.2 - e.1).dy := by
      simp only [Point.add_y, Offset.mul_dy]
      ring
    rw [hy, abs_mul]
    exact mul_le_mul h ((Offset.abs_dy_le_length _).trans hlength) (abs_nonneg _) hk

section
variable (hl : l.IsUnit) (h : LinearAnswer (l.side e.1) (l.side e.2 - l.side e.1) r t)
include h

theorem side_root : l.side (e.1 + (e.2 - e.1) * r) = 0 := by
  rw [Line.side_between]
  exact h.root

theorem fall_ne_zero : P.fall l e ≠ 0 := by
  refine mul_ne_zero P.sign_ne_zero fun hzero => h.slope ?_
  linarith

include hl

theorem abs_side_le (he : e ∈ P.edges) :
    |l.side (e.1 + (e.2 - e.1) * t)| ≤ 1e-6 * P.size := by
  have hside : l.side (e.1 + (e.2 - e.1) * t) = (t - r) * (l.side e.2 - l.side e.1) := by
    rw [Line.side_between]
    linear_combination h.root
  rw [hside, abs_mul]
  exact mul_le_mul h.abs_sub_le ((Line.abs_side_sub_le hl _ _).trans (length_edge_le_size he))
    (abs_nonneg _) (by norm_num)

theorem abs_reach_sub_le (he : e ∈ P.edges) :
    |l.reach (e.1 + (e.2 - e.1) * t) - l.reach (e.1 + (e.2 - e.1) * r)| ≤ 1e-6 * P.size := by
  have hreach : l.reach (e.1 + (e.2 - e.1) * t) - l.reach (e.1 + (e.2 - e.1) * r) =
      (t - r) * (l.reach e.2 - l.reach e.1) := by
    rw [Line.reach_between, Line.reach_between]
    ring
  rw [hreach, abs_mul]
  exact mul_le_mul h.abs_sub_le ((Line.abs_reach_sub_le hl _ _).trans (length_edge_le_size he))
    (abs_nonneg _) (by norm_num)

theorem reach_root_mul_fall :
    l.reach (e.1 + (e.2 - e.1) * r) * P.fall l e = P.height e l.point := by
  rw [Line.reach_between, height, Line.turn_eq hl, fall]
  linear_combination P.sign * (l.reach e.1 - l.reach e.2) * h.root

end

/-- The point of the line is farther inside the polygon than twice the parameter tolerance
times the size. -/
def Deep (P : ConvexPolygon) (l : Line ℝ) : Prop :=
  ∀ e ∈ P.edges, 2e-6 * P.size * (e.2 - e.1).length < P.height e l.point

section
variable (hl : l.IsUnit) (hsize : 0 < P.size) (hdeep : P.Deep l)
include hl hsize hdeep

/-- At a falling edge the line meets the line of the edge in front, at a rising one behind. -/
theorem reach_root_gt_or_lt (he : e ∈ P.edges)
    (h : LinearAnswer (l.side e.1) (l.side e.2 - l.side e.1) r t) :
    2e-6 * P.size < l.reach (e.1 + (e.2 - e.1) * r) ∧ 0 < P.fall l e ∨
      l.reach (e.1 + (e.2 - e.1) * r) < -(2e-6 * P.size) ∧ P.fall l e < 0 := by
  have hbound : 2e-6 * P.size * |P.fall l e| < P.height e l.point := by
    refine lt_of_le_of_lt ?_ (hdeep e he)
    exact mul_le_mul_of_nonneg_left (abs_fall_le hl) (by positivity)
  rw [← reach_root_mul_fall hl h] at hbound
  rcases lt_or_gt_of_ne (fall_ne_zero h) with hfall | hfall
  · right
    rw [abs_of_neg hfall] at hbound
    refine ⟨?_, hfall⟩
    nlinarith
  · left
    rw [abs_of_pos hfall] at hbound
    exact ⟨lt_of_mul_lt_mul_right hbound hfall.le, hfall⟩

theorem ahead_or_behind (he : e ∈ P.edges)
    (h : LinearAnswer (l.side e.1) (l.side e.2 - l.side e.1) r t) :
    let p := e.1 + (e.2 - e.1) * t
    Node.ahead l.direction l.point p = true ∧ 1e-6 * P.size < l.reach p ∧ 0 < P.fall l e ∧
        0 < l.reach (e.1 + (e.2 - e.1) * r) ∨
      Node.ahead l.direction l.point p = false ∧ l.reach p < -(1e-6 * P.size) ∧
        P.fall l e < 0 := by
  intro p
  have hside : |l.side p| ≤ 1e-6 * P.size := abs_side_le hl h he
  have hreach := abs_le.mp (abs_reach_sub_le hl h he)
  rcases reach_root_gt_or_lt hl hsize hdeep he h with ⟨hroot, hfall⟩ | ⟨hroot, hfall⟩
  · left
    have hfar : 1e-6 * P.size < l.reach p := by linarith
    have hahead := Node.ahead_iff_reach hl (hside.trans_lt (hfar.trans_le (le_abs_self _)))
    exact ⟨hahead.mpr (by linarith), hfar, hfall, by linarith⟩
  · right
    have hfar : l.reach p < -(1e-6 * P.size) := by linarith
    have hahead := Node.ahead_iff_reach hl (p := p)
      (hside.trans_lt ((lt_neg.mp hfar).trans_le (neg_le_abs _)))
    refine ⟨?_, hfar, hfall⟩
    rw [← Bool.not_eq_true, hahead]
    linarith

variable (hcovers : ∀ e ∈ P.edges, ¬ l.Covers e.1 e.2)
include hcovers

/-- Points in front are far from points behind. -/
theorem lt_length_of_ahead_ne {p q : Point ℝ} (hp : p ∈ P.touches l) (hq : q ∈ P.touches l)
    (hne : Node.ahead l.direction l.point q ≠ Node.ahead l.direction l.point p) :
    1e-6 * P.size < (q - p).length := by
  obtain ⟨e, he, r, t, hanswer, rfl⟩ := exists_of_mem_touches hcovers hp
  obtain ⟨e', he', r', t', hanswer', rfl⟩ := exists_of_mem_touches hcovers hq
  refine lt_of_lt_of_le ?_ (Line.abs_reach_sub_le hl _ _)
  rcases ahead_or_behind hl hsize hdeep he hanswer with ⟨ha, hr, -⟩ | ⟨ha, hr, -⟩
  · rcases ahead_or_behind hl hsize hdeep he' hanswer' with ⟨ha', hr', -⟩ | ⟨ha', hr', -⟩
    · exact absurd (ha'.trans ha.symm) hne
    · rw [lt_abs]
      right
      linarith
  · rcases ahead_or_behind hl hsize hdeep he' hanswer' with ⟨ha', hr', -⟩ | ⟨ha', hr', -⟩
    · rw [lt_abs]
      left
      linarith
    · exact absurd (ha'.trans ha.symm) hne

/-- Off the ends of the edges, what an edge in front answers with is next to where the ray
leaves the polygon. -/
theorem near_of_not_skims (hclear : ¬ P.Skims l.point l.direction) {p : Point ℝ}
    (hp : p ∈ P.touches l) (hahead : Node.ahead l.direction l.point p = true) :
    ∃ s : ℝ, 0 < s ∧ P.OnOutline (l.point + l.direction * s) ∧
      p.Near (1e-12 * P.size) (l.point + l.direction * s) := by
  obtain ⟨e, he, r, t, hanswer, rfl⟩ := exists_of_mem_touches hcovers hp
  rcases ahead_or_behind hl hsize hdeep he hanswer with ⟨-, -, -, hreach⟩ | ⟨hbehind, -⟩
  · have hroot := Line.eq_of_side_eq_zero hl (side_root hanswer)
    have hoff : r ∉ Set.Ico (-1e-6 : ℝ) 0 ∪ Set.Ioc 1 (1 + 1e-6) :=
      fun hr => hclear ⟨e, he, r, hr, _, hreach, hroot⟩
    obtain ⟨hr, hclose⟩ := hanswer.of_not_near hoff
    refine ⟨_, hreach, ?_, ?_⟩
    · rw [← hroot]
      exact ⟨e, he, r, hr, rfl⟩
    · rw [← hroot]
      exact near_between he hclose
  · rw [hahead] at hbehind
    cases hbehind

end

section
variable (hrule : Quadrature.Exact) (hc : P.path.centroid = .ok l.point)
include hrule hc

theorem deep_of_widerThan (hwide : P.WiderThan 6e-6) : P.Deep l := by
  intro e he
  obtain ⟨v, hv, hheight⟩ := hwide e he
  have hthird := height_le_three_mul hrule hc he hv
  linarith

variable (hl : l.IsUnit) (hdeep : P.Deep l)
include hl hdeep

theorem exists_ahead (hsize : 0 < P.size) (hcovers : ∀ e ∈ P.edges, ¬ l.Covers e.1 e.2) :
    ∃ p ∈ P.touches l, Node.ahead l.direction l.point p = true := by
  have hform := (Line.isAffineForm_side l).const_mul P.sign
  have hcenter : P.sign * l.side l.point = 0 := by simp [Line.side]
  have hright : P.sign * l.side ⟨l.point.x + l.direction.dy, l.point.y - l.direction.dx⟩ ≠ 0 := by
    have hunit : l.side ⟨l.point.x + l.direction.dy, l.point.y - l.direction.dx⟩ = 1 := by
      simp only [Line.side]
      linear_combination hl.eq
    rw [hunit, mul_one]
    exact P.sign_ne_zero
  obtain ⟨e, he, hfirst, hsecond⟩ := exists_falling_edge hrule hc hform hcenter hright
  have hfall : 0 < P.fall l e := by
    rw [fall]
    linarith
  have hne : l.side e.1 - l.side e.2 ≠ 0 := right_ne_zero_of_mul hfall.ne'
  have hslope : l.side e.2 - l.side e.1 ≠ 0 := by
    rw [← neg_sub]
    exact neg_ne_zero.mpr hne
  have hsign : P.sign ≠ 0 := left_ne_zero_of_mul hfall.ne'
  -- The line meets the edge where the side changes from positive to not positive.
  have hroot : l.side e.1 + P.sign * l.side e.1 / P.fall l e * (l.side e.2 - l.side e.1) = 0 := by
    rw [fall]
    field_simp
    ring
  have hr : P.sign * l.side e.1 / P.fall l e ∈ Set.Icc (0 : ℝ) 1 := by
    refine ⟨div_nonneg hfirst.le hfall.le, (div_le_one hfall).mpr ?_⟩
    rw [fall]
    linarith
  obtain ⟨t, ht⟩ := List.exists_mem_of_ne_nil _ (linearAnswers_ne_nil hslope hroot hr)
  obtain ⟨r, hanswer⟩ := linearAnswer_of_mem (Line.magnitude_pos_of_not_covers (hcovers e he)) ht
  refine ⟨e.1 + (e.2 - e.1) * t, ?_, ?_⟩
  · exact List.mem_flatMap.mpr ⟨e, he, List.mem_map.mpr ⟨t, ht, rfl⟩⟩
  · rcases ahead_or_behind hl hsize hdeep he hanswer with ⟨hahead, -⟩ | ⟨-, -, hneg⟩
    · exact hahead
    · exact absurd hfall hneg.not_gt

omit hrule hc hdeep in
theorem height_le_of_covers {k : ℝ} (he : e ∈ P.edges) (hbox : P.path.box.Contains l.point)
    (hstart : |l.side e.1| ≤ k) (hslope : |l.side e.2 - l.side e.1| ≤ k) :
    P.height e l.point ≤ 2 * (k * P.size) := by
  have hoffset := length_le_size (contains_box (Polygon.mem_of_mem_edges he).1) hbox
  have hreach : |l.reach e.1| ≤ P.size := by
    have hpoint : l.reach l.point = 0 := by simp [Line.reach]
    have h := Line.abs_reach_sub_le hl l.point e.1
    rw [hpoint, sub_zero] at h
    exact h.trans hoffset
  have hwidth : |l.reach e.2 - l.reach e.1| ≤ P.size :=
    (Line.abs_reach_sub_le hl e.1 e.2).trans (length_edge_le_size he)
  have hk : 0 ≤ k := (abs_nonneg _).trans hstart
  calc P.height e l.point
      ≤ |turn e.1 e.2 l.point| := height_le_abs_turn l.point
    _ = |l.side e.1 * (l.reach e.2 - l.reach e.1) - (l.side e.2 - l.side e.1) * l.reach e.1| := by
      rw [Line.turn_eq hl]
      ring_nf
    _ ≤ |l.side e.1| * |l.reach e.2 - l.reach e.1| +
        |l.side e.2 - l.side e.1| * |l.reach e.1| := by
      rw [← abs_mul, ← abs_mul]
      exact abs_sub _ _
    _ ≤ k * P.size + k * P.size := by gcongr
    _ = 2 * (k * P.size) := by ring

/-- No line through the centroid runs along an edge that is not very short. -/
theorem not_covers_of_le_length (hsize : 0 < P.size) (he : e ∈ P.edges)
    (hlong : 1e-6 * P.size ≤ (e.2 - e.1).length) : ¬ l.Covers e.1 e.2 := by
  intro hcovers
  have hbox := contains_centroid hrule hc
  have hoffset : (e.1 - l.point).length ≤ P.size :=
    length_le_size (contains_box (Polygon.mem_of_mem_edges he).1) hbox
  have hedge : (e.2 - e.1).length ≤ P.size := length_edge_le_size he
  have hspan : max (max |e.1.x - l.point.x| |e.2.x - e.1.x|)
      (max |e.1.y - l.point.y| |e.2.y - e.1.y|) ≤ P.size :=
    max_le (max_le ((Offset.abs_dx_le_length _).trans hoffset)
      ((Offset.abs_dx_le_length _).trans hedge))
      (max_le ((Offset.abs_dy_le_length _).trans hoffset)
        ((Offset.abs_dy_le_length _).trans hedge))
  obtain ⟨hstart, hslope⟩ := max_le_iff.mp hcovers
  rw [hl.norm, one_mul] at hstart hslope
  have hfirst : |l.side e.1| ≤ 1e-12 * P.size := by linarith
  have hsecond : |l.side e.2 - l.side e.1| ≤ 1e-12 * P.size := by linarith
  -- The centroid is then too low above the edge.
  have hheight := height_le_of_covers hl he hbox hfirst hsecond
  have hlow := hdeep e he
  nlinarith

end

end ConvexPolygon

end Drafting
