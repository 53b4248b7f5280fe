import Mathlib.Algebra.BigOperators.Ring.List
import Mathlib.Tactic.LinearCombination
import Drafting.Path
import Drafting.Proofs.Exact

/-!
# Moments of outlines

The moments of a sequence of pieces are the sums of what each piece adds, and the centroid of a
closed path is that of its moments unless the area counts as zero.

A rule whose weights are right for constants and for squares integrates every
polynomial up to degree two, and those are all that a straight piece asks for. What
such a piece adds to the area and to the first moments is then a polynomial in the
coordinates of its ends.
-/

namespace Drafting

variable [ExactTables]

namespace Quadrature

/-- The table of nodes and weights integrates constants and squares exactly, as every
Gauss-Legendre rule with two nodes or more does. -/
structure Exact : Prop where
  weights : (ExactTables.legendre.map fun entry => entry.2).sum = 1
  squares : (ExactTables.legendre.map fun entry => entry.2 * entry.1 ^ 2).sum = 1 / 3

theorem exact_of_legendre (h : ExactTables.legendre = [(1, 1 / 3), (0, 2 / 3)]) : Exact := by
  constructor <;> norm_num [h]

theorem Exact.gaussLegendre_eq (h : Exact) (k₀ k₁ k₂ : ℝ) {f : ℝ → ℝ}
    (hf : ∀ t, f t = k₀ + k₁ * t + k₂ * t ^ 2) : gaussLegendre f 0 1 = k₀ + k₁ / 2 + k₂ / 3 := by
  -- The values at a pair of nodes add up to a polynomial in the square of the node.
  have hpairs : (ExactTables.legendre.map fun entry : ℝ × ℝ => entry.2 *
      (f ((0 + 1) / 2 - (1 - 0) / 2 * entry.1) + f ((0 + 1) / 2 + (1 - 0) / 2 * entry.1))) =
      ExactTables.legendre.map fun entry : ℝ × ℝ =>
        (2 * k₀ + k₁ + k₂ / 2) * entry.2 + k₂ / 2 * (entry.2 * entry.1 ^ 2) := by
    refine List.map_congr_left fun entry _ => ?_
    rw [hf, hf]
    ring
  change Scalar.sum (ExactTables.legendre.map _) * _ = _
  rw [hpairs, Scalar.sum_eq_sum, List.sum_map_add, List.sum_map_mul_left, List.sum_map_mul_left,
    h.weights, h.squares]
  ring

end Quadrature

namespace Moments

/-- What a piece adds to the moments about a centre. -/
noncomputable def ofPiece (center : Point ℝ) (p : Piece ℝ) : Moments ℝ := addPiece center zero p

theorem addPiece_eq (center : Point ℝ) (m : Moments ℝ) (p : Piece ℝ) :
    addPiece center m p = ⟨m.area + (ofPiece center p).area, m.mx + (ofPiece center p).mx,
      m.my + (ofPiece center p).my⟩ := by
  simp only [ofPiece, addPiece, zero, zero_add, sub_eq_add_neg]

theorem ofPieces_eq_sum (ps : List (Piece ℝ)) (center : Point ℝ) :
    ofPieces ps center = ⟨(ps.map fun p => (ofPiece center p).area).sum,
      (ps.map fun p => (ofPiece center p).mx).sum,
      (ps.map fun p => (ofPiece center p).my).sum⟩ := by
  -- The same from any moments that are already there.
  have hfold (m : Moments ℝ) :
      ps.foldl (addPiece center) m = ⟨m.area + (ps.map fun p => (ofPiece center p).area).sum,
        m.mx + (ps.map fun p => (ofPiece center p).mx).sum,
        m.my + (ps.map fun p => (ofPiece center p).my).sum⟩ := by
    induction ps generalizing m with
    | nil => simp
    | cons p ps ih =>
      rw [List.foldl_cons, ih, addPiece_eq]
      simp only [List.map_cons, List.sum_cons, add_assoc]
  rw [ofPieces, hfold]
  simp only [zero, zero_add]

noncomputable def ofEdge (center a b : Point ℝ) : Moments ℝ :=
  let p := a - center
  let q := b - center
  { area := (q.dx - p.dx) * (p.dy + q.dy) / 2 + (q.dy - p.dy) * (p.dx + q.dx)
    mx := (q.dy - p.dy) * (p.dx ^ 2 + p.dx * q.dx + q.dx ^ 2) / 6
    my := -(q.dx - p.dx) * (p.dy ^ 2 + p.dy * q.dy + q.dy ^ 2) / 6 }

theorem ofPiece_line (h : Quadrature.Exact) (center a b : Point ℝ) :
    ofPiece center (Piece.line a b) = ofEdge center a b := by
  let p := a - center
  let d := b - a
  have hx (t : ℝ) : (((Piece.line a b).relativeTo center).eval t).x = p.dx + d.dx * t := by
    simp only [Piece.eval, Cubic.eval, Piece.relativeTo, Piece.line, p, d, Point.sub_dx]
    ring
  have hy (t : ℝ) : (((Piece.line a b).relativeTo center).eval t).y = p.dy + d.dy * t := by
    simp only [Piece.eval, Cubic.eval, Piece.relativeTo, Piece.line, p, d, Point.sub_dy]
    ring
  have hd (t : ℝ) : ((Piece.line a b).relativeTo center).derivative t = d := by
    ext <;> simp [Piece.derivative, Cubic.derivative, Piece.relativeTo, Piece.line, d]
  have harea := h.gaussLegendre_eq (p.dy * d.dx + 2 * p.dx * d.dy) (3 * d.dx * d.dy) 0
    (f := fun t => (p.dy + d.dy * t) * d.dx + 2 * (p.dx + d.dx * t) * d.dy) fun t => by ring
  have hmx := h.gaussLegendre_eq (p.dx ^ 2 * d.dy) (2 * p.dx * d.dx * d.dy) (d.dx ^ 2 * d.dy)
    (f := fun t => (p.dx + d.dx * t) * (p.dx + d.dx * t) * d.dy) fun t => by ring
  have hmy := h.gaussLegendre_eq (p.dy ^ 2 * d.dx) (2 * p.dy * d.dy * d.dx) (d.dy ^ 2 * d.dx)
    (f := fun t => (p.dy + d.dy * t) * (p.dy + d.dy * t) * d.dx) fun t => by ring
  simp only [ofPiece, addPiece, zero, hx, hy, hd, harea, hmx, hmy, ofEdge]
  ext
  · simp only [p, d, Point.sub_dx, Point.sub_dy]
    ring
  · simp only [p, d, Point.sub_dx, Point.sub_dy]
    ring
  · simp only [p, d, Point.sub_dx, Point.sub_dy]
    ring

theorem ofPieces_lines (h : Quadrature.Exact) (center : Point ℝ) (edges : List (Point ℝ × Point ℝ)) :
    ofPieces (edges.map fun (a, b) => Piece.line a b) center =
      ⟨(edges.map fun e => (ofEdge center e.1 e.2).area).sum,
        (edges.map fun e => (ofEdge center e.1 e.2).mx).sum,
        (edges.map fun e => (ofEdge center e.1 e.2).my).sum⟩ := by
  simp only [ofPieces_eq_sum, List.map_map, Function.comp_def, ofPiece_line h]

end Moments

namespace Path

variable {p : Path ℝ}

theorem centroid_of_isClosed (h : p.isClosed = true) :
    p.centroid = if |p.moments.area| ≤ areaEpsilon * p.box.diagonalSq then .error .degenerateArea
      else .ok (p.moments.centroid p.box.center) := by
  have ht : p.topology = .closed := beq_iff_eq.mp h
  simp only [centroid, ht, Scalar.abs_eq_abs]

theorem area_ne_zero (h : ¬|p.moments.area| ≤ areaEpsilon * p.box.diagonalSq) :
    p.moments.area ≠ 0 := by
  intro hzero
  have hepsilon : (0 : ℝ) ≤ areaEpsilon := by norm_num [areaEpsilon]
  have hdiag : 0 ≤ p.box.diagonalSq := add_nonneg (mul_self_nonneg _) (mul_self_nonneg _)
  rw [hzero, abs_zero] at h
  exact h (mul_nonneg hepsilon hdiag)

theorem eq_of_centroid {c : Point ℝ} (hc : p.centroid = .ok c) :
    p.isClosed = true ∧ p.moments.area ≠ 0 ∧ c = p.moments.centroid p.box.center := by
  have hclosed : p.isClosed = true := by
    unfold centroid at hc
    split at hc
    · cases hc
    · cases hc
    · cases hc
    · exact beq_iff_eq.mpr ‹_›
  rw [centroid_of_isClosed hclosed] at hc
  split_ifs at hc with harea
  cases hc
  exact ⟨hclosed, area_ne_zero harea, rfl⟩

end Path

end Drafting
