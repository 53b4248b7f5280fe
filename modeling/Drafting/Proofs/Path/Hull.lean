import Mathlib.Analysis.Convex.Basic
import Drafting.Proofs.Box
import Drafting.Proofs.Path.Lookup
import Drafting.Proofs.Path.Polygon

/-!
# Curves inside boxes

At a parameter between 0 and 1 a cubic Bezier curve takes a mean of its control points, with
Bernstein's weights, and a straight piece takes a mean of its ends. So a box around all defining
points of a path is also around every point that the path answers.
-/

namespace Drafting

variable [ExactTables]

namespace Piece

variable {low high t : ℝ}

/-- The polynomial in Bernstein's form. -/
theorem eval_bezier (p0 p1 p2 p3 t : ℝ) : (bezier p0 p1 p2 p3).eval t =
    (1 - t) ^ 3 * p0 + 3 * (1 - t) ^ 2 * t * p1 + 3 * (1 - t) * t ^ 2 * p2 + t ^ 3 * p3 := by
  unfold bezier Cubic.eval
  ring

/-- The weights are not negative and add up to 1. -/
theorem eval_bezier_mem_Icc {p0 p1 p2 p3 : ℝ} (ht : t ∈ Set.Icc (0 : ℝ) 1)
    (h0 : p0 ∈ Set.Icc low high) (h1 : p1 ∈ Set.Icc low high) (h2 : p2 ∈ Set.Icc low high)
    (h3 : p3 ∈ Set.Icc low high) : (bezier p0 p1 p2 p3).eval t ∈ Set.Icc low high := by
  obtain ⟨ht0, ht1⟩ := ht
  have hs : 0 ≤ 1 - t := sub_nonneg.mpr ht1
  have hmean (k : ℝ) : (1 - t) ^ 3 * k + 3 * (1 - t) ^ 2 * t * k + 3 * (1 - t) * t ^ 2 * k +
      t ^ 3 * k = k := by ring
  rw [eval_bezier]
  constructor
  · rw [← hmean low]
    gcongr
    exacts [h0.1, h1.1, h2.1, h3.1]
  · rw [← hmean high]
    gcongr
    exacts [h0.2, h1.2, h2.2, h3.2]

theorem eval_linear_mem_Icc {a b : ℝ} (ht : t ∈ Set.Icc (0 : ℝ) 1) (ha : a ∈ Set.Icc low high)
    (hb : b ∈ Set.Icc low high) : (⟨a, b - a, 0, 0⟩ : Cubic ℝ).eval t ∈ Set.Icc low high := by
  have heval : (⟨a, b - a, 0, 0⟩ : Cubic ℝ).eval t = (1 - t) * a + t * b := by
    unfold Cubic.eval
    ring
  rw [heval]
  exact convex_Icc low high ha hb (sub_nonneg.mpr ht.2) ht.1 (sub_add_cancel 1 t)

variable {b : Box ℝ}

theorem contains_line {p q : Point ℝ} (ht : t ∈ Set.Icc (0 : ℝ) 1) (hp : b.Contains p)
    (hq : b.Contains q) : b.Contains ((line p q).eval t) := by
  have hx := eval_linear_mem_Icc ht ⟨hp.min_x, hp.max_x⟩ ⟨hq.min_x, hq.max_x⟩
  have hy := eval_linear_mem_Icc ht ⟨hp.min_y, hp.max_y⟩ ⟨hq.min_y, hq.max_y⟩
  exact ⟨hx.1, hy.1, hx.2, hy.2⟩

theorem contains_cubic {p0 p1 p2 p3 : Point ℝ} (ht : t ∈ Set.Icc (0 : ℝ) 1) (h0 : b.Contains p0)
    (h1 : b.Contains p1) (h2 : b.Contains p2) (h3 : b.Contains p3) :
    b.Contains ((cubic p0 p1 p2 p3).eval t) := by
  have hx := eval_bezier_mem_Icc ht ⟨h0.min_x, h0.max_x⟩ ⟨h1.min_x, h1.max_x⟩
    ⟨h2.min_x, h2.max_x⟩ ⟨h3.min_x, h3.max_x⟩
  have hy := eval_bezier_mem_Icc ht ⟨h0.min_y, h0.max_y⟩ ⟨h1.min_y, h1.max_y⟩
    ⟨h2.min_y, h2.max_y⟩ ⟨h3.min_y, h3.max_y⟩
  exact ⟨hx.1, hy.1, hx.2, hy.2⟩

end Piece

variable {b : Box ℝ}

theorem Segment.contains_eval {s : Segment ℝ} (h : ∀ q ∈ s.controlPoints, b.Contains q)
    {piece : Piece ℝ} (hpiece : piece ∈ s.pieces) {t : ℝ} (ht : t ∈ Set.Icc (0 : ℝ) 1) :
    b.Contains (piece.eval t) := by
  cases s with
  | polyline points two_le =>
    obtain ⟨e, he, rfl⟩ := List.mem_map.mp hpiece
    obtain ⟨h₁, h₂⟩ := mem_of_mem_neighbours he
    exact Piece.contains_line ht (h e.1 h₁) (h e.2 h₂)
  | cubic a b c d =>
    obtain rfl := List.mem_singleton.mp hpiece
    simp only [controlPoints, List.forall_mem_cons] at h
    exact Piece.contains_cubic ht h.1 h.2.1 h.2.2.1 h.2.2.2.1

namespace Path

variable {p : Path ℝ} {q : Point ℝ}

/-- What is around the defining points of a path is around its points. -/
theorem OnCurve.contains (hq : p.OnCurve q) (h : ∀ c ∈ p.controlPoints, b.Contains c) :
    b.Contains q := by
  obtain ⟨piece, hpiece, t, ht, rfl⟩ := hq
  obtain ⟨s, hs, hpiece⟩ := List.mem_flatMap.mp hpiece
  exact s.contains_eval (fun c hc => h c (List.mem_flatMap.mpr ⟨s, hs, hc⟩)) hpiece ht

theorem OnCurve.contains_box (hq : p.OnCurve q) : p.box.Contains q :=
  hq.contains fun _ => Box.contains_ofPoints

end Path

end Drafting
