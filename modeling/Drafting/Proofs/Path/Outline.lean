import Drafting.Proofs.Path.Moments
import Drafting.Proofs.Path.Polygon
import Drafting.Proofs.Path.Traversal

/-!
# The outline of a box

The outline of a box with corners in order is a closed rectangle around the same box, even
when the box is flat. Its moments about the centre of the box vanish, so its centroid is that
centre unless the area counts as zero.

Half of the outline leads from the lower corner to the upper one. When the box is flat, one of
the two edges on that way has no length, and half of the outline still ends at the upper
corner, never in the middle.
-/

namespace Drafting

variable [ExactTables]

namespace Quadrature

theorem Exact.gaussLegendre_const (h : Exact) (k a b : ℝ) :
    gaussLegendre (fun _ => k) a b = k * (b - a) := by
  have hpair (w : ℝ) : w * (k + k) = 2 * k * w := by ring
  simp only [Quadrature.gaussLegendre_eq, hpair, List.sum_map_mul_left, h.weights]
  ring

/-- Both halves of the interval together agree with the whole, so it is not halved again. -/
theorem Exact.adaptive_const (h : Exact) (k a b : ℝ) :
    (adaptive (fun _ => k) a b).value = k * (b - a) := by
  have hsum : k * ((a + b) / 2 - a) + k * (b - (a + b) / 2) = k * (b - a) := by ring
  have htolerance : (0 : ℝ) ≤ tolerance := by norm_num [tolerance]
  change (bisect (fun _ => k) (11 + 1) a b _ tolerance).value = _
  rw [bisect]
  dsimp only
  rw [h.gaussLegendre_const, h.gaussLegendre_const, h.gaussLegendre_const, hsum, sub_self,
    Scalar.abs_eq_abs, abs_zero, if_pos htolerance]

end Quadrature

namespace Offset

variable {v : Offset ℝ}

theorem length_of_dy_eq_zero (h : v.dy = 0) : v.length = |v.dx| := by
  rw [length_eq_sqrt, h, zero_pow two_ne_zero, add_zero, Real.sqrt_sq_eq_abs]

theorem length_of_dx_eq_zero (h : v.dx = 0) : v.length = |v.dy| := by
  rw [length_eq_sqrt, h, zero_pow two_ne_zero, zero_add, Real.sqrt_sq_eq_abs]

end Offset

theorem Piece.arcLength_line (h : Quadrature.Exact) (a b : Point ℝ) :
    (line a b).arcLength.value = (b - a).length := by
  have hspeed : (line a b).speed = fun _ => (b - a).length := by
    funext t
    simp only [speed, derivative, Cubic.derivative, line, Offset.norm, Offset.length_eq_sqrt,
      Point.sub_dx, Point.sub_dy, mul_zero, zero_mul, add_zero, zero_add, sq]
    rfl
  rw [arcLength, hspeed, h.adaptive_const, sub_zero, mul_one]

namespace Box

variable {b : Box ℝ}

theorem Proper.width_nonneg (hb : b.Proper) : 0 ≤ b.width := sub_nonneg.mpr hb.1

theorem Proper.height_nonneg (hb : b.Proper) : 0 ≤ b.height := sub_nonneg.mpr hb.2

omit [ExactTables] in
theorem Proper.contains_corners (hb : b.Proper) : ∀ p ∈ b.corners, b.Contains p := by
  obtain ⟨hx, hy⟩ := hb
  simp only [corners, List.forall_mem_cons, List.not_mem_nil, false_implies, implies_true, and_true]
  exact ⟨⟨le_rfl, le_rfl, hx, hy⟩, ⟨hx, le_rfl, le_rfl, hy⟩, ⟨hx, hy, le_rfl, le_rfl⟩,
    ⟨le_rfl, hy, hx, le_rfl⟩, le_rfl, le_rfl, hx, hy⟩

theorem Proper.ofPoints_corners (hb : b.Proper) (hempty : empty.Within b) :
    ofPoints b.corners = b := by
  refine (ofPoints_within_iff.mpr ⟨hempty, hb.contains_corners⟩).antisymm ?_
  exact hb.within_iff.mpr ⟨contains_ofPoints (by simp [corners]), contains_ofPoints (by simp [corners])⟩

end Box

namespace Path

variable {b : Box ℝ}

theorem outline_of_proper (hb : b.Proper) :
    outline b = ⟨[.polyline b.corners (by simp [Box.corners])]⟩ := by
  rw [outline, if_neg (by simp [hb.isEmpty_eq_false])]

theorem topology_outline (b : Box ℝ) :
    (outline b).topology = if b.isEmpty then .empty else .closed := by
  unfold outline
  split_ifs
  · rfl
  · rw [topology_cons rfl]
    simp [Topology.connected, neighbours, Segment.finish, Segment.start, Box.corners,
      Point.beq_iff.mpr]

theorem isClosed_outline (hb : b.Proper) : (outline b).isClosed = true := by
  rw [isClosed, topology_outline, hb.isEmpty_eq_false]
  rfl

theorem controlPoints_outline (hb : b.Proper) : (outline b).controlPoints = b.corners := by
  simp [outline_of_proper hb, controlPoints, Segment.controlPoints]

theorem start_outline (hb : b.Proper) : (outline b).start = some b.min := by
  simp [outline_of_proper hb, start, Segment.start, Box.corners]

theorem box_outline (hb : b.Proper) (hempty : Box.empty.Within b) : (outline b).box = b := by
  rw [box, controlPoints_outline hb, hb.ofPoints_corners hempty]

theorem pieces_outline (hb : b.Proper) : (outline b).pieces =
    (neighbours b.corners).map fun (p, q) => Piece.line p q := by
  simp [outline_of_proper hb, pieces, Segment.pieces]

theorem moments_outline (h : Quadrature.Exact) (hb : b.Proper) (hempty : Box.empty.Within b) :
    (outline b).moments = ⟨b.width * b.height, 0, 0⟩ := by
  rw [moments, pieces_outline hb, box_outline hb hempty, Moments.ofPieces_lines h]
  ext
  · simp [neighbours, Box.corners, Moments.ofEdge, Box.center, Point.midpoint, Box.width, Box.height]
    ring
  · simp [neighbours, Box.corners, Moments.ofEdge, Box.center, Point.midpoint]
    ring
  · simp [neighbours, Box.corners, Moments.ofEdge, Box.center, Point.midpoint]
    ring

theorem centroid_outline (h : Quadrature.Exact) (hb : b.Proper) (hempty : Box.empty.Within b) :
    (outline b).centroid =
      if b.width * b.height ≤ areaEpsilon * b.diagonalSq then .error .degenerateArea
      else .ok b.center := by
  rw [centroid_of_isClosed (isClosed_outline hb), moments_outline h hb hempty, box_outline hb hempty,
    abs_of_nonneg (mul_nonneg hb.width_nonneg hb.height_nonneg)]
  split_ifs
  · rfl
  · congr 1
    ext <;> simp [Moments.centroid]

theorem lengths_outline (h : Quadrature.Exact) (hb : b.Proper) :
    (outline b).lengthTable.lengths = [b.width, b.height, b.width, b.height] := by
  rw [lengths_eq, pieces_outline hb]
  obtain ⟨hx, hy⟩ := hb
  simp only [neighbours, Box.corners, List.map_cons, List.map_nil, Piece.arcLength_line h]
  rw [Offset.length_of_dy_eq_zero (sub_self b.min.y), Offset.length_of_dx_eq_zero (sub_self b.max.x),
    Offset.length_of_dy_eq_zero (sub_self b.max.y), Offset.length_of_dx_eq_zero (sub_self b.min.x),
    Point.sub_dx, Point.sub_dy, Point.sub_dx, Point.sub_dy, abs_of_nonneg (sub_nonneg.mpr hx),
    abs_of_nonneg (sub_nonneg.mpr hy), abs_sub_comm, abs_of_nonneg (sub_nonneg.mpr hx),
    abs_sub_comm b.min.y, abs_of_nonneg (sub_nonneg.mpr hy)]
  rfl

/-- Half of the way around a rectangle is the end of the second side, or the end of the first
one when the second has no length. -/
theorem finds_half {w h : ℝ} (hw : 0 ≤ w) (hh : 0 ≤ h) (hpos : 0 < w ∨ 0 < h) {i : ℕ} {l s : ℝ}
    (hf : LengthTable.Finds [w, h, w, h] (w + h) i l s) : (i = 0 ∧ h = 0 ∨ i = 1) ∧ s = 1 := by
  obtain ⟨hget, ⟨-, hs⟩, hsum, hfirst, -⟩ := hf
  match i with
  | 0 =>
    obtain rfl : w = l := by simpa using hget
    replace hsum : s * w = w + h := by simpa using hsum
    have hzero : h = 0 := by linarith [mul_le_of_le_one_left hw hs]
    have hne : w ≠ 0 := (hpos.resolve_right hzero.not_gt).ne'
    rw [hzero, add_zero, mul_eq_right₀ hne] at hsum
    exact ⟨.inl ⟨rfl, hzero⟩, hsum⟩
  | 1 =>
    obtain rfl : h = l := by simpa using hget
    replace hsum : s * h = h := by simpa using hsum
    have hne : h ≠ 0 := by
      have hlt := hfirst 0 Nat.one_pos
      rintro rfl
      simp at hlt
    exact ⟨.inr rfl, (mul_eq_right₀ hne).mp hsum⟩
  | i + 2 =>
    have hlt := hfirst 1 (by omega)
    simp at hlt

/-- Half of an outline ends at the upper corner of the box, even when the box is flat. -/
theorem pointAtFraction_half_outline (h : Quadrature.Exact) (hb : b.Proper)
    (hpos : 0 < b.width ∨ 0 < b.height) : (outline b).pointAtFraction 0.5 = .ok b.max := by
  have hw := hb.width_nonneg
  have hh := hb.height_nonneg
  have hne : (outline b).segments ≠ [] := by simp [outline_of_proper hb]
  have hsum : [b.width, b.height, b.width, b.height].sum = 2 * (b.width + b.height) := by
    simp only [List.sum_cons, List.sum_nil]
    ring
  have htotal : 0 < [b.width, b.height, b.width, b.height].sum := by
    rw [hsum]
    rcases hpos with hpos | hpos <;> linarith
  have hweights := weights_eq_shares hne
  rw [lengths_outline h hb, LengthTable.shares, if_pos htotal] at hweights
  have hmem : (0.5 : ℝ) ∈ Set.Icc (0 : ℝ) 1 := by norm_num
  obtain ⟨i, l, s, hlocate, hfinds⟩ :=
    LengthTable.finds_locate (by simp [hw, hh]) htotal hweights hmem
  have hhalf : (0.5 : ℝ) * (2 * (b.width + b.height)) = b.width + b.height := by ring
  rw [hsum, hhalf] at hfinds
  obtain ⟨hi, rfl⟩ := finds_half hw hh hpos hfinds
  have hhalf_ne : (0.5 : ℝ) ≠ 1 := by norm_num
  rcases hi with ⟨rfl, hzero⟩ | rfl
  · have hpiece : (outline b).pieces[0]? = some (Piece.line b.min ⟨b.max.x, b.min.y⟩) := by
      rw [pieces_outline hb]
      rfl
    rw [pointAtFraction_of_locate hne hmem hhalf_ne hlocate hpiece, Piece.eval_line_one]
    rw [Box.height, sub_eq_zero] at hzero
    rw [← hzero]
  · have hpiece : (outline b).pieces[1]? = some (Piece.line ⟨b.max.x, b.min.y⟩ b.max) := by
      rw [pieces_outline hb]
      rfl
    rw [pointAtFraction_of_locate hne hmem hhalf_ne hlocate hpiece, Piece.eval_line_one]

end Path

end Drafting
