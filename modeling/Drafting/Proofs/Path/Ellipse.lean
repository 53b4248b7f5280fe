import Drafting.Proofs.Path.Circle
import Drafting.Proofs.Path.Hull
import Drafting.Proofs.Path.Touch
import Drafting.Proofs.Path.Transform

/-!
# Ellipses

An ellipse is the image of the unit circle, so its pieces are images of the pieces of the circle.
They lie in the box that the radii tell, and its middle is the centre. About the centre the area
is that of the circle times both radii, whatever rule of quadrature is used, and the first moments
are zero, because each piece has another one opposite.

The area counts as zero when it is small beside the diagonal of the box. With a rule that takes
averages it does not, unless one radius is very much longer than the other one.
-/

namespace Drafting

open Shape

variable [ExactTables]

namespace Transform

noncomputable def quarterTurn : Transform ℝ := ⟨⟨⟨0, 1, 0⟩, ⟨-1, 0, 0⟩, ⟨0, 0, 1⟩⟩⟩

theorem apply_quarterTurn : quarterTurn.apply = Point.turn := by
  funext p
  simp [apply_eq, quarterTurn, Point.turn]

theorem image_quarterTurn : Piece.image quarterTurn = Piece.turn := by
  funext P
  simp [Piece.image, Piece.turn, quarterTurn, Cubic.scale, Cubic.map]

noncomputable def stretch (c : Point ℝ) (rx ry : ℝ) : Transform ℝ :=
  ⟨⟨⟨rx, 0, 0⟩, ⟨0, ry, 0⟩, ⟨c.x, c.y, 1⟩⟩⟩

theorem apply_stretch (c : Point ℝ) (rx ry : ℝ) (p : Point ℝ) :
    (stretch c rx ry).apply p = ⟨rx * p.x + c.x, ry * p.y + c.y⟩ := by
  simp [apply_eq, stretch]

end Transform

namespace Segment

noncomputable def turn (s : Segment ℝ) : Segment ℝ := s.transform Transform.quarterTurn

theorem pieces_turns (s : Segment ℝ) (k : ℕ) :
    (turn^[k] s).pieces = s.pieces.map Piece.turn^[k] := by
  induction k with
  | zero => simp
  | succ k ih =>
    rw [Function.iterate_succ_apply', turn, pieces_transform, ih, List.map_map,
      Transform.image_quarterTurn, ← Function.iterate_succ']

end Segment

namespace Shape

theorem cos_eighth_zero : Real.cos (eighth 0 : Angle ℝ).radians = 1 := by
  simp [eighth]

theorem sin_eighth_zero : Real.sin (eighth 0 : Angle ℝ).radians = 0 := by
  simp [eighth]

theorem radians_eighth (k : ℝ) : (eighth k : Angle ℝ).radians = Real.pi / 4 * k := by
  change 2 * Real.pi / 8 * k = _
  ring

theorem cos_eighth_one : Real.cos (eighth 1 : Angle ℝ).radians = diag := by
  rw [radians_eighth, mul_one, Real.cos_pi_div_four, diag]

theorem sin_eighth_one : Real.sin (eighth 1 : Angle ℝ).radians = diag := by
  rw [radians_eighth, mul_one, Real.sin_pi_div_four, diag]

theorem radians_eighth_add_two (k : ℝ) :
    (eighth (k + 2) : Angle ℝ).radians = (eighth k : Angle ℝ).radians + Real.pi / 2 := by
  rw [radians_eighth, radians_eighth]
  ring

theorem cos_eighth_add_two (k : ℝ) :
    Real.cos (eighth (k + 2) : Angle ℝ).radians = -Real.sin (eighth k : Angle ℝ).radians := by
  rw [radians_eighth_add_two, Real.cos_add_pi_div_two]

theorem sin_eighth_add_two (k : ℝ) :
    Real.sin (eighth (k + 2) : Angle ℝ).radians = Real.cos (eighth k : Angle ℝ).radians := by
  rw [radians_eighth_add_two, Real.sin_add_pi_div_two]

noncomputable def unitArc (a b : Angle ℝ) : Segment ℝ := arc Point.origin 1 1 a b

theorem unitArc_turn (k l : ℝ) :
    unitArc (eighth (k + 2)) (eighth (l + 2)) = (unitArc (eighth k) (eighth l)).turn := by
  have hcos (k : ℝ) : Scalar.cos (eighth (k + 2) : Angle ℝ).radians =
      -Scalar.sin (eighth k : Angle ℝ).radians := cos_eighth_add_two k
  have hsin (k : ℝ) : Scalar.sin (eighth (k + 2) : Angle ℝ).radians =
      Scalar.cos (eighth k : Angle ℝ).radians := sin_eighth_add_two k
  simp only [unitArc, arc, Segment.turn, Segment.transform, Segment.mapPoints, ellipsePoint, handle,
    hcos, hsin, Transform.apply_quarterTurn]
  congr 1
  · ext <;> simp [Point.turn, Point.origin]
  · ext <;> simp [Point.turn, Point.origin]
    ring
  · ext <;> simp [Point.turn, Point.origin]
    ring
  · ext <;> simp [Point.turn, Point.origin]

/-- After eight eighths the angles repeat. -/
theorem unitArc_last : unitArc (eighth 7) (eighth 0) = unitArc (eighth 7) (eighth 8) := by
  have hradians : (eighth 8 : Angle ℝ).radians = 2 * Real.pi := by
    rw [radians_eighth]
    ring
  have hcos : Scalar.cos (eighth 8 : Angle ℝ).radians = Scalar.cos (eighth 0 : Angle ℝ).radians := by
    rw [hradians]
    exact Real.cos_two_pi.trans cos_eighth_zero.symm
  have hsin : Scalar.sin (eighth 8 : Angle ℝ).radians = Scalar.sin (eighth 0 : Angle ℝ).radians := by
    rw [hradians]
    exact Real.sin_two_pi.trans sin_eighth_zero.symm
  simp only [unitArc, arc, ellipsePoint, handle, hcos, hsin]

noncomputable def quarterCircle : List (Segment ℝ) :=
  [unitArc (eighth 0) (eighth 1), unitArc (eighth 1) (eighth 2)]

/-- The unit circle is a quarter of it and what the quarter turns make of that. -/
theorem unitCircle_eq :
    unitCircle = (List.range 4).flatMap fun k => quarterCircle.map Segment.turn^[k] := by
  have hturn (k l k' l' : ℝ) (hk : k + 2 = k') (hl : l + 2 = l') :
      unitArc (eighth k') (eighth l') = (unitArc (eighth k) (eighth l)).turn := by
    rw [← hk, ← hl, unitArc_turn]
  have h2 := hturn 0 1 2 3 (by norm_num) (by norm_num)
  have h3 := hturn 1 2 3 4 (by norm_num) (by norm_num)
  have h4 := hturn 2 3 4 5 (by norm_num) (by norm_num)
  have h5 := hturn 3 4 5 6 (by norm_num) (by norm_num)
  have h6 := hturn 4 5 6 7 (by norm_num) (by norm_num)
  have h7 := hturn 5 6 7 8 (by norm_num) (by norm_num)
  have hlist : (unitCircle : List (Segment ℝ)) =
      [unitArc (eighth 0) (eighth 1), unitArc (eighth 1) (eighth 2),
        unitArc (eighth 2) (eighth 3), unitArc (eighth 3) (eighth 4),
        unitArc (eighth 4) (eighth 5), unitArc (eighth 5) (eighth 6),
        unitArc (eighth 6) (eighth 7), unitArc (eighth 7) (eighth 0)] := rfl
  rw [hlist, unitArc_last]
  simp [List.range_succ, quarterCircle, h2, h3, h4, h5, h6, h7]

theorem unitArc_first : unitArc (eighth 0) (eighth 1) =
    .cubic ⟨1, 0⟩ ⟨1, kappa⟩ ⟨diag + diag * kappa, diag - diag * kappa⟩ ⟨diag, diag⟩ := by
  have hc0 : Scalar.cos (eighth 0 : Angle ℝ).radians = 1 := cos_eighth_zero
  have hs0 : Scalar.sin (eighth 0 : Angle ℝ).radians = 0 := sin_eighth_zero
  have hc1 : Scalar.cos (eighth 1 : Angle ℝ).radians = diag := cos_eighth_one
  have hs1 : Scalar.sin (eighth 1 : Angle ℝ).radians = diag := sin_eighth_one
  simp only [unitArc, arc, ellipsePoint, handle, hc0, hs0, hc1, hs1]
  congr 1 <;> ext <;> simp [Point.origin]

theorem unitArc_second : unitArc (eighth 1) (eighth 2) =
    .cubic ⟨diag, diag⟩ ⟨diag - diag * kappa, diag + diag * kappa⟩ ⟨kappa, 1⟩ ⟨0, 1⟩ := by
  have hc1 : Scalar.cos (eighth 1 : Angle ℝ).radians = diag := cos_eighth_one
  have hs1 : Scalar.sin (eighth 1 : Angle ℝ).radians = diag := sin_eighth_one
  have hc2 : Scalar.cos (eighth 2 : Angle ℝ).radians = 0 := by
    rw [← zero_add (2 : ℝ)]
    exact (cos_eighth_add_two 0).trans (by rw [sin_eighth_zero, neg_zero])
  have hs2 : Scalar.sin (eighth 2 : Angle ℝ).radians = 1 := by
    rw [← zero_add (2 : ℝ)]
    exact (sin_eighth_add_two 0).trans cos_eighth_zero
  simp only [unitArc, arc, ellipsePoint, handle, hc1, hs1, hc2, hs2]
  congr 1 <;> ext <;> simp [Point.origin]
  ring

theorem pieces_quarterCircle : quarterCircle.flatMap Segment.pieces = quarter := by
  have hsecond : Piece.cubic ⟨diag, diag⟩ ⟨diag - diag * kappa, diag + diag * kappa⟩ ⟨kappa, 1⟩
      (⟨0, 1⟩ : Point ℝ) = second := by
    simp only [Piece.cubic, Piece.bezier, second, across, up, Cubic.reverse]
    ext <;> simp <;> ring
  simp only [quarterCircle, unitArc_first, unitArc_second, List.flatMap_cons, List.flatMap_nil,
    Segment.pieces, hsecond, quarter]
  rfl

theorem pieces_unitCircle : (unitCircle : List (Segment ℝ)).flatMap Segment.pieces = eighths := by
  rw [unitCircle_eq, List.flatMap_assoc, eighths, ← pieces_quarterCircle]
  refine congrArg (List.flatMap · (List.range 4)) (funext fun k => ?_)
  rw [List.flatMap_map, List.map_flatMap]
  exact congrArg (List.flatMap · quarterCircle) (funext fun s => s.pieces_turns k)

theorem controlPoints_quarterCircle : ∀ s ∈ quarterCircle, ∀ p ∈ s.controlPoints,
    |p.x| ≤ 1 ∧ |p.y| ≤ 1 := by
  have hlow := diag_gt
  have hhigh := diag_lt
  have hkappa : |(kappa : ℝ)| ≤ 1 := by norm_num [kappa_eq, abs_le]
  have hdiag : |diag| ≤ 1 := by
    rw [abs_le]
    constructor <;> linarith
  have hplus : |diag + diag * kappa| ≤ 1 := by
    rw [kappa_eq, abs_le]
    constructor <;> linarith
  have hminus : |diag - diag * kappa| ≤ 1 := by
    rw [kappa_eq, abs_le]
    constructor <;> linarith
  simp [quarterCircle, unitArc_first, unitArc_second, Segment.controlPoints, hkappa, hdiag, hplus,
    hminus]

/-- A quarter turn maps the square around the unit circle onto itself. -/
theorem controlPoints_turns {s : Segment ℝ} (hs : s ∈ quarterCircle) (k : ℕ) :
    ∀ p ∈ (Segment.turn^[k] s).controlPoints, |p.x| ≤ 1 ∧ |p.y| ≤ 1 := by
  induction k with
  | zero => exact controlPoints_quarterCircle s hs
  | succ k ih =>
    intro p hp
    rw [Function.iterate_succ_apply', Segment.turn, Segment.transform,
      Segment.controlPoints_mapPoints, Transform.apply_quarterTurn] at hp
    obtain ⟨q, hq, rfl⟩ := List.mem_map.mp hp
    rw [Point.turn, abs_neg]
    exact (ih q hq).symm

theorem controlPoints_unitCircle : ∀ s ∈ (unitCircle : List (Segment ℝ)), ∀ p ∈ s.controlPoints,
    |p.x| ≤ 1 ∧ |p.y| ≤ 1 := by
  intro s hs
  rw [unitCircle_eq] at hs
  obtain ⟨k, -, hs⟩ := List.mem_flatMap.mp hs
  obtain ⟨s', hs', rfl⟩ := List.mem_map.mp hs
  exact controlPoints_turns hs' k

theorem arc_eq (c : Point ℝ) (rx ry : ℝ) (a b : Angle ℝ) :
    arc c rx ry a b = (unitArc a b).transform (.stretch c rx ry) := by
  simp only [unitArc, arc, Segment.transform, Segment.mapPoints, Transform.apply_stretch,
    ellipsePoint, handle]
  congr 1 <;> ext <;> simp [Point.origin] <;> ring

/-- An ellipse is the image of the unit circle. -/
theorem ellipse_eq (c : Point ℝ) (rx ry : ℝ) :
    ellipse c rx ry = unitCircle.map (·.transform (.stretch c rx ry)) := by
  simp only [unitCircle, ellipse, List.map_map]
  exact List.map_congr_left fun e _ => arc_eq c rx ry e.1 e.2

end Shape

namespace Path

noncomputable def ellipse (c : Point ℝ) (rx ry : ℝ) : Path ℝ := ⟨Shape.ellipse c rx ry⟩

variable {c : Point ℝ} {rx ry : ℝ}

/-- Neighbouring pieces are given the same end points, whatever the radii are. -/
theorem topology_ellipse (c : Point ℝ) (rx ry : ℝ) : (ellipse c rx ry).topology = .closed := by
  have hself (p : Point ℝ) : (p == p) = true := Point.beq_iff.mpr rfl
  simp [topology, ellipse, Topology.classify, Topology.connected, Shape.ellipse, Shape.joints,
    Shape.arc, neighbours, Segment.start, Segment.finish, hself]

theorem pieces_ellipse (c : Point ℝ) (rx ry : ℝ) :
    (ellipse c rx ry).pieces = eighths.map (Piece.image (.stretch c rx ry)) := by
  have hcircle : (⟨unitCircle⟩ : Path ℝ).pieces = eighths := pieces_unitCircle
  have himage : ellipse c rx ry = (⟨unitCircle⟩ : Path ℝ).transform (.stretch c rx ry) :=
    congrArg Path.mk (Shape.ellipse_eq c rx ry)
  rw [himage, pieces_transform, hcircle]

theorem length_pieces_ellipse (c : Point ℝ) (rx ry : ℝ) : (ellipse c rx ry).pieces.length = 8 := by
  simp [pieces_ellipse, eighths, quarter, List.range_succ]

/-- The end of an ellipse in the direction of an axis. -/
noncomputable def tip (c : Point ℝ) (rx ry : ℝ) (d : Offset ℝ) : Point ℝ :=
  c + (⟨rx * d.dx, ry * d.dy⟩ : Offset ℝ)

/-- Where a piece of the circle reaches the end of a direction, its image reaches that of the
ellipse. -/
theorem eval_image_tip (c : Point ℝ) (rx ry : ℝ) {d : Offset ℝ} {P : Piece ℝ} {t : ℝ}
    (h : P.eval t = (⟨d.dx, d.dy⟩ : Point ℝ)) :
    (P.image (.stretch c rx ry)).eval t = tip c rx ry d := by
  rw [Piece.eval_image, h, Transform.apply_stretch]
  ext <;> simp [tip, add_comm]

theorem box_ellipse (hc : c.InRange) (hx : 0 ≤ rx) (hy : 0 ≤ ry) :
    (ellipse c rx ry).box = ⟨⟨c.x - rx, c.y - ry⟩, ⟨c.x + rx, c.y + ry⟩⟩ := by
  obtain ⟨hcx, hcy⟩ := hc
  rw [abs_le] at hcx hcy
  refine Box.Within.antisymm ?_ ?_
  · refine Box.ofPoints_within_iff.mpr ⟨⟨?_, ?_, ?_, ?_⟩, fun p hp => ?_⟩
    · exact (sub_le_self c.x hx).trans hcx.2
    · exact (sub_le_self c.y hy).trans hcy.2
    · exact hcx.1.trans (le_add_of_nonneg_right hx)
    · exact hcy.1.trans (le_add_of_nonneg_right hy)
    · obtain ⟨s, hs, hp⟩ := List.mem_flatMap.mp hp
      rw [ellipse, Shape.ellipse_eq] at hs
      obtain ⟨s', hs', rfl⟩ := List.mem_map.mp hs
      rw [Segment.transform, Segment.controlPoints_mapPoints] at hp
      obtain ⟨q, hq, rfl⟩ := List.mem_map.mp hp
      obtain ⟨hqx, hqy⟩ := controlPoints_unitCircle s' hs' q hq
      rw [abs_le] at hqx hqy
      rw [Transform.apply_stretch]
      constructor <;> dsimp only <;> nlinarith
  · have htip {d : Offset ℝ} (hd : d.IsAxis) : (ellipse c rx ry).box.Contains (tip c rx ry d) := by
      obtain ⟨P, hP, hstart⟩ := hd.exists_start
      refine OnCurve.contains_box
        ⟨_, ?_, 0, ⟨le_rfl, zero_le_one⟩, eval_image_tip c rx ry hstart⟩
      rw [pieces_ellipse]
      exact List.mem_map_of_mem hP
    have hwest := (htip .west).min_x
    have hsouth := (htip .south).min_y
    have heast := (htip .east).max_x
    have hnorth := (htip .north).max_y
    simp only [tip, Point.add_x, Point.add_y, mul_one, mul_neg, ← sub_eq_add_neg]
      at hwest hsouth heast hnorth
    exact ⟨hwest, hsouth, heast, hnorth⟩

theorem center_box_ellipse (hc : c.InRange) (hx : 0 ≤ rx) (hy : 0 ≤ ry) :
    (ellipse c rx ry).box.center = c := by
  rw [box_ellipse hc hx hy]
  ext <;> simp [Box.center, Point.midpoint]

theorem diagonalSq_ellipse (hc : c.InRange) (hx : 0 ≤ rx) (hy : 0 ≤ ry) :
    (ellipse c rx ry).box.diagonalSq = 4 * (rx ^ 2 + ry ^ 2) := by
  rw [box_ellipse hc hx hy]
  simp only [Box.diagonalSq, Box.width, Box.height]
  ring

end Path

namespace Piece

theorem relativeTo_origin (P : Piece ℝ) : P.relativeTo Point.origin = P := by
  simp [relativeTo, Point.origin]

theorem relativeTo_stretch (c : Point ℝ) (rx ry : ℝ) (P : Piece ℝ) :
    (P.image (.stretch c rx ry)).relativeTo c = ⟨P.x.scale rx, P.y.scale ry⟩ := by
  ext <;> simp [relativeTo, image, Transform.stretch, Cubic.scale, Cubic.map]

end Piece

namespace Moments

theorem ofPiece_origin (P : Piece ℝ) : ofPiece Point.origin P =
    ⟨Quadrature.gaussLegendre
        (fun t => P.y.eval t * P.x.derivative t + 2 * P.x.eval t * P.y.derivative t) 0 1,
      Quadrature.gaussLegendre (fun t => P.x.eval t * P.x.eval t * P.y.derivative t) 0 1 / 2,
      -(Quadrature.gaussLegendre (fun t => P.y.eval t * P.y.eval t * P.x.derivative t) 0 1 / 2)⟩ := by
  simp only [ofPiece, addPiece, zero, Piece.relativeTo_origin, zero_add, zero_sub]
  rfl

theorem ofPiece_scale (k m : ℝ) (P : Piece ℝ) :
    ofPiece Point.origin ⟨P.x.scale k, P.y.scale m⟩ =
      ⟨k * m * (ofPiece Point.origin P).area, k ^ 2 * m * (ofPiece Point.origin P).mx,
        k * m ^ 2 * (ofPiece Point.origin P).my⟩ := by
  rw [ofPiece_origin, ofPiece_origin]
  ext
  · dsimp only
    rw [← Quadrature.gaussLegendre_const_mul]
    congr 1
    funext t
    simp only [Cubic.eval_scale, Cubic.derivative_scale]
    ring
  · dsimp only
    rw [← mul_div_assoc, ← Quadrature.gaussLegendre_const_mul]
    congr 2
    funext t
    simp only [Cubic.eval_scale, Cubic.derivative_scale]
    ring
  · dsimp only
    rw [mul_neg, ← mul_div_assoc, ← Quadrature.gaussLegendre_const_mul]
    congr 3
    funext t
    simp only [Cubic.eval_scale, Cubic.derivative_scale]
    ring

theorem ofPiece_stretch (c : Point ℝ) (rx ry : ℝ) (P : Piece ℝ) :
    ofPiece c (P.image (.stretch c rx ry)) =
      ⟨rx * ry * (ofPiece Point.origin P).area, rx ^ 2 * ry * (ofPiece Point.origin P).mx,
        rx * ry ^ 2 * (ofPiece Point.origin P).my⟩ := by
  rw [← ofPiece_scale, ← Piece.relativeTo_stretch c]
  simp only [ofPiece, addPiece, Piece.relativeTo_origin]

/-- Half a turn changes the signs of the first moments. -/
theorem ofPiece_half_turn (P : Piece ℝ) : ofPiece Point.origin P.turn.turn =
    ⟨(ofPiece Point.origin P).area, -(ofPiece Point.origin P).mx,
      -(ofPiece Point.origin P).my⟩ := by
  refine (ofPiece_scale (-1) (-1) P).trans ?_
  ext <;> simp

/-- A piece and the one a quarter turn on add twice what is swept from the centre. -/
theorem area_add_area_turn (P : Piece ℝ) :
    (ofPiece Point.origin P).area + (ofPiece Point.origin P.turn).area =
      Quadrature.gaussLegendre
        (fun t => P.x.eval t * P.y.derivative t - P.y.eval t * P.x.derivative t) 0 1 := by
  rw [ofPiece_origin, ofPiece_origin]
  dsimp only
  rw [← Quadrature.gaussLegendre_add]
  congr 1
  funext t
  simp only [Piece.turn, Cubic.eval_scale, Cubic.derivative_scale]
  ring

end Moments

namespace Shape

theorem sum_eighths (g : Piece ℝ → ℝ) : (eighths.map g).sum =
    (quarter.map fun Q => g Q + g Q.turn + (g Q.turn.turn + g Q.turn.turn.turn)).sum := by
  simp only [eighths, quarter, List.range_succ, List.range_zero, List.nil_append, List.cons_append,
    List.flatMap_cons, List.flatMap_nil, List.map_cons, List.map_nil, List.append_nil,
    List.sum_cons, List.sum_nil, Function.iterate_succ, Function.iterate_zero, Function.comp, id]
  ring

/-- What the rule takes for the area of the unit circle. -/
noncomputable def circleArea : ℝ := (eighths.map fun P => (Moments.ofPiece Point.origin P).area).sum

theorem sweep_quarter {Q : Piece ℝ} (hQ : Q ∈ quarter) {t : ℝ} (ht : t ∈ Set.Icc (0 : ℝ) 1) :
    0.3 ≤ Q.x.eval t * Q.y.derivative t - Q.y.eval t * Q.x.derivative t := by
  rcases List.mem_pair.mp hQ with rfl | rfl
  · exact sweep_pos ht
  · have hmirror := sweep_pos (t := 1 - t) ⟨by linarith [ht.2], by linarith [ht.1]⟩
    simp only [second, Cubic.eval_reverse, Cubic.derivative_reverse]
    linarith

/-- Each piece of the quarter sweeps some area, and the turned pieces sweep the same. -/
theorem circleArea_ge (h : Quadrature.Averaging) : 0.6 ≤ circleArea := by
  have hturned (Q : Piece ℝ) (hQ : Q ∈ quarter) : 0.3 ≤
      (Moments.ofPiece Point.origin Q).area + (Moments.ofPiece Point.origin Q.turn).area +
        ((Moments.ofPiece Point.origin Q.turn.turn).area +
          (Moments.ofPiece Point.origin Q.turn.turn.turn).area) := by
    have hsweep := h.le_gaussLegendre (by norm_num) fun t ht => sweep_quarter hQ ht
    rw [← Moments.area_add_area_turn] at hsweep
    rw [Moments.ofPiece_half_turn, Moments.ofPiece_half_turn]
    linarith
  have hfirst := hturned first (by simp [quarter])
  have hsecond := hturned second (by simp [quarter])
  rw [circleArea, sum_eighths, quarter, List.map_cons, List.map_singleton, List.sum_pair]
  linarith

end Shape

namespace Path

variable {c : Point ℝ} {rx ry : ℝ}

theorem moments_ellipse (hc : c.InRange) (hx : 0 ≤ rx) (hy : 0 ≤ ry) :
    (ellipse c rx ry).moments = ⟨circleArea * (rx * ry), 0, 0⟩ := by
  have hopposite (g : Piece ℝ → ℝ) (hg : ∀ P, g P.turn.turn = -g P) : (eighths.map g).sum = 0 := by
    rw [sum_eighths]
    simp [hg, quarter]
    ring
  rw [moments, center_box_ellipse hc hx hy, pieces_ellipse, Moments.ofPieces_eq_sum]
  simp only [List.map_map, Function.comp_def, Moments.ofPiece_stretch, List.sum_map_mul_left]
  rw [hopposite (fun P => (Moments.ofPiece Point.origin P).mx) fun P =>
      congrArg Moments.mx (Moments.ofPiece_half_turn P),
    hopposite (fun P => (Moments.ofPiece Point.origin P).my) fun P =>
      congrArg Moments.my (Moments.ofPiece_half_turn P), circleArea]
  ext
  · exact mul_comm _ _
  · exact mul_zero _
  · exact mul_zero _

theorem isClosed_ellipse (c : Point ℝ) (rx ry : ℝ) : (ellipse c rx ry).isClosed = true :=
  beq_iff_eq.mpr (topology_ellipse c rx ry)

theorem area_ellipse (hc : c.InRange) (hx : 0 ≤ rx) (hy : 0 ≤ ry) :
    (ellipse c rx ry).area = some (circleArea * (rx * ry)) := by
  rw [area, if_pos (isClosed_ellipse c rx ry), moments_ellipse hc hx hy]

end Path

/-- Radii of at least one, neither more than a million times the other. -/
structure Shape.Balanced (rx ry : ℝ) : Prop where
  one_le_x : 1 ≤ rx
  one_le_y : 1 ≤ ry
  x_le : rx ≤ 1e6 * ry
  y_le : ry ≤ 1e6 * rx

namespace Path

variable {c : Point ℝ} {rx ry : ℝ}

/-- The area does not count as zero, and the first moments are zero. -/
theorem centroid_ellipse (hrule : Quadrature.Averaging) (hc : c.InRange) (h : Balanced rx ry) :
    (ellipse c rx ry).centroid = .ok c := by
  have hx : 0 ≤ rx := zero_le_one.trans h.one_le_x
  have hy : 0 ≤ ry := zero_le_one.trans h.one_le_y
  have harea := circleArea_ge hrule
  have hlarge : 0.6 * (rx * ry) ≤ circleArea * (rx * ry) := by gcongr
  have hxx : rx ^ 2 ≤ 1e6 * (rx * ry) := by nlinarith [h.x_le]
  have hyy : ry ^ 2 ≤ 1e6 * (rx * ry) := by nlinarith [h.y_le]
  have hpos : 1 ≤ rx * ry := one_le_mul_of_one_le_of_one_le h.one_le_x h.one_le_y
  have hmoments := moments_ellipse hc hx hy
  rw [centroid_of_isClosed (isClosed_ellipse c rx ry), hmoments, diagonalSq_ellipse hc hx hy,
    center_box_ellipse hc hx hy, if_neg]
  · refine congrArg Except.ok ?_
    ext <;> simp [Moments.centroid]
  · dsimp only
    rw [not_le, areaEpsilon, abs_of_pos (by linarith)]
    linarith

end Path

end Drafting
