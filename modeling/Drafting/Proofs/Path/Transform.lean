import Drafting.Proofs.Path.Shoelace
import Drafting.Proofs.Transform.Composition

/-!
# Paths under a transform

The pieces of a mapped path are the images of the pieces, because the coefficients of a piece are
affine in its defining points. Closed pieces have closed images, and around those the integrals of
Green's theorem change as under an affine map. The box of a mapped path is not the mapped box, so
the moments are taken about a different centre; the area and the centroid do not depend on it.
-/

namespace Drafting

section

variable [ExactTables] {t : Transform ℝ}

namespace Piece

theorem line_image (t : Transform ℝ) (a b : Point ℝ) :
    line (t.apply a) (t.apply b) = (line a b).image t := by
  simp only [line, image, Transform.apply_eq]
  ext
  all_goals ring

theorem cubic_image (t : Transform ℝ) (a b c d : Point ℝ) :
    cubic (t.apply a) (t.apply b) (t.apply c) (t.apply d) = (cubic a b c d).image t := by
  simp only [cubic, bezier, image, Transform.apply_eq]
  ext
  all_goals ring

end Piece

theorem Segment.pieces_transform (t : Transform ℝ) (s : Segment ℝ) :
    (s.transform t).pieces = s.pieces.map (Piece.image t) := by
  cases s with
  | polyline points h =>
    simp only [transform, mapPoints, pieces, neighbours_map, List.map_map]
    congr 1
    funext e
    exact Piece.line_image t e.1 e.2
  | cubic a b c d => exact congrArg (fun p => [p]) (Piece.cubic_image t a b c d)

namespace Path

variable {p : Path ℝ}

theorem pieces_transform (t : Transform ℝ) (p : Path ℝ) :
    (p.transform t).pieces = p.pieces.map (Piece.image t) := by
  simp only [pieces, transform, List.flatMap_map, List.map_flatMap, Segment.pieces_transform]

theorem topology_transform (ht : Function.Injective t.apply) (p : Path ℝ) :
    (p.transform t).topology = p.topology :=
  Topology.classify_map ht p.segments

theorem isClosed_transform (ht : Function.Injective t.apply) (p : Path ℝ) :
    (p.transform t).isClosed = p.isClosed := by
  rw [isClosed, topology_transform ht]
  rfl

theorem around_transform (t : Transform ℝ) (hp : p.isClosed = true) :
    Moments.around (p.transform t).pieces = (Moments.around p.pieces).image t := by
  obtain ⟨a, hps⟩ := leads_of_isClosed hp
  rw [pieces_transform, Moments.around_image t hps]

theorem area_transform (h : Quadrature.ExactTo 8) (ht : Function.Injective t.apply) (p : Path ℝ) :
    (p.transform t).area = p.area.map fun a => t.linearDet * a := by
  have hclosed := isClosed_transform ht p
  by_cases hp : p.isClosed = true
  · rw [hp] at hclosed
    rw [area, area, if_pos hclosed, if_pos hp, (moments_eq_around h hclosed).1,
      around_transform t hp, (moments_eq_around h hp).1]
    rfl
  · rw [area, area, hclosed, if_neg hp, if_neg hp]
    rfl

/-- Both areas are divided by, and so the factor cancels. -/
theorem centroid_transform (h : Quadrature.ExactTo 8) {c c' : Point ℝ} (hc : p.centroid = .ok c)
    (hc' : (p.transform t).centroid = .ok c') : c' = t.apply c := by
  obtain ⟨hp, harea, rfl⟩ := eq_of_centroid hc
  obtain ⟨hp', harea', rfl⟩ := eq_of_centroid hc'
  rw [(moments_eq_around h hp).2 harea, (moments_eq_around h hp').2 harea']
  rw [(moments_eq_around h hp).1] at harea
  rw [(moments_eq_around h hp').1] at harea'
  rw [around_transform t hp] at harea' ⊢
  have hdet : t.linearDet ≠ 0 := left_ne_zero_of_mul harea'
  ext
  · simp only [Moments.centroid, Moments.image, Transform.apply_eq, Point.origin, Point.add_x,
      Point.add_y, zero_add]
    field_simp
  · simp only [Moments.centroid, Moments.image, Transform.apply_eq, Point.origin, Point.add_x,
      Point.add_y, zero_add]
    field_simp

/-- Under a transform made by any operations a path connects as before, its pieces are mapped
point by point at the same parameters, its area is multiplied by the determinant of the linear
part, and its centroid is mapped like a point where there are centroids before and after. -/
theorem transform_acts (h : Quadrature.ExactTo 8) (ops : List (TransformOp ℝ)) (p : Path ℝ) :
    let t := Transform.identity.run ops
    (p.transform t).topology = p.topology ∧
      List.Forall₂ (fun q q' => ∀ s, q'.eval s = t.apply (q.eval s)) p.pieces
        (p.transform t).pieces ∧
      (p.transform t).area = (p.area.map fun a => t.linearDet * a) ∧
      ∀ c c', p.centroid = .ok c → (p.transform t).centroid = .ok c' → c' = t.apply c := by
  intro t
  have hfollows := Transform.follows_run_identity ops
  have ht : Function.Injective t.apply :=
    Transform.apply_injective hfollows.det_ne_zero hfollows.affine
  refine ⟨topology_transform ht p, ?_, area_transform h ht p,
    fun c c' hc hc' => centroid_transform h hc hc'⟩
  rw [pieces_transform, List.forall₂_map_right_iff, List.forall₂_same]
  exact fun q _ => q.eval_image t

end Path

end

namespace Path

def rectangle (w b : ℝ) : Path ℝ :=
  ⟨[.polyline [⟨0, 0⟩, ⟨w, 0⟩, ⟨w, b⟩, ⟨0, b⟩, ⟨0, 0⟩] (by simp)]⟩

section

variable [ExactTables] {t : Transform ℝ} {w b : ℝ}

theorem topology_rectangle (w b : ℝ) : (rectangle w b).topology = .closed := by
  rw [topology_cons (p := rectangle w b) rfl]
  simp [Topology.connected, neighbours, Segment.finish, Segment.start, Point.beq_iff]

theorem box_rectangle (hw : 0 ≤ w) (hb : 0 ≤ b) : (rectangle w b).box = ⟨⟨0, 0⟩, ⟨w, b⟩⟩ := by
  have horigin : (⟨0, 0⟩ : Point ℝ).InRange := by simp [Point.InRange, Scalar.sentinel_pos.le]
  change Box.ofPoints [⟨0, 0⟩, ⟨w, 0⟩, ⟨w, b⟩, ⟨0, b⟩, ⟨0, 0⟩] = _
  rw [Box.ofPoints_cons horigin]
  simp [Box.insert_eq, hw, hb]

theorem shoelaceArea_rectangle (w b : ℝ) :
    Polygon.shoelaceArea (rectangle w b).controlPoints = w * b := by
  simp [rectangle, controlPoints, Segment.controlPoints, Polygon.shoelaceArea, Polygon.edges,
    Polygon.trace, neighbours, Polygon.cross]

theorem area_rectangle (h : Quadrature.ExactTo 8) (w b : ℝ) :
    (rectangle w b).area = some (w * b) := by
  rw [area_eq_shoelace h (beq_iff_eq.mpr (topology_rectangle w b)) (by simp [rectangle]),
    shoelaceArea_rectangle]

theorem centroid_rectangle (h : Quadrature.ExactTo 8) (hw : 0 < w) (hb : 0 < b)
    (hwide : areaEpsilon * (w * w + b * b) < w * b) :
    (rectangle w b).centroid = .ok ⟨w / 2, b / 2⟩ := by
  have hlarge : ¬|w * b| ≤ areaEpsilon * (rectangle w b).box.diagonalSq := by
    rw [box_rectangle hw.le hb.le, abs_of_pos (mul_pos hw hb), not_le]
    simpa [Box.diagonalSq, Box.width, Box.height] using hwide
  rw [centroid_eq_shoelace h (beq_iff_eq.mpr (topology_rectangle w b)) (by simp [rectangle]),
    shoelaceArea_rectangle, if_neg hlarge, Polygon.shoelaceCentroid, shoelaceArea_rectangle]
  congr 2
  · simp [rectangle, controlPoints, Segment.controlPoints, Polygon.edges, Polygon.trace, neighbours,
      Polygon.cross]
    field_simp
    ring
  · simp [rectangle, controlPoints, Segment.controlPoints, Polygon.edges, Polygon.trace, neighbours,
      Polygon.cross]
    field_simp
    ring

theorem transform_rectangle (ht : t.matrix = Matrix.scaling 2 3) (w b : ℝ) :
    (rectangle w b).transform t = rectangle (2 * w) (3 * b) := by
  simp [rectangle, transform, Segment.transform, Segment.mapPoints, Transform.apply_eq, ht,
    Matrix.scaling]

theorem matrix_run_scale {sx sy : ℝ} (hx : sx ≠ 0) (hy : sy ≠ 0) :
    (Transform.identity.run [.scale sx sy]).matrix = Matrix.scaling sx sy := by
  have hr : ¬(TransformOp.scale sx sy).Refused := by simp [TransformOp.Refused, hx, hy]
  change (Transform.identity.after (.scale sx sy)).matrix = _
  rw [Transform.after_of_not_refused (by simp [Transform.identity]) hr]
  simp [TransformOp.localMatrix, Transform.identity, Matrix.mul_def, Matrix.mulColumn_eq,
    Matrix.identity, Matrix.scaling]

end

/-- A rectangle stretched to another one, both with a centroid. -/
theorem transform_acts_stretched :
    let _ : ExactTables := ⟨Quadrature.eightPoint, fun _ => ⟨false, 0, 0⟩⟩
    let p := rectangle 2 1
    let t := Transform.identity.run [.scale 2 3]
    Quadrature.ExactTo 8 ∧ (p.transform t).topology = .closed ∧
      p.area = some 2 ∧ (p.transform t).area = some 12 ∧
      ∃ c c', p.centroid = .ok c ∧ (p.transform t).centroid = .ok c' ∧ c' = t.apply c := by
  intro _ p t
  have h : Quadrature.ExactTo 8 := (Quadrature.exactTo_of_legendre rfl).mono (by decide)
  have ht : t.matrix = Matrix.scaling 2 3 := matrix_run_scale two_ne_zero three_ne_zero
  have hdet : t.linearDet = 6 := by norm_num [Transform.linearDet, ht, Matrix.scaling]
  have hc := centroid_rectangle h (w := 2) (b := 1) zero_lt_two zero_lt_one
    (by norm_num [areaEpsilon])
  have hc' := centroid_rectangle h (w := 2 * 2) (b := 3 * 1) (by norm_num) (by norm_num)
    (by norm_num [areaEpsilon])
  rw [← transform_rectangle ht] at hc'
  obtain ⟨htopology, -, harea, hmapped⟩ := transform_acts h [.scale 2 3] p
  refine ⟨h, htopology.trans (topology_rectangle 2 1), ?_, harea.trans ?_, _, _, hc, hc',
    hmapped _ _ hc hc'⟩
  · rw [area_rectangle h, mul_one]
  · change (p.area.map fun a => t.linearDet * a) = some 12
    rw [area_rectangle h, hdet]
    norm_num

end Path

end Drafting
