import Mathlib.Algebra.Polynomial.Eval.SMul
import Mathlib.Analysis.Calculus.Deriv.Polynomial
import Mathlib.Topology.Algebra.Polynomial
import Drafting.Proofs.Path.Chain
import Drafting.Proofs.Path.Legendre
import Drafting.Proofs.Path.Moments
import Drafting.Proofs.Transform.Affine

/-!
# Green's theorem for closed outlines

Along a piece the integrands of the area and of the first moments are polynomials of degree
eight at most, so a rule that is exact for those gives the integrals themselves. What the area
integrand has besides `x y'` is the derivative of a function of the place, and such derivatives
cancel around closed pieces.

The integrals `∫ x dy`, `½ ∫ x² dy` and `-½ ∫ y² dx` around closed pieces change under an affine
map as the area and the first moments of the region do. Coordinates about a centre are such a
map, and so neither the area nor the centroid depends on the centre that was chosen.
-/

namespace Drafting

open Polynomial

section

variable [ExactTables]

namespace Cubic

/-- The polynomial in Mathlib's sense. -/
noncomputable def polynomial (c : Cubic ℝ) : ℝ[X] :=
  C c.c0 + C c.c1 * X + C c.c2 * X ^ 2 + C c.c3 * X ^ 3

theorem eval_polynomial (c : Cubic ℝ) (t : ℝ) : c.polynomial.eval t = c.eval t := by
  simp only [polynomial, eval_add, eval_mul, eval_pow, eval_C, eval_X, Cubic.eval]
  ring

theorem eval_derivative_polynomial (c : Cubic ℝ) (t : ℝ) :
    (Polynomial.derivative c.polynomial).eval t = c.derivative t := by
  simp only [polynomial, derivative_add, derivative_C_mul, derivative_C, derivative_X,
    derivative_X_pow, eval_add, eval_mul, eval_pow, eval_C, eval_X, eval_one, eval_zero, derivative]
  push_cast
  ring

omit [ExactTables] in
theorem natDegree_polynomial_le (c : Cubic ℝ) : c.polynomial.natDegree ≤ 3 := by
  unfold polynomial
  compute_degree

omit [ExactTables] in
theorem natDegree_derivative_polynomial_le (c : Cubic ℝ) :
    (Polynomial.derivative c.polynomial).natDegree ≤ 2 :=
  (natDegree_derivative_le _).trans (Nat.sub_le_sub_right c.natDegree_polynomial_le 1)

theorem hasDerivAt_eval (c : Cubic ℝ) (t : ℝ) : HasDerivAt c.eval (c.derivative t) t := by
  rw [← eval_derivative_polynomial, ← funext c.eval_polynomial]
  exact c.polynomial.hasDerivAt t

end Cubic

noncomputable def unitIntegral : ℝ[X] →ₗ[ℝ] ℝ where
  toFun p := ∫ t in (0 : ℝ)..1, p.eval t
  map_add' p q := by
    simp only [eval_add]
    exact intervalIntegral.integral_add (p.continuous.intervalIntegrable 0 1)
      (q.continuous.intervalIntegrable 0 1)
  map_smul' k p := by simp only [eval_smul, intervalIntegral.integral_smul, RingHom.id_apply]

theorem unitIntegral_derivative (p : ℝ[X]) :
    unitIntegral (Polynomial.derivative p) = p.eval 1 - p.eval 0 :=
  intervalIntegral.integral_eq_sub_of_hasDerivAt (fun t _ => p.hasDerivAt t)
    ((Polynomial.derivative p).continuous.intervalIntegrable 0 1)

theorem Quadrature.ExactTo.eq_unitIntegral (h : ExactTo 8) {f : ℝ → ℝ} {p : ℝ[X]}
    (hp : p.natDegree ≤ 8) (hf : ∀ t, f t = p.eval t) : gaussLegendre f 0 1 = unitIntegral p := by
  rw [funext hf]
  exact h.gaussLegendre_eval hp 0 1

namespace Cubic

/-- The integrand of the area is `x y'` and the derivative of `x y`. -/
theorem gaussLegendre_area (h : Quadrature.ExactTo 8) (x y : Cubic ℝ) :
    Quadrature.gaussLegendre
        (fun t => y.eval t * x.derivative t + 2 * x.eval t * y.derivative t) 0 1 =
      unitIntegral (x.polynomial * Polynomial.derivative y.polynomial) +
        (x.eval 1 * y.eval 1 - x.eval 0 * y.eval 0) := by
  have hproduct : (x.polynomial * Polynomial.derivative y.polynomial).natDegree ≤ 5 :=
    natDegree_mul_le_of_le x.natDegree_polynomial_le y.natDegree_derivative_polynomial_le
  have hchange : (Polynomial.derivative (x.polynomial * y.polynomial)).natDegree ≤ 5 :=
    (natDegree_derivative_le _).trans (Nat.sub_le_sub_right
      (natDegree_mul_le_of_le x.natDegree_polynomial_le y.natDegree_polynomial_le) 1)
  rw [h.eq_unitIntegral ((natDegree_add_le_of_degree_le hproduct hchange).trans (by decide)),
    map_add, unitIntegral_derivative]
  · simp only [eval_mul, eval_polynomial]
  · intro t
    simp only [derivative_mul, eval_add, eval_mul, eval_polynomial, eval_derivative_polynomial]
    ring

theorem gaussLegendre_sq (h : Quadrature.ExactTo 8) (x y : Cubic ℝ) :
    Quadrature.gaussLegendre (fun t => x.eval t * x.eval t * y.derivative t) 0 1 =
      unitIntegral (x.polynomial ^ 2 * Polynomial.derivative y.polynomial) := by
  refine h.eq_unitIntegral ?_ fun t => ?_
  · exact natDegree_mul_le_of_le (natDegree_pow_le_of_le 2 x.natDegree_polynomial_le)
      y.natDegree_derivative_polynomial_le
  · simp only [eval_mul, eval_polynomial, eval_derivative_polynomial, sq]

end Cubic

/-- Products with a derivative, of linear combinations: besides multiples of `x y'` there are only
derivatives of functions of the place. -/
theorem exists_potential (a b c d e f : ℝ) : ∃ F : Point ℝ → ℝ, ∀ x y : ℝ[X],
    unitIntegral ((C a * x + C c * y + C e) * Polynomial.derivative (C b * x + C d * y + C f)) =
      (a * d - c * b) * unitIntegral (x * Polynomial.derivative y) +
        (F ⟨x.eval 1, y.eval 1⟩ - F ⟨x.eval 0, y.eval 0⟩) := by
  refine ⟨fun p => a * b / 2 * p.x ^ 2 + b * c * (p.x * p.y) + c * d / 2 * p.y ^ 2 + b * e * p.x +
    d * e * p.y, fun x y => ?_⟩
  let F : ℝ[X] := C (a * b / 2) * x ^ 2 + C (b * c) * (x * y) + C (c * d / 2) * y ^ 2 +
    C (b * e) * x + C (d * e) * y
  have hsplit : (C a * x + C c * y + C e) * Polynomial.derivative (C b * x + C d * y + C f) =
      (a * d - c * b) • (x * Polynomial.derivative y) + Polynomial.derivative F := by
    refine Polynomial.funext fun t => ?_
    simp [F, derivative_pow]
    ring
  rw [hsplit, map_add, map_smul, unitIntegral_derivative, smul_eq_mul]
  simp [F]

theorem exists_potential_sq (a b c d e f : ℝ) : ∃ F : Point ℝ → ℝ, ∀ x y : ℝ[X],
    unitIntegral ((C a * x + C c * y + C e) ^ 2 *
        Polynomial.derivative (C b * x + C d * y + C f)) =
      (a * d - c * b) * (a * unitIntegral (x ^ 2 * Polynomial.derivative y) -
          c * unitIntegral (y ^ 2 * Polynomial.derivative x) +
            2 * e * unitIntegral (x * Polynomial.derivative y)) +
        (F ⟨x.eval 1, y.eval 1⟩ - F ⟨x.eval 0, y.eval 0⟩) := by
  refine ⟨fun p => a ^ 2 * b / 3 * p.x ^ 3 + a * b * c * (p.x ^ 2 * p.y) +
    a * c * d * (p.x * p.y ^ 2) + c ^ 2 * d / 3 * p.y ^ 3 + a * b * e * p.x ^ 2 +
      2 * b * c * e * (p.x * p.y) + c * d * e * p.y ^ 2 + b * e ^ 2 * p.x + d * e ^ 2 * p.y,
    fun x y => ?_⟩
  let F : ℝ[X] := C (a ^ 2 * b / 3) * x ^ 3 + C (a * b * c) * (x ^ 2 * y) +
    C (a * c * d) * (x * y ^ 2) + C (c ^ 2 * d / 3) * y ^ 3 + C (a * b * e) * x ^ 2 +
      C (2 * b * c * e) * (x * y) + C (c * d * e) * y ^ 2 + C (b * e ^ 2) * x + C (d * e ^ 2) * y
  have hsplit : (C a * x + C c * y + C e) ^ 2 * Polynomial.derivative (C b * x + C d * y + C f) =
      ((a * d - c * b) * a) • (x ^ 2 * Polynomial.derivative y) -
        ((a * d - c * b) * c) • (y ^ 2 * Polynomial.derivative x) +
          ((a * d - c * b) * (2 * e)) • (x * Polynomial.derivative y) +
            Polynomial.derivative F := by
    refine Polynomial.funext fun t => ?_
    simp [F, derivative_pow]
    ring
  rw [hsplit, map_add, map_add, map_sub, map_smul, map_smul, map_smul, unitIntegral_derivative]
  simp [F]
  ring

namespace Piece

noncomputable def image (t : Transform ℝ) (p : Piece ℝ) : Piece ℝ :=
  let m := t.matrix
  let x := p.x
  let y := p.y
  ⟨⟨m.first.x * x.c0 + m.second.x * y.c0 + m.third.x, m.first.x * x.c1 + m.second.x * y.c1,
      m.first.x * x.c2 + m.second.x * y.c2, m.first.x * x.c3 + m.second.x * y.c3⟩,
    ⟨m.first.y * x.c0 + m.second.y * y.c0 + m.third.y, m.first.y * x.c1 + m.second.y * y.c1,
      m.first.y * x.c2 + m.second.y * y.c2, m.first.y * x.c3 + m.second.y * y.c3⟩⟩

theorem eval_image (t : Transform ℝ) (p : Piece ℝ) (s : ℝ) :
    (p.image t).eval s = t.apply (p.eval s) := by
  ext
  · simp only [image, eval, Cubic.eval, Transform.apply_eq]
    ring
  · simp only [image, eval, Cubic.eval, Transform.apply_eq]
    ring

theorem polynomial_image_x (t : Transform ℝ) (p : Piece ℝ) :
    (p.image t).x.polynomial = C t.matrix.first.x * p.x.polynomial +
      C t.matrix.second.x * p.y.polynomial + C t.matrix.third.x :=
  Polynomial.funext fun s => by
    simp only [eval_add, eval_mul, eval_C, Cubic.eval_polynomial]
    exact congrArg Point.x (p.eval_image t s)

theorem polynomial_image_y (t : Transform ℝ) (p : Piece ℝ) :
    (p.image t).y.polynomial = C t.matrix.first.y * p.x.polynomial +
      C t.matrix.second.y * p.y.polynomial + C t.matrix.third.y :=
  Polynomial.funext fun s => by
    simp only [eval_add, eval_mul, eval_C, Cubic.eval_polynomial]
    exact congrArg Point.y (p.eval_image t s)

theorem eval_polynomials (p : Piece ℝ) (s : ℝ) :
    (⟨p.x.polynomial.eval s, p.y.polynomial.eval s⟩ : Point ℝ) = p.eval s := by
  simp only [Cubic.eval_polynomial, eval]

theorem relativeTo_eq_image (p : Piece ℝ) (center : Point ℝ) :
    p.relativeTo center = p.image ⟨Matrix.shift (-center.x) (-center.y)⟩ := by
  simp [relativeTo, image, Matrix.shift, sub_eq_add_neg]

end Piece

/-- The factor by which a transform multiplies areas. -/
noncomputable def Transform.linearDet (t : Transform ℝ) : ℝ :=
  t.matrix.first.x * t.matrix.second.y - t.matrix.second.x * t.matrix.first.y

namespace Moments

noncomputable def image (t : Transform ℝ) (m : Moments ℝ) : Moments ℝ :=
  ⟨t.linearDet * m.area,
    t.linearDet * (t.matrix.first.x * m.mx + t.matrix.second.x * m.my + t.matrix.third.x * m.area),
    t.linearDet * (t.matrix.first.y * m.mx + t.matrix.second.y * m.my + t.matrix.third.y * m.area)⟩

theorem image_shift (dx dy : ℝ) (m : Moments ℝ) :
    m.image ⟨Matrix.shift dx dy⟩ = ⟨m.area, m.mx + dx * m.area, m.my + dy * m.area⟩ := by
  simp [image, Transform.linearDet, Matrix.shift]

/-- The integrals of `x dy`, of half of `x² dy` and of the opposite of half of `y² dx` along a
piece. -/
noncomputable def alongPiece (p : Piece ℝ) : Moments ℝ where
  area := ∫ t in (0 : ℝ)..1, (p.eval t).x * (p.derivative t).dy
  mx := (∫ t in (0 : ℝ)..1, (p.eval t).x ^ 2 * (p.derivative t).dy) / 2
  my := -(∫ t in (0 : ℝ)..1, (p.eval t).y ^ 2 * (p.derivative t).dx) / 2

/-- By Green's theorem the area and the first moments about the origin of the region that closed
pieces run around. -/
noncomputable def around (ps : List (Piece ℝ)) : Moments ℝ :=
  ⟨(ps.map fun p => (alongPiece p).area).sum, (ps.map fun p => (alongPiece p).mx).sum,
    (ps.map fun p => (alongPiece p).my).sum⟩

theorem alongPiece_eq (p : Piece ℝ) :
    alongPiece p =
      ⟨unitIntegral (p.x.polynomial * Polynomial.derivative p.y.polynomial),
        unitIntegral (p.x.polynomial ^ 2 * Polynomial.derivative p.y.polynomial) / 2,
        -unitIntegral (p.y.polynomial ^ 2 * Polynomial.derivative p.x.polynomial) / 2⟩ := by
  simp only [unitIntegral, LinearMap.coe_mk, AddHom.coe_mk, eval_mul, eval_pow,
    Cubic.eval_polynomial, Cubic.eval_derivative_polynomial]
  rfl

variable {ps : List (Piece ℝ)} {a : Point ℝ}

theorem around_image (t : Transform ℝ) (h : Piece.Leads a ps a) :
    around (ps.map (Piece.image t)) = (around ps).image t := by
  obtain ⟨F, hF⟩ := exists_potential t.matrix.first.x t.matrix.first.y t.matrix.second.x
    t.matrix.second.y t.matrix.third.x t.matrix.third.y
  obtain ⟨G, hG⟩ := exists_potential_sq t.matrix.first.x t.matrix.first.y t.matrix.second.x
    t.matrix.second.y t.matrix.third.x t.matrix.third.y
  obtain ⟨H, hH⟩ := exists_potential_sq t.matrix.first.y t.matrix.first.x t.matrix.second.y
    t.matrix.second.x t.matrix.third.y t.matrix.third.x
  have harea := h.sum_eq (G := fun p => (alongPiece (p.image t)).area)
    (H := fun p => t.linearDet * (alongPiece p).area) (F := F) fun p => by
      simp only [alongPiece_eq, Piece.polynomial_image_x, Piece.polynomial_image_y, hF,
        Piece.eval_polynomials, Transform.linearDet]
  have hmx := h.sum_eq (G := fun p => (alongPiece (p.image t)).mx)
    (H := fun p => t.linearDet * (t.matrix.first.x * (alongPiece p).mx +
      t.matrix.second.x * (alongPiece p).my + t.matrix.third.x * (alongPiece p).area))
    (F := fun q => G q / 2) fun p => by
      simp only [alongPiece_eq, Piece.polynomial_image_x, Piece.polynomial_image_y, hG,
        Piece.eval_polynomials, Transform.linearDet]
      ring
  have hmy := h.sum_eq (G := fun p => (alongPiece (p.image t)).my)
    (H := fun p => t.linearDet * (t.matrix.first.y * (alongPiece p).mx +
      t.matrix.second.y * (alongPiece p).my + t.matrix.third.y * (alongPiece p).area))
    (F := fun q => -H q / 2) fun p => by
      simp only [alongPiece_eq, Piece.polynomial_image_x, Piece.polynomial_image_y, hH,
        Piece.eval_polynomials, Transform.linearDet]
      ring
  simp only [List.sum_map_mul_left, List.sum_map_add] at harea hmx hmy
  simp only [around, image, List.map_map, Function.comp_def, harea, hmx, hmy]

/-- What a piece adds are the integrals along it in coordinates about the centre, for the area with
the change of the product of these coordinates. -/
theorem ofPiece_eq (h : Quadrature.ExactTo 8) (center : Point ℝ) (p : Piece ℝ) :
    let q := p.relativeTo center
    ofPiece center p = ⟨(alongPiece q).area +
        ((q.eval 1).x * (q.eval 1).y - (q.eval 0).x * (q.eval 0).y),
      (alongPiece q).mx, (alongPiece q).my⟩ := by
  intro q
  have harea := Cubic.gaussLegendre_area h q.x q.y
  have hmx := Cubic.gaussLegendre_sq h q.x q.y
  have hmy := Cubic.gaussLegendre_sq h q.y q.x
  simp only [ofPiece, addPiece, zero, Piece.eval, Piece.derivative]
  rw [harea, hmx, hmy, alongPiece_eq]
  ext
  · simp
  · simp
  · simp [neg_div]

/-- The moments about a centre are those around the pieces in coordinates about it. -/
theorem ofPieces_eq_around (h : Quadrature.ExactTo 8) (hps : Piece.Leads a ps a)
    (center : Point ℝ) :
    ofPieces ps center = ⟨(around ps).area, (around ps).mx - center.x * (around ps).area,
      (around ps).my - center.y * (around ps).area⟩ := by
  have harea := hps.sum_eq (G := fun p => (ofPiece center p).area)
    (H := fun p => (alongPiece (p.relativeTo center)).area)
    (F := fun q => (q.x - center.x) * (q.y - center.y)) fun p => by
      rw [ofPiece_eq h]
      simp only [Piece.relativeTo_eq_image, Piece.eval_image, Transform.apply_eq, Matrix.shift]
      ring
  have hcentered : ofPieces ps center =
      around (ps.map (Piece.image ⟨Matrix.shift (-center.x) (-center.y)⟩)) := by
    rw [ofPieces_eq_sum, harea]
    simp only [ofPiece_eq h, around, List.map_map, Function.comp_def, Piece.relativeTo_eq_image]
  rw [hcentered, around_image _ hps, image_shift]
  simp only [neg_mul, ← sub_eq_add_neg]

theorem ofPieces_origin (h : Quadrature.ExactTo 8) (hps : Piece.Leads a ps a) :
    ofPieces ps Point.origin = around ps := by
  rw [ofPieces_eq_around h hps]
  simp [Point.origin]

theorem area_ofPieces (h : Quadrature.ExactTo 8) (hps : Piece.Leads a ps a) (center : Point ℝ) :
    (ofPieces ps center).area = (around ps).area := by
  rw [ofPieces_eq_around h hps]

/-- With any centre the centroid is that from the moments about the origin. -/
theorem centroid_ofPieces (h : Quadrature.ExactTo 8) (hps : Piece.Leads a ps a)
    (hA : (around ps).area ≠ 0) (center : Point ℝ) :
    (ofPieces ps center).centroid center = (around ps).centroid Point.origin := by
  rw [ofPieces_eq_around h hps]
  ext
  · simp only [centroid, Point.origin, Point.add_x]
    field_simp
    ring
  · simp only [centroid, Point.origin, Point.add_y]
    field_simp
    ring

end Moments

theorem Path.moments_eq_around (h : Quadrature.ExactTo 8) {p : Path ℝ} (hp : p.isClosed = true) :
    p.moments.area = (Moments.around p.pieces).area ∧
      (p.moments.area ≠ 0 →
        p.moments.centroid p.box.center = (Moments.around p.pieces).centroid Point.origin) := by
  obtain ⟨a, hps⟩ := leads_of_isClosed hp
  have harea := Moments.area_ofPieces h hps p.box.center
  exact ⟨harea, fun hne => Moments.centroid_ofPieces h hps (by rwa [← harea]) p.box.center⟩

end
end Drafting
