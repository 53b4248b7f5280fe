import Drafting.Proofs.Node.Ray
import Drafting.Proofs.Node.Repeat
import Drafting.Proofs.Path.Ellipse

/-!
# Anchors of ellipses

What the centre and the four directions mean on a node over an ellipse. The rays look along the
axes from the centre, and each meets the outline where two of its pieces join: one piece ends
there, the next one starts there, and both answer with that point or leave it out. The end behind
the centre is answered as well. The radii may differ by a factor of a million; then the merge
distance is still shorter than the shorter radius, so the two ends stay apart, and the points in
front are one.
-/

namespace Drafting

open Shape

section

variable [ExactTables] {c : Point ℝ} {rx ry : ℝ} {d : Offset ℝ} {P : Piece ℝ}

theorem Shape.abs_coefficient_le (hP : P ∈ eighths) : ∀ k ∈ P.coefficients, |k| ≤ 1 := by
  have hx : Line.implicit ⟨0, 1⟩ P = P.x := by
    ext <;> simp [Line.implicit]
  have hy : Line.implicit ⟨-1, 0⟩ P = P.y := by
    ext <;> simp [Line.implicit]
  rintro k hk
  rcases List.mem_append.mp hk with hk | hk
  · exact (hx ▸ (Offset.IsAxis.north.cuts hP).1).abs_le_one hk
  · exact (hy ▸ (Offset.IsAxis.west.cuts hP).1).abs_le_one hk

/-- The radius across an axis, by which the polynomial of the line along it is multiplied. -/
noncomputable def Offset.crossRadius (d : Offset ℝ) (rx ry : ℝ) : ℝ :=
  rx * d.dy ^ 2 + ry * d.dx ^ 2

namespace Offset.IsAxis

theorem sq_add_sq (hd : d.IsAxis) : d.dx ^ 2 + d.dy ^ 2 = 1 := by
  cases hd <;> norm_num

theorem crossRadius_eq (hd : d.IsAxis) (rx ry : ℝ) :
    d.crossRadius rx ry = rx ∨ d.crossRadius rx ry = ry := by
  cases hd <;> simp [crossRadius]

theorem le_crossRadius (hd : d.IsAxis) (h : Balanced rx ry) :
    1 ≤ d.crossRadius rx ry ∧ rx + ry ≤ 1000001 * d.crossRadius rx ry := by
  have hx := h.x_le
  have hy := h.y_le
  rcases hd.crossRadius_eq rx ry with heq | heq
  · rw [heq]
    exact ⟨h.one_le_x, by linarith⟩
  · rw [heq]
    exact ⟨h.one_le_y, by linarith⟩

theorem polynomial_stretch (hd : d.IsAxis) (c : Point ℝ) (rx ry : ℝ) (P : Piece ℝ) :
    (⟨c, d⟩ : Line ℝ).polynomial (P.image (.stretch c rx ry)) =
      (Line.implicit d P).scale (d.crossRadius rx ry) := by
  rw [Line.polynomial, Piece.relativeTo_stretch]
  cases hd <;> ext <;> simp [Line.implicit, Cubic.scale, Cubic.map, crossRadius]

theorem eval_eq (hd : d.IsAxis) {t : ℝ} (hside : (Line.implicit d P).eval t = 0)
    (hreach : |d.dx * P.x.eval t + d.dy * P.y.eval t| = 1) :
    P.eval t = (⟨d.dx, d.dy⟩ : Point ℝ) ∨ P.eval t = (⟨(-d).dx, (-d).dy⟩ : Point ℝ) := by
  have hzero : d.dy * P.x.eval t - d.dx * P.y.eval t = 0 := by
    rw [← hside]
    simp only [Line.implicit, Cubic.eval]
    ring
  have hunit := hd.sq_add_sq
  rw [abs_eq zero_le_one] at hreach
  refine hreach.imp (fun h => ?_) fun h => ?_
  · ext
    · change P.x.eval t = d.dx
      linear_combination d.dx * h + d.dy * hzero - P.x.eval t * hunit
    · change P.y.eval t = d.dy
      linear_combination d.dy * h - d.dx * hzero - P.y.eval t * hunit
  · ext
    · change P.x.eval t = -d.dx
      linear_combination d.dx * h + d.dy * hzero - P.x.eval t * hunit
    · change P.y.eval t = -d.dy
      linear_combination d.dy * h - d.dx * hzero - P.y.eval t * hunit

end Offset.IsAxis

namespace Line

theorem abs_coefficient_image_le (h : Balanced rx ry) (c : Point ℝ) (hP : P ∈ eighths) :
    ∀ k ∈ ((P.image (.stretch c rx ry)).relativeTo c).coefficients, |k| ≤ rx + ry := by
  have hx := h.one_le_x
  have hy := h.one_le_y
  have hscale {r k : ℝ} (hr : 0 ≤ r) (hk : k ∈ P.coefficients) : |r * k| ≤ r := by
    rw [abs_mul, abs_of_nonneg hr]
    exact mul_le_of_le_one_right hr (abs_coefficient_le hP k hk)
  intro k hk
  rw [Piece.relativeTo_stretch, Piece.coefficients, List.mem_append, Cubic.coefficients_scale,
    Cubic.coefficients_scale] at hk
  rcases hk with hk | hk
  · obtain ⟨k, hk', rfl⟩ := List.mem_map.mp hk
    linarith [hscale (r := rx) (by linarith) (List.mem_append_left _ hk')]
  · obtain ⟨k, hk', rfl⟩ := List.mem_map.mp hk
    linarith [hscale (r := ry) (by linarith) (List.mem_append_right _ hk')]

/-- A piece answers where it reaches an end of the direction, at an end of its own. The start of
the piece is not left out, because no other root is near. -/
theorem parameters_image (hd : d.IsAxis) (h : Balanced rx ry) (c : Point ℝ) (hP : P ∈ eighths) :
    ∃ us, (⟨c, d⟩ : Line ℝ).parameters (P.image (.stretch c rx ry)) = .ok us ∧
      (∀ u ∈ us, P.eval u = (⟨d.dx, d.dy⟩ : Point ℝ) ∨
        P.eval u = (⟨(-d).dx, (-d).dy⟩ : Point ℝ)) ∧
      (P.eval 0 = (⟨d.dx, d.dy⟩ : Point ℝ) → 0 ∈ us) := by
  obtain ⟨hregular, hcut⟩ := hd.cuts hP
  have hpoly := hd.polynomial_stretch c rx ry P
  obtain ⟨hk, hsize⟩ := hd.le_crossRadius h
  generalize d.crossRadius rx ry = k at hpoly hk hsize
  have hwell : ((⟨c, d⟩ : Line ℝ).polynomial (P.image (.stretch c rx ry))).WellConditioned :=
    hpoly ▸ hregular.wellConditioned (by linarith)
  have hroot (t : ℝ) : ((⟨c, d⟩ : Line ℝ).polynomial (P.image (.stretch c rx ry))).eval t = 0 ↔
      (implicit d P).eval t = 0 := by
    rw [hpoly, Cubic.eval_scale, mul_eq_zero, or_iff_right (by linarith)]
  obtain ⟨us, hus⟩ : ∃ us, (⟨c, d⟩ : Line ℝ).parameters (P.image (.stretch c rx ry)) = .ok us := by
    refine exists_parameters_of_regular hregular (m := rx + ry) (by linarith) hd.norm_eq hpoly ?_
      (abs_coefficient_image_le h c hP)
    rw [abs_of_pos (by linarith)]
    linarith
  refine ⟨us, hus, fun u hu => ?_, fun hstart => ?_⟩
  · obtain ⟨r, hr, hzero, rfl⟩ := exists_root_of_mem hwell hus hu
    rw [hroot] at hzero
    obtain ⟨hend, hreach⟩ := hcut r hr hzero
    have hunit : r ∈ Set.Icc (0 : ℝ) 1 := by
      rcases hend with rfl | rfl <;> simp
    rw [Scalar.clamp_of_mem hunit]
    exact hd.eval_eq hzero hreach
  · refine mem_parameters_of_isolated hwell hus ⟨le_rfl, zero_le_one⟩ ?_ fun s hs hnear => ?_
    · have hx : P.x.eval 0 = d.dx := congrArg Point.x hstart
      have hy : P.y.eval 0 = d.dy := congrArg Point.y hstart
      rw [hroot, Cubic.eval_zero]
      rw [Cubic.eval_zero] at hx hy
      rw [implicit, hx, hy]
      ring
    · have hsmall : |s| ≤ 1e-6 := by
        rw [zero_sub, abs_neg] at hnear
        linarith [abs_nonneg s]
      rw [abs_le] at hsmall
      rcases (hcut s ⟨by linarith, by linarith⟩ ((hroot s).mp hs)).1 with rfl | rfl
      · rfl
      · norm_num at hsmall

theorem crossings_image (hd : d.IsAxis) (h : Balanced rx ry) (c : Point ℝ) (hP : P ∈ eighths) :
    ∃ qs, (⟨c, d⟩ : Line ℝ).crossings (P.image (.stretch c rx ry)) = .ok qs ∧
      (∀ q ∈ qs, q = Path.tip c rx ry d ∨ q = Path.tip c rx ry (-d)) ∧
      (P.eval 0 = (⟨d.dx, d.dy⟩ : Point ℝ) → Path.tip c rx ry d ∈ qs) := by
  obtain ⟨us, hus, hends, hstart⟩ := parameters_image hd h c hP
  refine ⟨us.map (P.image (.stretch c rx ry)).eval, by simp [crossings, hus], ?_, fun h0 => ?_⟩
  · rw [List.forall_mem_map]
    exact fun u hu => (hends u hu).imp (Path.eval_image_tip c rx ry) (Path.eval_image_tip c rx ry)
  · exact Path.eval_image_tip c rx ry h0 ▸ List.mem_map_of_mem (hstart h0)

end Line

namespace Path

/-- A line along an axis through the centre crosses an ellipse at the ends of the axis. -/
theorem crossings_ellipse (hd : d.IsAxis) (h : Balanced rx ry) (c : Point ℝ) :
    ∃ qs, (ellipse c rx ry).crossings ⟨c, d⟩ =
        .ok (mergePoints (ellipse c rx ry).mergeDistance [] qs) ∧
      (∀ q ∈ qs, q = tip c rx ry d ∨ q = tip c rx ry (-d)) ∧ tip c rx ry d ∈ qs := by
  choose! f hok hends hstart using fun P hP => Line.crossings_image (P := P) hd h c hP
  refine ⟨eighths.flatMap f, crossings_of_ok (pieces_ellipse c rx ry) hok, fun q hq => ?_, ?_⟩
  · obtain ⟨P, hP, hq⟩ := List.mem_flatMap.mp hq
    exact hends P hP q hq
  · obtain ⟨P, hP, h0⟩ := hd.exists_start
    exact List.mem_flatMap.mpr ⟨P, hP, hstart P hP h0⟩

theorem mergeDistance_ellipse (hc : c.InRange) (h : Balanced rx ry) :
    0 ≤ (ellipse c rx ry).mergeDistance ∧ (ellipse c rx ry).mergeDistance < rx ∧
      (ellipse c rx ry).mergeDistance < ry := by
  obtain ⟨h1x, h1y, hx, hy⟩ := h
  have hroot : √(ellipse c rx ry).box.diagonalSq ≤ 2 * (rx + ry) := by
    rw [diagonalSq_ellipse hc (by linarith) (by linarith), Real.sqrt_le_iff]
    constructor
    · linarith
    · nlinarith
  have hle : max 1 √(ellipse c rx ry).box.diagonalSq ≤ 2 * (rx + ry) := max_le (by linarith) hroot
  have hone := le_max_left 1 √(ellipse c rx ry).box.diagonalSq
  rw [mergeDistance_eq_mul]
  refine ⟨?_, ?_, ?_⟩ <;> linarith

end Path

namespace Offset.IsAxis

theorem abs_eq_one (hd : d.IsAxis) : |d.dx| = 1 ∨ |d.dy| = 1 := by
  cases hd <;> simp

theorem neg (hd : d.IsAxis) : (-d).IsAxis := by
  have hneg (x y : ℝ) : -(⟨x, y⟩ : Offset ℝ) = ⟨-x, -y⟩ := rfl
  cases hd with
  | east => simpa [hneg] using west
  | north => simpa [hneg] using south
  | west => simpa [hneg] using east
  | south => simpa [hneg] using north

end Offset.IsAxis

namespace Node

variable {n : Node ℝ} {a : Angle ℝ} {key : AnchorKey ℝ}

theorem lt_length_tip_sub_tip (hd : d.IsAxis) (c : Point ℝ) {m : ℝ} (hm : 0 ≤ m) (hx : m < rx)
    (hy : m < ry) : m < (Path.tip c rx ry d - Path.tip c rx ry (-d)).length := by
  have hdx : (Path.tip c rx ry d - Path.tip c rx ry (-d)).dx = 2 * rx * d.dx := by
    simp only [Path.tip, Point.sub_dx, Point.add_x, Offset.neg_dx]
    ring
  have hdy : (Path.tip c rx ry d - Path.tip c rx ry (-d)).dy = 2 * ry * d.dy := by
    simp only [Path.tip, Point.sub_dy, Point.add_y, Offset.neg_dy]
    ring
  rcases hd.abs_eq_one with h | h
  · refine lt_of_lt_of_le ?_ (Offset.abs_dx_le_length _)
    rw [hdx, abs_mul, h, abs_of_nonneg] <;> linarith
  · refine lt_of_lt_of_le ?_ (Offset.abs_dy_le_length _)
    rw [hdy, abs_mul, h, abs_of_nonneg] <;> linarith

theorem ahead_tip (hd : d.IsAxis) (c : Point ℝ) (hx : 0 < rx) (hy : 0 < ry) :
    ahead d c (Path.tip c rx ry d) = true ∧ ahead d c (Path.tip c rx ry (-d)) = false := by
  cases hd <;> simp [ahead, Path.tip, Scalar.abs_eq_abs, hx, hy, hx.le, hy.le]

/-- In front a ray along an axis finds the one end of the axis, as often as pieces answer with it. -/
theorem filter_ahead_mergePoints {m : ℝ} {qs : List (Point ℝ)} (hd : d.IsAxis) (hm : 0 ≤ m)
    (hx : m < rx) (hy : m < ry)
    (hends : ∀ q ∈ qs, q = Path.tip c rx ry d ∨ q = Path.tip c rx ry (-d))
    (hmem : Path.tip c rx ry d ∈ qs) :
    (Path.mergePoints m [] qs).filter (ahead d c) = [Path.tip c rx ry d] := by
  obtain ⟨hfront, hback⟩ := ahead_tip hd c (hm.trans_lt hx) (hm.trans_lt hy)
  have hgap : ∀ q ∈ [] ++ qs, ∀ p ∈ qs, ahead d c q ≠ ahead d c p → m < (q - p).length := by
    intro q hq p hp hne
    rcases hends q hq with rfl | rfl <;> rcases hends p hp with rfl | rfl
    · exact absurd rfl hne
    · exact lt_length_tip_sub_tip hd c hm hx hy
    · have hneg : - -d = d := by
        ext <;> simp
      have hfar := lt_length_tip_sub_tip hd.neg c hm hx hy
      rwa [hneg] at hfar
    · exact absurd rfl hne
  have hkept : ∀ q ∈ qs.filter (ahead d c), q = Path.tip c rx ry d := by
    intro q hq
    obtain ⟨hq, hahead⟩ := List.mem_filter.mp hq
    refine (hends q hq).resolve_right fun h => ?_
    rw [h, hback] at hahead
    cases hahead
  obtain ⟨p, others, hcons⟩ := List.exists_cons_of_ne_nil
    (List.ne_nil_of_mem (List.mem_filter.mpr ⟨hmem, hfront⟩))
  rw [Path.filter_mergePoints hgap, List.filter_nil, hcons, Path.mergePoints_of_close,
    hkept p (by simp [hcons])]
  intro q hq
  have hself : (Path.tip c rx ry d - Path.tip c rx ry d).length = 0 := by
    simp [Offset.length_eq_sqrt]
  rw [hkept p (by simp [hcons]), hkept q (by simp [hcons, hq]), hself]
  exact hm

theorem rayPoint_ellipse (hrule : Quadrature.Averaging) (hn : n.geometry = Path.ellipse c rx ry)
    (hc : c.InRange) (h : Balanced rx ry) (hd : a.unitVector.IsAxis) (key : AnchorKey ℝ) :
    n.rayPoint a key = .ok (Path.tip c rx ry a.unitVector) := by
  obtain ⟨qs, hqs, hends, hmem⟩ := Path.crossings_ellipse hd h c
  obtain ⟨hm, hx, hy⟩ := Path.mergeDistance_ellipse hc h
  rw [rayPoint, hn, Path.centroid_ellipse hrule hc h]
  dsimp only
  rw [Line.atAngle, hqs]
  dsimp only
  rw [filter_ahead_mergePoints hd hm hx hy hends hmem]

theorem exists_ofSegments_ellipse (c : Point ℝ) (rx ry : ℝ) {name : Option String}
    (hname : ∀ s, name = some s → Name.isValid s = true) :
    ∃ n, ofSegments (Shape.ellipse c rx ry) name = .ok n ∧ n.geometry = Path.ellipse c rx ry := by
  have hcheck : (checkName name : Except (AnchorError ℝ) (Option String)) = .ok name := by
    cases name with
    | none => rfl
    | some s => simp [checkName, hname s rfl]
  have hgeometry : geometryOf (Shape.ellipse c rx ry) = Path.ellipse c rx ry :=
    geometryOf_of_isContinuous (Path.isContinuous_of_isClosed (Path.isClosed_ellipse c rx ry))
  refine ⟨_, bind_eq_ok.mpr ⟨name, hcheck, rfl⟩, ?_⟩
  simpa [Drawable.anchorSegments] using hgeometry

theorem unitVector_eq {a : Angle ℝ} {r x y : ℝ} (h : a.radians = r) (hcos : Real.cos r = x)
    (hsin : Real.sin r = y) : a.unitVector = ⟨x, y⟩ := by
  subst h hcos hsin
  rfl

theorem radians_ofDegrees (degrees : ℝ) :
    (Angle.ofDegrees degrees).radians = degrees * (Real.pi / 180) := rfl

/-- The anchors named after a direction look along an axis. -/
theorem unitVector_east : (Angle.zero : Angle ℝ).unitVector = ⟨1, 0⟩ :=
  unitVector_eq rfl Real.cos_zero Real.sin_zero

theorem unitVector_north : (Angle.ofDegrees 90 : Angle ℝ).unitVector = ⟨0, 1⟩ := by
  refine unitVector_eq (r := Real.pi / 2) ?_ Real.cos_pi_div_two Real.sin_pi_div_two
  rw [radians_ofDegrees]
  ring

theorem unitVector_west : (Angle.ofDegrees 180 : Angle ℝ).unitVector = ⟨-1, 0⟩ := by
  refine unitVector_eq (r := Real.pi) ?_ Real.cos_pi Real.sin_pi
  rw [radians_ofDegrees]
  ring

theorem unitVector_south : (Angle.ofDegrees (-90) : Angle ℝ).unitVector = ⟨0, -1⟩ := by
  refine unitVector_eq (r := -(Real.pi / 2)) ?_ ?_ ?_
  · rw [radians_ofDegrees]
    ring
  · rw [Real.cos_neg, Real.cos_pi_div_two]
  · rw [Real.sin_neg, Real.sin_pi_div_two]

/-- The path over an ellipse is closed and has eight pieces, whatever the radii are. For a centre
between the sentinels, radii of at least one, and neither more than a million times the other, its
area is proportional to the product of the radii, its centroid is the centre, and so is the centre
of each node over it, on which the four directions are answered with the ends of the axes. -/
theorem resolve_ellipse (hrule : Quadrature.Averaging) :
    (∀ (c : Point ℝ) (rx ry : ℝ), (⟨Shape.ellipse c rx ry⟩ : Path ℝ).topology = .closed ∧
      (⟨Shape.ellipse c rx ry⟩ : Path ℝ).pieces.length = 8) ∧
    ∃ A : ℝ, 0 < A ∧ ∀ (c : Point ℝ) (rx ry : ℝ), c.InRange → 1 ≤ rx → 1 ≤ ry →
      rx ≤ 1e6 * ry → ry ≤ 1e6 * rx →
      (⟨Shape.ellipse c rx ry⟩ : Path ℝ).area = some (A * (rx * ry)) ∧
      (⟨Shape.ellipse c rx ry⟩ : Path ℝ).centroid = .ok c ∧
      ∀ name : Option String, (∀ s, name = some s → Name.isValid s = true) →
        ∃ n, ofSegments (Shape.ellipse c rx ry) name = .ok n ∧
          n.resolve .center = .ok c ∧
          n.resolve .east = .ok (c + (⟨rx, 0⟩ : Offset ℝ)) ∧
          n.resolve .north = .ok (c + (⟨0, ry⟩ : Offset ℝ)) ∧
          n.resolve .west = .ok (c - (⟨rx, 0⟩ : Offset ℝ)) ∧
          n.resolve .south = .ok (c - (⟨0, ry⟩ : Offset ℝ)) := by
  refine ⟨fun c rx ry => ⟨Path.topology_ellipse c rx ry, Path.length_pieces_ellipse c rx ry⟩,
    circleArea, by linarith [circleArea_ge hrule], fun c rx ry hc h1x h1y hx hy => ?_⟩
  have h : Balanced rx ry := ⟨h1x, h1y, hx, hy⟩
  have hcentroid := Path.centroid_ellipse hrule hc h
  refine ⟨Path.area_ellipse hc (by linarith) (by linarith), hcentroid, fun name hname => ?_⟩
  obtain ⟨n, hn, hgeometry⟩ := exists_ofSegments_ellipse c rx ry hname
  have hray {a : Angle ℝ} {d : Offset ℝ} (ha : a.unitVector = d) (hd : d.IsAxis)
      (key : AnchorKey ℝ) : n.rayPoint a key = .ok (Path.tip c rx ry d) :=
    ha ▸ rayPoint_ellipse hrule hgeometry hc h (ha.symm ▸ hd) key
  refine ⟨n, hn, ?_, ?_, ?_, ?_, ?_⟩
  · rw [resolve, center, hgeometry, hcentroid]
  · refine (hray unitVector_east .east .east).trans (congrArg Except.ok ?_)
    ext <;> simp [Path.tip]
  · refine (hray unitVector_north .north .north).trans (congrArg Except.ok ?_)
    ext <;> simp [Path.tip]
  · refine (hray unitVector_west .west .west).trans (congrArg Except.ok ?_)
    ext <;> simp [Path.tip, sub_eq_add_neg]
  · refine (hray unitVector_south .south .south).trans (congrArg Except.ok ?_)
    ext <;> simp [Path.tip, sub_eq_add_neg]

end Node

end

/-- An ellipse about the point `(3, -2)` that is twice as wide as it is high. -/
theorem Node.resolve_ellipse_wide :
    let _ : ExactTables := ⟨Scalar.legendreDigits, fun _ => ⟨false, 0, 0⟩⟩
    Quadrature.Averaging ∧ (⟨3, -2⟩ : Point ℝ).InRange ∧
      ∃ n, Node.ofSegments (Shape.ellipse (⟨3, -2⟩ : Point ℝ) 2 1) none = .ok n ∧
        n.resolve .center = .ok ⟨3, -2⟩ ∧ n.resolve .east = .ok ⟨5, -2⟩ ∧
        n.resolve .north = .ok ⟨3, -1⟩ ∧ n.resolve .west = .ok ⟨1, -2⟩ ∧
        n.resolve .south = .ok ⟨3, -3⟩ := by
  intro _
  have hrule : Quadrature.Averaging := Quadrature.averaging_of_legendre rfl
  have hrange : (⟨3, -2⟩ : Point ℝ).InRange := by
    constructor <;> norm_num [Scalar.sentinel]
  obtain ⟨-, A, -, hA⟩ := Node.resolve_ellipse hrule
  obtain ⟨-, -, hnode⟩ := hA ⟨3, -2⟩ 2 1 hrange (by norm_num) le_rfl (by norm_num) (by norm_num)
  obtain ⟨n, hn, hcenter, heast, hnorth, hwest, hsouth⟩ := hnode none (by simp)
  refine ⟨hrule, hrange, n, hn, hcenter, heast.trans ?_, hnorth.trans ?_, hwest.trans ?_,
    hsouth.trans ?_⟩
  all_goals
    refine congrArg Except.ok ?_
    ext <;> norm_num

end Drafting
