import Mathlib.Tactic.FinCases
import Drafting.Proofs.Node.Ray

/-!
# Anchors of convex polygons at angles

What an angle means on a node whose outline is a strictly convex polygon: when there is an
answer, where it lies, and how it can fail. A ray that passes just beyond an end of an
edge, by no more than the parameter tolerance, is answered twice, at the end of that edge
and where the ray leaves the polygon; the two are reported as one only within the merge
distance, which is a hundred times smaller. In thin polygons points in front and behind
the centroid are confused as well.
-/

namespace Drafting

namespace Node

section

variable [ExactTables] {P : ConvexPolygon} {n : Node ℝ} {c : Point ℝ} {a : Angle ℝ} {key : AnchorKey ℝ}

theorem rayPoint_of_covers (hn : n.geometry = P.path) (hc : n.centroid = .ok c)
    (h : ∃ e ∈ P.edges, (Line.atAngle c a).Covers e.1 e.2) :
    n.rayPoint a key = .error (.intersection .coincidentLines) := by
  rw [centroid, hn] at hc
  rw [rayPoint, hn, hc]
  dsimp only
  rw [Path.crossings_of_covers P.pieces_path h]

theorem rayPoint_of_not_covers (hn : n.geometry = P.path) (hc : n.centroid = .ok c)
    (h : ∀ e ∈ P.edges, ¬ (Line.atAngle c a).Covers e.1 e.2) :
    n.rayPoint a key =
      match (Path.mergePoints P.path.mergeDistance [] (P.touches (Line.atAngle c a))).filter
          (ahead a.unitVector c) with
      | [p] => .ok p
      | [] => .error (.noIntersection key.text)
      | many => .error (.ambiguousAnchor key.text many.length) := by
  rw [centroid, hn] at hc
  rw [rayPoint, hn, hc]
  dsimp only
  rw [Path.crossings_of_not_covers P.pieces_path h]
  dsimp only [ConvexPolygon.touches]
  generalize List.filter (ahead a.unitVector c) _ = kept
  rcases kept with _ | ⟨p, _ | ⟨q, rest⟩⟩
  · rfl
  · rfl
  · rfl

/-- Every answer is a point of the outline next to the ray. -/
theorem onOutline_of_rayPoint (hn : n.geometry = P.path) (hc : n.centroid = .ok c) {p : Point ℝ}
    (h : n.rayPoint a key = .ok p) :
    P.OnOutline p ∧ ∃ s : ℝ, 0 < s ∧ p.Near (2e-6 * P.size) (c + a.unitVector * s) := by
  by_cases hcovers : ∃ e ∈ P.edges, (Line.atAngle c a).Covers e.1 e.2
  · rw [rayPoint_of_covers hn hc hcovers] at h
    cases h
  · push Not at hcovers
    rw [rayPoint_of_not_covers hn hc hcovers] at h
    split at h
    · rename_i q hkept
      cases h
      have hmem : p ∈ (Path.mergePoints P.path.mergeDistance []
          (P.touches (Line.atAngle c a))).filter (ahead a.unitVector c) := by
        rw [hkept]
        exact List.mem_singleton_self p
      obtain ⟨hmerged, hahead⟩ := List.mem_filter.mp hmem
      have htouch : p ∈ P.touches (Line.atAngle c a) := by
        simpa using Path.mem_of_mem_mergePoints hmerged
      obtain ⟨e, he, r, t, hanswer, rfl⟩ := ConvexPolygon.exists_of_mem_touches hcovers htouch
      have hl := Line.isUnit_atAngle c a
      have hside := ConvexPolygon.abs_side_le hl hanswer he
      obtain ⟨s, hs, hnear⟩ := exists_near_of_ahead hl hahead hside
      refine ⟨⟨e, he, t, hanswer.mem_Icc, rfl⟩, s, hs, ?_⟩
      rw [show 2e-6 * P.size = 2 * (1e-6 * P.size) by ring]
      exact hnear
    · cases h
    · cases h

theorem mergeDistance_eq (hsize : 1 ≤ P.path.box.diagonalSq) :
    P.path.mergeDistance = 1e-8 * P.size := by
  have hone : 1 ≤ P.size := Real.one_le_sqrt.mpr hsize
  rw [Path.mergeDistance_eq_mul]
  exact congrArg (1e-8 * ·) (max_eq_right hone)

/-- What the ray finds, from the points in front before close ones are merged. -/
theorem rayPoint_of_deep (key : AnchorKey ℝ) (hn : n.geometry = P.path) (hc : n.centroid = .ok c)
    (hsize : 1 ≤ P.path.box.diagonalSq) (hdeep : P.Deep (Line.atAngle c a))
    (hcovers : ∀ e ∈ P.edges, ¬ (Line.atAngle c a).Covers e.1 e.2) {p : Point ℝ}
    {others : List (Point ℝ)}
    (hfront : (P.touches (Line.atAngle c a)).filter (ahead a.unitVector c) = p :: others) :
    ((∀ q ∈ others, (p - q).length ≤ 1e-8 * P.size) → n.rayPoint a key = .ok p) ∧
    ((∃ q ∈ others, 1e-8 * P.size < (p - q).length) →
      ∃ k ≥ 2, n.rayPoint a key = .error (.ambiguousAnchor key.text k)) := by
  have hpos : 0 < P.size := zero_lt_one.trans_le (Real.one_le_sqrt.mpr hsize)
  have hgap : ∀ q ∈ [] ++ P.touches (Line.atAngle c a), ∀ p ∈ P.touches (Line.atAngle c a),
      ahead a.unitVector c q ≠ ahead a.unitVector c p →
        P.path.mergeDistance < (q - p).length := by
    intro q hq p hp hne
    have h := ConvexPolygon.lt_length_of_ahead_ne (Line.isUnit_atAngle c a) hpos hdeep hcovers
      hp hq hne
    rw [mergeDistance_eq hsize]
    linarith
  rw [rayPoint_of_not_covers hn hc hcovers, Path.filter_mergePoints hgap, hfront, List.filter_nil,
    mergeDistance_eq hsize]
  constructor
  · intro hclose
    rw [Path.mergePoints_of_close hclose]
  · rintro ⟨q, hq, hfar⟩
    have htwo := Path.two_le_length_mergePoints hq hfar
    generalize Path.mergePoints (1e-8 * P.size) [] (p :: others) = kept at htwo
    rcases kept with _ | ⟨q, _ | ⟨q', rest⟩⟩
    · simp at htwo
    · simp at htwo
    · exact ⟨_, htwo, rfl⟩

/-- Off the ends of the edges all points in front are next to the one point where the ray
leaves the polygon, and so they are reported as one. -/
theorem rayPoint_of_not_skims (hrule : Quadrature.Exact) (key : AnchorKey ℝ)
    (hn : n.geometry = P.path) (hc : n.centroid = .ok c) (hsize : 1 ≤ P.path.box.diagonalSq)
    (hdeep : P.Deep (Line.atAngle c a)) (hcovers : ∀ e ∈ P.edges, ¬ (Line.atAngle c a).Covers e.1 e.2)
    (hclear : ¬ P.Skims c a.unitVector) {p : Point ℝ} {others : List (Point ℝ)}
    (hfront : (P.touches (Line.atAngle c a)).filter (ahead a.unitVector c) = p :: others) :
    n.rayPoint a key = .ok p ∧ ∃ s : ℝ, 0 < s ∧ P.OnOutline (c + a.unitVector * s) ∧
      p.Near (1e-12 * P.size) (c + a.unitVector * s) := by
  have hpos : 0 < P.size := zero_lt_one.trans_le (Real.one_le_sqrt.mpr hsize)
  have hcenter : P.path.centroid = .ok (Line.atAngle c a).point := by rwa [centroid, hn] at hc
  have hinner : ∀ e ∈ P.edges, 0 < P.height e c := fun e he =>
    ConvexPolygon.height_centroid_pos hrule hcenter he
  have hleaves : ∀ q ∈ p :: others, ∃ s : ℝ, 0 < s ∧ P.OnOutline (c + a.unitVector * s) ∧
      q.Near (1e-12 * P.size) (c + a.unitVector * s) := by
    intro q hq
    rw [← hfront] at hq
    obtain ⟨hq, hahead⟩ := List.mem_filter.mp hq
    exact ConvexPolygon.near_of_not_skims (Line.isUnit_atAngle c a) hpos hdeep hcovers hclear
      hq hahead
  obtain ⟨s, hs, hout, hnear⟩ := hleaves p List.mem_cons_self
  refine ⟨(rayPoint_of_deep key hn hc hsize hdeep hcovers hfront).1 fun q hq => ?_,
    s, hs, hout, hnear⟩
  obtain ⟨s', hs', hout', hnear'⟩ := hleaves q (List.mem_cons_of_mem p hq)
  rw [ConvexPolygon.eq_of_onOutline hinner hs' hs hout' hout] at hnear'
  have hlength := hnear.length_sub_le hnear'
  linarith

end

end Node

namespace ConvexPolygon

def corners : List (Point ℝ) := [⟨-1, -1⟩, ⟨1, -1⟩, ⟨1, 1⟩, ⟨-1, 1⟩]

theorem nodup_corners : corners.Nodup := by
  have hne : (1 : ℝ) ≠ -1 := by norm_num
  simp [corners, hne, hne.symm]

theorem turn_corners : ∀ e ∈ Polygon.edges corners, ∀ v ∈ corners, v ≠ e.1 → v ≠ e.2 →
    0 < 1 * turn e.1 e.2 v := by
  norm_num [corners, Polygon.edges, Polygon.trace, neighbours, turn]

/-- The square of side two around the origin. -/
def square : ConvexPolygon where
  vertices := corners
  three_le := by decide
  nodup := nodup_corners
  sign := 1
  sign_eq := .inl rfl
  convex := turn_corners

theorem edges_square : square.edges =
    [(⟨-1, -1⟩, ⟨1, -1⟩), (⟨1, -1⟩, ⟨1, 1⟩), (⟨1, 1⟩, ⟨-1, 1⟩), (⟨-1, 1⟩, ⟨-1, -1⟩)] := rfl

variable [ExactTables]

theorem box_square : square.path.box = ⟨⟨-1, -1⟩, ⟨1, 1⟩⟩ := by
  have hsentinel : (1 : ℝ) ≤ Scalar.sentinel := by norm_num [Scalar.sentinel]
  have hcorner : (⟨-1, -1⟩ : Point ℝ).InRange := by
    simpa [Point.InRange] using hsentinel
  rw [Path.box, controlPoints_path]
  change Box.ofPoints [⟨-1, -1⟩, ⟨1, -1⟩, ⟨1, 1⟩, ⟨-1, 1⟩, ⟨-1, -1⟩] = _
  rw [Box.ofPoints_cons hcorner]
  norm_num [Box.insert_eq]

theorem diagonalSq_square : square.path.box.diagonalSq = 8 := by
  rw [box_square]
  norm_num [Box.diagonalSq, Box.width, Box.height]

theorem moments_square (hrule : Quadrature.Exact) : square.path.moments = ⟨4, 0, 0⟩ := by
  have h := Moments.ofPieces_lines hrule square.path.box.center square.edges
  rw [← pieces_path] at h
  rw [Path.moments, h, edges_square, box_square]
  norm_num [Moments.ofEdge, Box.center, Point.midpoint]

theorem centroid_square (hrule : Quadrature.Exact) : square.path.centroid = .ok Point.origin := by
  rw [Path.centroid, topology_path]
  dsimp only
  rw [moments_square hrule, diagonalSq_square, box_square,
    if_neg (by norm_num [Path.areaEpsilon, Scalar.abs_eq_abs])]
  norm_num [Moments.centroid, Box.center, Point.midpoint]
  ext <;> simp [Point.origin]

theorem geometryOf_path (P : ConvexPolygon) : Node.geometryOf P.path.segments = P.path := by
  have hclosed : (⟨P.path.segments⟩ : Path ℝ).topology = .closed := P.topology_path
  simp only [Node.geometryOf, hclosed]

theorem size_square_le : square.size ≤ 3 := by
  rw [size, diagonalSq_square]
  exact Real.sqrt_le_iff.mpr ⟨by norm_num, by norm_num⟩

theorem length_square {e : Point ℝ × Point ℝ} (he : e ∈ square.edges) :
    (e.2 - e.1).length = 2 := by
  have hfour : √(4 : ℝ) = 2 := by
    rw [show (4 : ℝ) = 2 ^ 2 by norm_num, Real.sqrt_sq zero_le_two]
  rw [edges_square] at he
  fin_cases he <;> norm_num [Offset.length_eq_sqrt, hfour]

theorem widerThan_square : square.WiderThan 6e-6 := by
  intro e he
  have hsize := size_square_le
  have hfar : ∃ v ∈ square.vertices, square.height e v = 4 := by
    rw [edges_square] at he
    change ∃ v ∈ corners, 1 * turn e.1 e.2 v = 4
    fin_cases he <;> norm_num [turn, corners]
  obtain ⟨v, hv, hheight⟩ := hfar
  refine ⟨v, hv, ?_⟩
  rw [hheight, length_square he]
  linarith

theorem ray_square (s : ℝ) :
    (Point.origin : Point ℝ) + (Angle.zero : Angle ℝ).unitVector * s = (⟨s, 0⟩ : Point ℝ) := by
  ext <;> simp [Point.origin, Angle.zero, Angle.unitVector, Scalar.cos, Scalar.sin]

theorem east_square {e : Point ℝ × Point ℝ} (he : e ∈ square.edges) {r s : ℝ} (hs : 0 < s)
    (h : e.1 + (e.2 - e.1) * r =
      (Point.origin : Point ℝ) + (Angle.zero : Angle ℝ).unitVector * s) :
    r = 1 / 2 ∧ s = 1 := by
  rw [ray_square] at h
  have hx : e.1.x + (e.2.x - e.1.x) * r = s := congrArg Point.x h
  have hy : e.1.y + (e.2.y - e.1.y) * r = 0 := congrArg Point.y h
  rw [edges_square] at he
  simp only [List.mem_cons, List.not_mem_nil, or_false] at he
  rcases he with rfl | rfl | rfl | rfl
  · norm_num at hy
  · constructor <;> linarith
  · norm_num at hy
  · norm_num at hx
    linarith

theorem not_skims_square : ¬ square.Skims Point.origin Angle.zero.unitVector := by
  rintro ⟨e, he, r, hr, s, hs, h⟩
  obtain ⟨rfl, -⟩ := east_square he hs h
  norm_num at hr

end ConvexPolygon

namespace Node

end Node

end Drafting
