import Drafting.Proofs.Path.Green
import Drafting.Proofs.Path.Polygon

/-!
# The shoelace formulas

A closed path of polylines runs along the edges of the polygon whose vertices are its points. A
point at which one polyline ends and the next starts is listed twice; between the two there is an
edge without length, which adds nothing. What a straight piece adds to the area is half the cross
product of its ends, up to a change of a function of the place, and the first moments are of the
same kind. So the area and the centroid are those of the shoelace formulas.
-/

namespace Drafting

section
variable {α : Type} {G : α × α → ℝ}

/-- Where a list starts again with the point at which the one before it ends, no pair that counts
is added. -/
theorem sum_neighbours_append (hG : ∀ v, G (v, v) = 0) {l m : List α} (h : l.getLast? = m.head?) :
    ((neighbours (l ++ m)).map G).sum =
      ((neighbours l).map G).sum + ((neighbours m).map G).sum := by
  fun_induction neighbours l with
  | case1 a b rest ih =>
    simp only [List.cons_append, neighbours, List.map_cons, List.sum_cons] at ih ⊢
    rw [ih (by simpa using h), add_assoc]
  | case2 l hshort =>
    rcases l with _ | ⟨a, _ | ⟨b, rest⟩⟩
    · simp
    · obtain ⟨rest, rfl⟩ := List.head?_eq_some_iff.mp h.symm
      simp [neighbours, hG]
    · exact absurd rfl (hshort a b rest)

/-- A list that ends where it starts needs no edge from its last vertex to the first. -/
theorem Polygon.sum_edges (hG : ∀ v, G (v, v) = 0) {l : List α} (h : l.getLast? = l.head?) :
    ((edges l).map G).sum = ((neighbours l).map G).sum := by
  cases l with
  | nil => rfl
  | cons a l =>
    rw [edges, trace, List.take_succ_cons, List.take_zero, sum_neighbours_append (m := [a]) hG h]
    simp [neighbours]

end

section

variable [ExactTables]

namespace Polygon

/-- The cross product of the ends of an edge, twice the signed area of its triangle with the
origin. -/
noncomputable def cross (e : Point ℝ × Point ℝ) : ℝ := e.1.x * e.2.y - e.2.x * e.1.y

noncomputable def shoelaceArea (vertices : List (Point ℝ)) : ℝ :=
  ((edges vertices).map cross).sum / 2

noncomputable def shoelaceCentroid (vertices : List (Point ℝ)) : Point ℝ :=
  ⟨((edges vertices).map fun e => (e.1.x + e.2.x) * cross e).sum / (6 * shoelaceArea vertices),
    ((edges vertices).map fun e => (e.1.y + e.2.y) * cross e).sum / (6 * shoelaceArea vertices)⟩

end Polygon

theorem Quadrature.ExactTo.exact {n : ℕ} (h : ExactTo n) (hn : 2 ≤ n) : Exact where
  weights := by simpa using h 0 (Nat.zero_le n)
  squares := by
    have h1 := h 1 hn
    norm_num at h1 ⊢
    exact h1

theorem Moments.around_lines (h : Quadrature.ExactTo 8) {edges : List (Point ℝ × Point ℝ)}
    {a : Point ℝ} (hps : Piece.Leads a (edges.map fun (a, b) => Piece.line a b) a) :
    around (edges.map fun (a, b) => Piece.line a b) =
      ⟨(edges.map Polygon.cross).sum / 2,
        (edges.map fun e => (e.1.x + e.2.x) * Polygon.cross e).sum / 6,
        (edges.map fun e => (e.1.y + e.2.y) * Polygon.cross e).sum / 6⟩ := by
  have harea := hps.sum_eq (G := fun p => (ofEdge Point.origin (p.eval 0) (p.eval 1)).area)
    (H := fun p => 1 / 2 * Polygon.cross (p.eval 0, p.eval 1)) (F := fun q => 3 / 2 * (q.x * q.y))
    fun p => by
      simp only [ofEdge, Polygon.cross, Point.origin, Point.sub_dx, Point.sub_dy]
      ring
  have hmx := hps.sum_eq (G := fun p => (ofEdge Point.origin (p.eval 0) (p.eval 1)).mx)
    (H := fun p => 1 / 6 * (((p.eval 0).x + (p.eval 1).x) * Polygon.cross (p.eval 0, p.eval 1)))
    (F := fun q => q.x ^ 2 * q.y / 6) fun p => by
      simp only [ofEdge, Polygon.cross, Point.origin, Point.sub_dx, Point.sub_dy]
      ring
  have hmy := hps.sum_eq (G := fun p => (ofEdge Point.origin (p.eval 0) (p.eval 1)).my)
    (H := fun p => 1 / 6 * (((p.eval 0).y + (p.eval 1).y) * Polygon.cross (p.eval 0, p.eval 1)))
    (F := fun q => -(q.x * q.y ^ 2) / 6) fun p => by
      simp only [ofEdge, Polygon.cross, Point.origin, Point.sub_dx, Point.sub_dy]
      ring
  simp only [List.map_map, Function.comp_def, Piece.eval_line_zero, Piece.eval_line_one,
    List.sum_map_mul_left] at harea hmx hmy
  rw [← ofPieces_origin h hps, ofPieces_lines (h.exact (by decide)), harea, hmx, hmy]
  simp only [one_div_mul_eq_div]

namespace Segment

omit [ExactTables] in
theorem head?_controlPoints (s : Segment ℝ) : s.controlPoints.head? = some s.start := by
  cases s with
  | polyline points h => exact List.head?_eq_some_head _
  | cubic a b c d => rfl

omit [ExactTables] in
theorem getLast?_controlPoints (s : Segment ℝ) : s.controlPoints.getLast? = some s.finish := by
  cases s with
  | polyline points h => exact List.getLast?_eq_some_getLast _
  | cubic a b c d => rfl

end Segment

namespace Path

variable {p : Path ℝ}

omit [ExactTables] in
theorem head?_controlPoints (p : Path ℝ) : p.controlPoints.head? = p.start := by
  cases hs : p.segments with
  | nil => simp [controlPoints, start, hs]
  | cons s rest => simp [controlPoints, start, hs, s.head?_controlPoints]

omit [ExactTables] in
theorem getLast?_controlPoints (p : Path ℝ) : p.controlPoints.getLast? = p.finish := by
  rcases List.eq_nil_or_concat p.segments with hs | ⟨front, s, hs⟩
  · simp [controlPoints, finish, hs]
  · simp [controlPoints, finish, hs, s.getLast?_controlPoints]

/-- Around a closed path of polylines, by induction on the polylines. -/
theorem sum_edges_controlPoints (hp : p.isClosed = true) {G : Point ℝ × Point ℝ → ℝ}
    (hG : ∀ v, G (v, v) = 0) :
    ((Polygon.edges p.controlPoints).map G).sum =
      ((p.segments.flatMap fun s => neighbours s.controlPoints).map G).sum := by
  have hconnected := connected_of_isContinuous (isContinuous_of_isClosed hp)
  have hends : p.controlPoints.getLast? = p.controlPoints.head? := by
    rw [head?_controlPoints, getLast?_controlPoints, finish_eq_start_of_isClosed hp]
  rw [Polygon.sum_edges hG hends, controlPoints]
  generalize p.segments = segments at hconnected
  induction segments with
  | nil => rfl
  | cons s rest ih =>
    rw [List.flatMap_cons, List.flatMap_cons, List.map_append, List.sum_append]
    cases rest with
    | nil => simp
    | cons t rest =>
      simp only [Topology.connected, neighbours, List.all_cons, Bool.and_eq_true] at hconnected ih
      rw [sum_neighbours_append hG, ih hconnected.2]
      rw [s.getLast?_controlPoints, Point.beq_iff.mp hconnected.1]
      simp [t.head?_controlPoints]

theorem pieces_of_polylines (h : ∀ s ∈ p.segments, ∃ points hpoints, s = .polyline points hpoints) :
    p.pieces = (p.segments.flatMap fun s => neighbours s.controlPoints).map
      fun (a, b) => Piece.line a b := by
  rw [pieces, List.map_flatMap]
  refine List.flatMap_congr fun s hs => ?_
  obtain ⟨points, hpoints, rfl⟩ := h s hs
  rfl

theorem around_polylines (h : Quadrature.ExactTo 8) (hp : p.isClosed = true)
    (hlines : ∀ s ∈ p.segments, ∃ points hpoints, s = .polyline points hpoints) :
    (Moments.around p.pieces).area = Polygon.shoelaceArea p.controlPoints ∧
      (Moments.around p.pieces).centroid Point.origin =
        Polygon.shoelaceCentroid p.controlPoints := by
  have hcross (v : Point ℝ) : Polygon.cross (v, v) = 0 := by
    unfold Polygon.cross
    ring
  obtain ⟨a, hps⟩ := leads_of_isClosed hp
  rw [pieces_of_polylines hlines] at hps ⊢
  rw [Moments.around_lines h hps, Polygon.shoelaceCentroid, Polygon.shoelaceArea,
    sum_edges_controlPoints hp hcross, sum_edges_controlPoints hp (by simp [hcross]),
    sum_edges_controlPoints hp (by simp [hcross])]
  refine ⟨rfl, ?_⟩
  simp only [Moments.centroid, div_div]
  ext
  · simp [Point.origin]
  · simp [Point.origin]

theorem area_eq_shoelace (h : Quadrature.ExactTo 8) (hp : p.isClosed = true)
    (hlines : ∀ s ∈ p.segments, ∃ points hpoints, s = .polyline points hpoints) :
    p.area = some (Polygon.shoelaceArea p.controlPoints) := by
  rw [area, if_pos hp, (moments_eq_around h hp).1, (around_polylines h hp hlines).1]

theorem centroid_eq_shoelace (h : Quadrature.ExactTo 8) (hp : p.isClosed = true)
    (hlines : ∀ s ∈ p.segments, ∃ points hpoints, s = .polyline points hpoints) :
    p.centroid =
      if |Polygon.shoelaceArea p.controlPoints| ≤ areaEpsilon * p.box.diagonalSq then
        .error .degenerateArea
      else .ok (Polygon.shoelaceCentroid p.controlPoints) := by
  obtain ⟨harea, hcentroid⟩ := moments_eq_around h hp
  obtain ⟨hshoelace, hcenter⟩ := around_polylines h hp hlines
  rw [hcenter] at hcentroid
  rw [← hshoelace, ← harea, centroid_of_isClosed hp]
  split_ifs with hsmall
  · rfl
  · rw [hcentroid (area_ne_zero hsmall)]

end Path

/-- Around closed pieces the area about any centre is the integral of `x dy`, and the centroid is
the same from any two centres if the area is not zero. For a closed path of polylines they are
those of the shoelace formulas, where the centroid is left out for an area that counts as zero. -/
theorem Moments.area_and_centroid_around (h : Quadrature.ExactTo 8) :
    (∀ (ps : List (Piece ℝ)) (a : Point ℝ), Piece.Leads a ps a → ∀ center : Point ℝ,
      (ofPieces ps center).area =
        (ps.map fun p => ∫ t in (0 : ℝ)..1, (p.eval t).x * deriv (fun s => (p.eval s).y) t).sum ∧
      ((ofPieces ps center).area ≠ 0 → ∀ other : Point ℝ,
        (ofPieces ps center).centroid center = (ofPieces ps other).centroid other)) ∧
    ∀ p : Path ℝ, p.isClosed = true →
      (∀ s ∈ p.segments, ∃ points hpoints, s = .polyline points hpoints) →
        p.area = some (Polygon.shoelaceArea p.controlPoints) ∧
        p.centroid =
          if |Polygon.shoelaceArea p.controlPoints| ≤ Path.areaEpsilon * p.box.diagonalSq then
            .error .degenerateArea
          else .ok (Polygon.shoelaceCentroid p.controlPoints) := by
  constructor
  · intro ps a hps center
    have hderiv (p : Piece ℝ) (t : ℝ) : deriv (fun s => (p.eval s).y) t = (p.derivative t).dy :=
      (p.y.hasDerivAt_eval t).deriv
    have harea := area_ofPieces h hps center
    simp only [hderiv]
    refine ⟨harea, fun hne other => ?_⟩
    rw [harea] at hne
    rw [centroid_ofPieces h hps hne, centroid_ofPieces h hps hne]
  · exact fun p hp hlines =>
      ⟨Path.area_eq_shoelace h hp hlines, Path.centroid_eq_shoelace h hp hlines⟩

end

/-- A rectangle of two polylines that meet in two corners. -/
theorem Moments.area_and_centroid_around_rectangle :
    let _ : ExactTables := ⟨Quadrature.eightPoint, fun _ => ⟨false, 0, 0⟩⟩
    let p : Path ℝ := ⟨[.polyline [⟨0, 0⟩, ⟨2, 0⟩, ⟨2, 1⟩] (by simp),
      .polyline [⟨2, 1⟩, ⟨0, 1⟩, ⟨0, 0⟩] (by simp)]⟩
    Quadrature.ExactTo 8 ∧ p.isClosed = true ∧ Piece.Leads ⟨0, 0⟩ p.pieces ⟨0, 0⟩ ∧
      p.area = some 2 ∧ (∀ center other : Point ℝ,
        (ofPieces p.pieces center).centroid center = (ofPieces p.pieces other).centroid other) := by
  intro _ p
  have h : Quadrature.ExactTo 8 := (Quadrature.exactTo_of_legendre rfl).mono (by decide)
  have hp : p.isClosed = true := by
    rw [Path.isClosed, Path.topology_cons rfl]
    simp [Topology.connected, neighbours, Segment.finish, Segment.start, Point.beq_iff]
  have hps : Piece.Leads ⟨0, 0⟩ p.pieces ⟨0, 0⟩ := by
    obtain ⟨a, b, hstart, hend, hps⟩ := Path.leads (Path.isContinuous_of_isClosed hp)
    cases hstart
    cases hend
    exact hps
  obtain ⟨hchain, hpath⟩ := area_and_centroid_around h
  obtain ⟨harea, -⟩ := hpath p hp (by simp [p])
  have htwo : Polygon.shoelaceArea p.controlPoints = 2 := by
    norm_num [p, Path.controlPoints, Segment.controlPoints, Polygon.shoelaceArea, Polygon.edges,
      Polygon.trace, neighbours, Polygon.cross]
  rw [htwo] at harea
  refine ⟨h, hp, hps, harea, fun center other => (hchain _ _ hps center).2 ?_ other⟩
  rw [Path.area, if_pos hp, Option.some.injEq] at harea
  rw [(hchain _ _ hps center).1, ← (hchain _ _ hps p.box.center).1]
  exact harea.trans_ne two_ne_zero

end Drafting
