import Mathlib.Tactic.Linarith
import Drafting.Proofs.Path.Repeat
import Drafting.Proofs.Node.Angle
import Drafting.Proofs.Node.Answers

/-!
# Nodes over a path with a repeated vertex

A node over a connected path answers as before when a vertex is repeated, but for the keys that
cast a ray. Such a key looks along a whole line through the centroid, and when the line passes
through the repeated vertex, on either side of the centroid, the answer is that the line
coincides with the curve.
-/

namespace Drafting

namespace Node

theorem geometryOf_of_isContinuous {K : Type} [Scalar K] {segments : List (Segment K)}
    (h : (⟨segments⟩ : Path K).isContinuous = true) : geometryOf segments = ⟨segments⟩ := by
  unfold geometryOf
  dsimp only
  split
  · next hgroup =>
    rw [Path.isContinuous, hgroup] at h
    cases h
  · rfl

section

variable [ExactTables] {n n' : Node ℝ} {v : Point ℝ} {key : AnchorKey ℝ}

/-- The key casts a ray, and the line of the ray passes through the point. -/
def CastsThrough (n : Node ℝ) (v : Point ℝ) (key : AnchorKey ℝ) : Prop :=
  ∃ a c, key.ray? = some a ∧ n.centroid = .ok c ∧ (Line.atAngle c a).Hits v

theorem resolve_of_castsThrough (hr : Path.Repeats v n.geometry n'.geometry)
    (h : n.CastsThrough v key) : n'.resolve key = .error (.intersection .coincidentLines) := by
  obtain ⟨a, c, hkey, hc, hhits⟩ := h
  have hc' : n'.geometry.centroid = .ok c := hr.centroid.trans hc
  rw [n'.resolve_of_ray hkey, rayPoint, hc']
  dsimp only
  rw [hr.crossings_of_hits hhits]

theorem resolve_of_not_castsThrough (hrule : Quadrature.Positive)
    (hcontinuous : n.geometry.isContinuous = true) (hr : Path.Repeats v n.geometry n'.geometry)
    (hname : n'.name = n.name) (hanchors : n'.anchors = n.anchors)
    (h : ¬ n.CastsThrough v key) : n'.resolve key = n.resolve key := by
  cases hkey : key.ray? with
  | none =>
    exact resolve_congr hname hanchors hr.centroid (hr.pointAtFraction hrule hcontinuous)
      (hr.pointAtLength hrule hcontinuous) hkey
  | some a =>
    rw [n'.resolve_of_ray hkey, n.resolve_of_ray hkey]
    exact rayPoint_congr hr.centroid fun c hc =>
      hr.crossings fun hhits => h ⟨a, c, hkey, hc, hhits⟩

/-- The node that draws one path, and looks its anchors up there, in place of what it had. -/
def withPath {K : Type} [Scalar K] (n : Node K) (p : Path K) : Node K :=
  { n with drawables := [⟨.path, p, Style.empty⟩], geometry := p }

/-- The node over a connected path and the node over the same path with a vertex repeated differ
in the path only. -/
theorem ofSegments_of_repeats {p p' : Path ℝ} (hp : p.isContinuous = true)
    (hr : Path.Repeats v p p') {name : Option String} (hn : ofSegments p.segments name = .ok n) :
    n.geometry = p ∧ ofSegments p'.segments name = .ok (n.withPath p') := by
  obtain ⟨name', hname, h⟩ := bind_eq_ok.mp hn
  cases h
  have hgeometry : geometryOf p.segments = p := geometryOf_of_isContinuous hp
  have hgeometry' : geometryOf p'.segments = p' :=
    geometryOf_of_isContinuous (hr.isContinuous.trans hp)
  have htopology : Topology.classify p'.segments = Topology.classify p.segments := hr.topology
  refine ⟨by simpa [Drawable.anchorSegments] using hgeometry,
    bind_eq_ok.mpr ⟨name', hname, ?_⟩⟩
  simp [withPath, Drawable.anchorSegments, hgeometry', htopology, hr.box, pure, Except.pure]

/-- What a connected path and the nodes over it answer when a vertex is repeated in place. Only
lines through the vertex are answered otherwise, with an error. -/
theorem answers_repeated_vertex (hrule : Quadrature.Positive) {p p' : Path ℝ}
    (hp : p.isContinuous = true) (hr : Path.Repeats v p p') :
    (p'.topology = p.topology ∧ p'.length = p.length ∧ p'.area = p.area ∧
      p'.centroid = p.centroid ∧ p'.box = p.box ∧
      (∀ t, p'.pointAtFraction t = p.pointAtFraction t) ∧
      ∀ d, p'.pointAtLength d = p.pointAtLength d) ∧
    (∀ l : Line ℝ, (l.side v = 0 → l.Hits v) ∧
      (l.Hits v → p'.crossings l = .error .coincidentLines) ∧
      (¬ l.Hits v → p'.crossings l = p.crossings l)) ∧
    ∀ name n, ofSegments p.segments name = .ok n →
      n.geometry = p ∧ ofSegments p'.segments name = .ok (n.withPath p') ∧
      ∀ anchors key, let m : Node ℝ := { n with anchors }
        (m.CastsThrough v key →
          (m.withPath p').resolve key = .error (.intersection .coincidentLines)) ∧
        (¬ m.CastsThrough v key → (m.withPath p').resolve key = m.resolve key) := by
  refine ⟨⟨hr.topology, hr.length, hr.area, hr.centroid, hr.box, hr.pointAtFraction hrule hp,
    hr.pointAtLength hrule hp⟩,
    fun l => ⟨Line.hits_of_side, hr.crossings_of_hits, hr.crossings⟩, fun name n hn => ?_⟩
  obtain ⟨rfl, hwith⟩ := ofSegments_of_repeats hp hr hn
  refine ⟨rfl, hwith, fun anchors key => ⟨resolve_of_castsThrough hr, ?_⟩⟩
  exact resolve_of_not_castsThrough hrule hp hr rfl rfl

end

end Node

/-- Of two corners that two edges each answer with, the one where the path starts being the first
and the last, each is kept once. -/
theorem Path.mergePoints_there_and_back [ExactTables] {m : ℝ} {p q : Point ℝ} (hm : 0 ≤ m)
    (hfar : m < (p - q).length) : mergePoints m [] [p, q, q, p] = [p, q] := by
  have hself (p : Point ℝ) : (p - p).length ≤ m := p.length_sub_self.trans_le hm
  rw [mergePoints_cons_of_far (by simp), mergePoints_cons_of_far (by simpa using hfar),
    mergePoints_cons_of_close ⟨q, by simp, hself q⟩,
    mergePoints_cons_of_close ⟨p, by simp, hself p⟩]
  rfl

namespace ConvexPolygon

def diamond : ConvexPolygon where
  vertices := [⟨-1, 0⟩, ⟨0, 1⟩, ⟨1, 0⟩, ⟨0, -1⟩]
  three_le := by decide
  nodup := by
    have hne : (-1 : ℝ) ≠ 1 := by norm_num
    simp [hne, hne.symm]
  sign := -1
  sign_eq := .inr rfl
  convex := by
    norm_num [Polygon.edges, Polygon.trace, neighbours, turn]

theorem edges_diamond : diamond.edges =
    [(⟨-1, 0⟩, ⟨0, 1⟩), (⟨0, 1⟩, ⟨1, 0⟩), (⟨1, 0⟩, ⟨0, -1⟩), (⟨0, -1⟩, ⟨-1, 0⟩)] := rfl

variable [ExactTables]

theorem box_diamond : diamond.path.box = ⟨⟨-1, -1⟩, ⟨1, 1⟩⟩ := by
  have hsentinel : (1 : ℝ) ≤ Scalar.sentinel := by norm_num [Scalar.sentinel]
  have hcorner : (⟨-1, 0⟩ : Point ℝ).InRange := by
    simpa [Point.InRange] using ⟨hsentinel, zero_le_one.trans hsentinel⟩
  rw [Path.box, controlPoints_path]
  change Box.ofPoints [⟨-1, 0⟩, ⟨0, 1⟩, ⟨1, 0⟩, ⟨0, -1⟩, ⟨-1, 0⟩] = _
  rw [Box.ofPoints_cons hcorner]
  norm_num [Box.insert_eq]

theorem diagonalSq_diamond : diamond.path.box.diagonalSq = 8 := by
  rw [box_diamond]
  norm_num [Box.diagonalSq, Box.width, Box.height]

theorem centroid_diamond (hrule : Quadrature.Exact) :
    diamond.path.centroid = .ok Point.origin := by
  have hmoments : diamond.path.moments = ⟨-2, 0, 0⟩ := by
    have h := Moments.ofPieces_lines hrule diamond.path.box.center diamond.edges
    rw [← pieces_path] at h
    rw [Path.moments, h, edges_diamond, box_diamond]
    norm_num [Moments.ofEdge, Box.center, Point.midpoint]
  rw [Path.centroid, topology_path]
  dsimp only
  rw [hmoments, diagonalSq_diamond, box_diamond,
    if_neg (by norm_num [Path.areaEpsilon, Scalar.abs_eq_abs])]
  norm_num [Moments.centroid, Box.center, Point.midpoint]
  ext <;> simp [Point.origin]

noncomputable def eastward : Line ℝ := Line.atAngle Point.origin Angle.zero

theorem side_eastward (p : Point ℝ) : eastward.side p = -p.y := by
  simp [eastward, Line.side, Line.atAngle, Point.origin, Angle.zero, Angle.unitVector, Scalar.cos,
    Scalar.sin]

theorem covers_eastward {a b : Point ℝ} : eastward.Covers a b ↔ max |a.y| |b.y - a.y| ≤
    1e-12 * max (max |a.x| |b.x - a.x|) (max |a.y| |b.y - a.y|) := by
  have hnorm : eastward.direction.norm = 1 := (Line.isUnit_atAngle _ _).norm
  have hpoint : eastward.point = ⟨0, 0⟩ := rfl
  have hfall : -b.y - -a.y = -(b.y - a.y) := by ring
  rw [Line.Covers, side_eastward, side_eastward, hnorm, hpoint, one_mul, sub_zero, sub_zero, hfall,
    abs_neg, abs_neg]

theorem not_covers_diamond {e : Point ℝ × Point ℝ} (he : e ∈ diamond.edges) :
    ¬ eastward.Covers e.1 e.2 := by
  rw [edges_diamond] at he
  simp only [List.mem_cons, List.not_mem_nil, or_false] at he
  rw [covers_eastward]
  rcases he with rfl | rfl | rfl | rfl <;> norm_num

theorem touches_diamond :
    diamond.touches eastward = [⟨-1, 0⟩, ⟨1, 0⟩, ⟨1, 0⟩, ⟨-1, 0⟩] := by
  simp only [touches, edges_diamond, List.flatMap_cons, List.flatMap_nil, Line.touches,
    side_eastward]
  norm_num [linearAnswers, Scalar.within_iff, Line.parameterTolerance, Point.ext_iff]

theorem crossings_diamond : diamond.path.crossings eastward = .ok [⟨-1, 0⟩, ⟨1, 0⟩] := by
  have hdistance : diamond.path.mergeDistance ∈ Set.Ico (0 : ℝ) 2 := by
    have hnonneg : 0 ≤ diamond.size := Real.sqrt_nonneg _
    have hle : diamond.size ≤ 3 := by
      rw [size, diagonalSq_diamond]
      exact Real.sqrt_le_iff.mpr ⟨by norm_num, by norm_num⟩
    rw [Node.mergeDistance_eq (by rw [diagonalSq_diamond]; norm_num)]
    constructor <;> linarith
  have hapart : ((⟨-1, 0⟩ : Point ℝ) - (⟨1, 0⟩ : Point ℝ)).length = 2 := by
    rw [Offset.length_of_dy_eq_zero (by simp)]
    norm_num
  have htouches := touches_diamond
  rw [touches] at htouches
  rw [Path.crossings_of_not_covers diamond.pieces_path fun e he => not_covers_diamond he,
    htouches, Path.mergePoints_there_and_back hdistance.1 (hapart ▸ hdistance.2)]

end ConvexPolygon

namespace Node

/-- A square on its corner finds no anchor in the direction of a corner that is there twice, and
has the middle of its outline as before. -/
theorem answers_repeated_vertex_diamond :
    let _ : ExactTables := ⟨[(1, 1 / 3), (0, 2 / 3)], fun _ => ⟨false, 0, 0⟩⟩
    let p : Path ℝ := ConvexPolygon.diamond.path
    let p' : Path ℝ :=
      ⟨[.polyline [⟨-1, 0⟩, ⟨0, 1⟩, ⟨1, 0⟩, ⟨1, 0⟩, ⟨0, -1⟩, ⟨-1, 0⟩] (by simp)]⟩
    Quadrature.Positive ∧ p.isContinuous = true ∧ Path.Repeats ⟨1, 0⟩ p p' ∧
      p.crossings ConvexPolygon.eastward = .ok [⟨-1, 0⟩, ⟨1, 0⟩] ∧
      p'.crossings ConvexPolygon.eastward = .error .coincidentLines ∧
      ∃ n n', ofSegments p.segments none = .ok n ∧ ofSegments p'.segments none = .ok n' ∧
        n.resolve .east = .ok ⟨1, 0⟩ ∧
        n'.resolve .east = .error (.intersection .coincidentLines) ∧
        n'.resolve .mid = n.resolve .mid := by
  intro _ p p'
  have hrule : Quadrature.Exact := Quadrature.exact_of_legendre rfl
  have hpositive : Quadrature.Positive := Quadrature.positive_of_three_nodes rfl
  have hcontinuous : p.isContinuous = true := by
    rw [Path.isContinuous, ConvexPolygon.topology_path]
    rfl
  have hr : Path.Repeats ⟨1, 0⟩ p p' := .mk [] [] [⟨-1, 0⟩, ⟨0, 1⟩] [⟨0, -1⟩, ⟨-1, 0⟩] _ _
  have hhits : ConvexPolygon.eastward.Hits ⟨1, 0⟩ :=
    Line.hits_of_side (by simp [ConvexPolygon.side_eastward])
  obtain ⟨n, hn⟩ : ∃ n, ofSegments p.segments none = .ok n := ⟨_, rfl⟩
  obtain ⟨-, hlines, hnodes⟩ := answers_repeated_vertex hpositive hcontinuous hr
  obtain ⟨hgeometry, hn', hanswers⟩ := hnodes none n hn
  have hc : n.centroid = .ok Point.origin := by
    rw [centroid, hgeometry]
    exact ConvexPolygon.centroid_diamond hrule
  have hcast : n.CastsThrough ⟨1, 0⟩ .east := ⟨Angle.zero, Point.origin, rfl, hc, hhits⟩
  have hmid : ¬ n.CastsThrough ⟨1, 0⟩ .mid := by
    rintro ⟨a, -, hkey, -⟩
    cases hkey
  refine ⟨hpositive, hcontinuous, hr, ConvexPolygon.crossings_diamond,
    (hlines _).2.1 hhits, n, n.withPath p', hn, hn', ?_, (hanswers n.anchors .east).1 hcast,
    (hanswers n.anchors .mid).2 hmid⟩
  have hcross : n.geometry.crossings (Line.atAngle Point.origin Angle.zero) =
      .ok [⟨-1, 0⟩, ⟨1, 0⟩] := by
    rw [hgeometry]
    exact ConvexPolygon.crossings_diamond
  have hfilter : [(⟨-1, 0⟩ : Point ℝ), ⟨1, 0⟩].filter
      (ahead Angle.zero.unitVector Point.origin) = [⟨1, 0⟩] := by
    norm_num [ahead, Angle.zero, Angle.unitVector, Scalar.cos, Scalar.sin, Point.origin,
      Scalar.abs_eq_abs]
  have heast : (AnchorKey.east : AnchorKey ℝ).ray? = some Angle.zero := rfl
  rw [centroid] at hc
  simp only [n.resolve_of_ray heast, rayPoint, hc, hcross, hfilter]

end Node

end Drafting
