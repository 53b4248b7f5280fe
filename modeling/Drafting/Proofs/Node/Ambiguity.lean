import Drafting.Proofs.Node.Repeat
import Drafting.Proofs.Path.Shoelace

/-!
# How many points a ray meets

The crossings of a path are counted after merging, so a vertex where pieces meet counts once,
the one at which a closed path starts included, however many of the pieces answer with a point
there. A key that casts a ray is ambiguous when several of the counted points lie ahead of the
centroid, and the number in the message is their number.
-/

namespace Drafting

namespace Path

section
variable [ExactTables] {m : ℝ} {points kept : List (Point ℝ)}

namespace Represents

theorem pairwise_lt (h : Represents m points kept) :
    kept.Pairwise fun q q' => m < (q - q').length :=
  h.apart.imp not_le.mp

theorem exists_length_le (h : Represents m points kept) (hm : 0 ≤ m) {q : Point ℝ}
    (hq : q ∈ points) : ∃ q' ∈ kept, (q' - q).length ≤ m := by
  obtain ⟨q', hq', rfl | hle⟩ := h.covers q hq
  · exact ⟨q', hq', q'.length_sub_self.trans_le hm⟩
  · exact ⟨q', hq', hle⟩

theorem nodup (h : Represents m points kept) (hm : 0 ≤ m) : kept.Nodup := by
  refine h.pairwise_lt.imp fun {q q'} hlt => ?_
  rintro rfl
  exact hm.not_gt (hlt.trans_eq q.length_sub_self)

/-- Of the points within half the distance of a vertex one is kept at most, because any two of
them are close. -/
theorem length_filter_le (h : Represents m points kept) (v : Point ℝ) :
    (kept.filter fun q => decide ((q - v).length ≤ m / 2)).length ≤ 1 := by
  have hpairwise := h.pairwise_lt.filter fun q => decide ((q - v).length ≤ m / 2)
  have hnear {q : Point ℝ} (hq : q ∈ kept.filter fun q => decide ((q - v).length ≤ m / 2)) :
      (q - v).length ≤ m / 2 := of_decide_eq_true (List.mem_filter.mp hq).2
  generalize kept.filter (fun q => decide ((q - v).length ≤ m / 2)) = near at hpairwise hnear
  rcases near with _ | ⟨q, _ | ⟨q', rest⟩⟩
  · simp
  · simp
  · have hlt : m < (q - q').length := List.rel_of_pairwise_cons hpairwise List.mem_cons_self
    have hq := hnear (q := q) List.mem_cons_self
    have hq' := hnear (q := q') (List.mem_cons_of_mem _ List.mem_cons_self)
    have htriangle := Point.length_sub_le q q' v
    linarith

end Represents

end

end Path

namespace Node

/-- A ray is ambiguous when at least two crossings lie ahead, and the message tells how many. -/
theorem rayPoint_eq_ambiguous_iff {K : Type} [Scalar K] {n : Node K} {a : Angle K}
    {key : AnchorKey K} {text : String} {count : ℕ} :
    n.rayPoint a key = .error (.ambiguousAnchor text count) ↔
      text = key.text ∧ 2 ≤ count ∧ ∃ c ps, n.geometry.centroid = .ok c ∧
        n.geometry.crossings (Line.atAngle c a) = .ok ps ∧
        (ps.filter (ahead a.unitVector c)).length = count := by
  constructor
  · intro h
    unfold rayPoint at h
    cases hc : n.geometry.centroid with
    | error e =>
      rw [hc] at h
      cases h
    | ok c =>
      rw [hc] at h
      dsimp only at h
      cases hps : n.geometry.crossings (Line.atAngle c a) with
      | error e =>
        rw [hps] at h
        cases h
      | ok ps =>
        rw [hps] at h
        dsimp only at h
        generalize hfront : ps.filter (ahead a.unitVector c) = front at h
        rcases front with _ | ⟨q, _ | ⟨q', rest⟩⟩
        · cases h
        · cases h
        · cases h
          exact ⟨rfl, Nat.le_add_left 2 rest.length, c, ps, rfl, hps, congrArg List.length hfront⟩
  · rintro ⟨rfl, htwo, c, ps, hc, hps, rfl⟩
    rw [rayPoint, hc]
    dsimp only
    rw [hps]
    dsimp only
    generalize ps.filter (ahead a.unitVector c) = front at htwo ⊢
    rcases front with _ | ⟨q, _ | ⟨q', rest⟩⟩
    · cases htwo
    · exact absurd htwo (by simp)
    · rfl

/-- What the crossings of a path are, in any arithmetic and in exact arithmetic, and how many of
them make a ray ambiguous. -/
theorem separated_crossings_counted :
    (∀ {K : Type} [Scalar K] (p : Path K) (l : Line K),
      (∀ e, p.crossings l = .error e ↔ e = .coincidentLines ∧
        ∃ piece ∈ p.pieces, l.crossings piece = .error .coincidentLines) ∧
      ∀ ps, p.crossings l = .ok ps →
        (∀ q ∈ ps, ∃ piece ∈ p.pieces, ∃ qs, l.crossings piece = .ok qs ∧ q ∈ qs) ∧
        (ps.Pairwise fun q q' => ¬ (q - q').length ≤ p.mergeDistance) ∧
        (∀ piece ∈ p.pieces, ∃ qs, l.crossings piece = .ok qs ∧
          ∀ q ∈ qs, ∃ q' ∈ ps, q' = q ∨ (q' - q).length ≤ p.mergeDistance) ∧
        ∀ v : Point K, (v - v).length ≤ p.mergeDistance → ¬ [v, v].Sublist ps) ∧
    (∀ [ExactTables] (p : Path ℝ) (l : Line ℝ),
      p.mergeDistance = 1e-8 * max 1 √p.box.diagonalSq ∧
      ∀ ps, p.crossings l = .ok ps →
        (ps.Pairwise fun q q' => p.mergeDistance < (q - q').length) ∧
        (∀ piece ∈ p.pieces, ∃ qs, l.crossings piece = .ok qs ∧
          ∀ q ∈ qs, ∃ q' ∈ ps, (q' - q).length ≤ p.mergeDistance) ∧
        ps.Nodup ∧
        ∀ v : Point ℝ, (ps.filter fun q => decide ((q - v).length ≤ p.mergeDistance / 2)).length ≤ 1) ∧
    ∀ {K : Type} [Scalar K] (n : Node K) (a : Angle K) (key : AnchorKey K) (text : String)
      (count : ℕ), n.rayPoint a key = .error (.ambiguousAnchor text count) ↔
        text = key.text ∧ 2 ≤ count ∧ ∃ c ps, n.geometry.centroid = .ok c ∧
          n.geometry.crossings (Line.atAngle c a) = .ok ps ∧
          (ps.filter (ahead a.unitVector c)).length = count := by
  refine ⟨fun p l => ⟨fun e => Path.crossings_eq_error_iff, fun ps h => ?_⟩,
    fun p l => ⟨p.mergeDistance_eq_mul, fun ps h => ?_⟩,
    fun n a key text count => rayPoint_eq_ambiguous_iff⟩
  · obtain ⟨found, hfound, hsublist, hrepresents⟩ := Path.exists_found h
    refine ⟨fun q hq => ?_, hrepresents.apart, fun piece hpiece => ?_,
      fun v => hrepresents.not_twice⟩
    · obtain ⟨piece, hpiece, hown⟩ := List.mem_flatMap.mp (hsublist.subset hq)
      exact ⟨piece, hpiece, found piece, hfound piece hpiece, hown⟩
    · refine ⟨found piece, hfound piece hpiece, fun q hq => hrepresents.covers q ?_⟩
      exact List.mem_flatMap.mpr ⟨piece, hpiece, hq⟩
  · obtain ⟨found, hfound, -, hrepresents⟩ := Path.exists_found h
    have hnonneg := p.mergeDistance_pos.le
    refine ⟨hrepresents.pairwise_lt, fun piece hpiece => ?_, hrepresents.nodup hnonneg,
      hrepresents.length_filter_le⟩
    refine ⟨found piece, hfound piece hpiece, fun q hq => ?_⟩
    exact hrepresents.exists_length_le hnonneg (List.mem_flatMap.mpr ⟨piece, hpiece, hq⟩)

end Node

namespace Path

variable [ExactTables]

/-- A dart around the origin that starts at its tip. Notch and tip both lie ahead to the east. -/
noncomputable def dart : Path ℝ :=
  ⟨[.polyline [⟨5, 0⟩, ⟨-7, 1⟩, ⟨2, 0⟩, ⟨-7, -1⟩, ⟨5, 0⟩] (by simp)]⟩

noncomputable def dartEdges : List (Point ℝ × Point ℝ) :=
  [(⟨5, 0⟩, ⟨-7, 1⟩), (⟨-7, 1⟩, ⟨2, 0⟩), (⟨2, 0⟩, ⟨-7, -1⟩), (⟨-7, -1⟩, ⟨5, 0⟩)]

theorem topology_dart : dart.topology = .closed := by
  rw [topology_cons (p := dart) rfl]
  simp [Topology.connected, neighbours, Segment.finish, Segment.start, Point.beq_iff]

theorem pieces_dart : dart.pieces = dartEdges.map fun (a, b) => Piece.line a b := rfl

theorem diagonalSq_dart : dart.box.diagonalSq = 148 := by
  have htip : (⟨5, 0⟩ : Point ℝ).InRange := by
    norm_num [Point.InRange, Scalar.sentinel]
  have hbox : dart.box = ⟨⟨-7, -1⟩, ⟨5, 1⟩⟩ := by
    change Box.ofPoints [⟨5, 0⟩, ⟨-7, 1⟩, ⟨2, 0⟩, ⟨-7, -1⟩, ⟨5, 0⟩] = _
    rw [Box.ofPoints_cons htip]
    norm_num [Box.insert_eq]
  rw [hbox]
  norm_num [Box.diagonalSq, Box.width, Box.height]

theorem centroid_dart (h : Quadrature.ExactTo 8) : dart.centroid = .ok Point.origin := by
  have harea : Polygon.shoelaceArea dart.controlPoints = 3 := by
    norm_num [dart, controlPoints, Segment.controlPoints, Polygon.shoelaceArea, Polygon.edges,
      Polygon.trace, neighbours, Polygon.cross]
  rw [centroid_eq_shoelace h (beq_iff_eq.mpr topology_dart) (by simp [dart]), harea,
    diagonalSq_dart, if_neg (by norm_num [areaEpsilon]), Polygon.shoelaceCentroid, harea]
  norm_num [dart, controlPoints, Segment.controlPoints, Polygon.edges, Polygon.trace, neighbours,
    Polygon.cross, Point.origin]

open ConvexPolygon in
theorem not_covers_dart {e : Point ℝ × Point ℝ} (he : e ∈ dartEdges) :
    ¬ eastward.Covers e.1 e.2 := by
  simp only [dartEdges, List.mem_cons, List.not_mem_nil, or_false] at he
  rw [covers_eastward]
  rcases he with rfl | rfl | rfl | rfl <;> norm_num

open ConvexPolygon in
/-- The tip is an end of the first edge and of the last, the notch of the two in between. -/
theorem touches_dart : (dartEdges.flatMap fun e => eastward.touches e.1 e.2) =
    [⟨5, 0⟩, ⟨2, 0⟩, ⟨2, 0⟩, ⟨5, 0⟩] := by
  simp only [dartEdges, List.flatMap_cons, List.flatMap_nil, Line.touches, side_eastward]
  norm_num [linearAnswers, Scalar.within_iff, Line.parameterTolerance, Point.ext_iff]

open ConvexPolygon in
theorem crossings_dart : dart.crossings eastward = .ok [⟨5, 0⟩, ⟨2, 0⟩] := by
  have hdistance : dart.mergeDistance ∈ Set.Ico (0 : ℝ) 3 := by
    have hdiagonal : √(148 : ℝ) ≤ 13 := Real.sqrt_le_iff.mpr (by norm_num)
    refine ⟨dart.mergeDistance_pos.le, ?_⟩
    rw [mergeDistance_eq_mul, diagonalSq_dart]
    have hmax : max 1 √(148 : ℝ) ≤ 13 := max_le (by norm_num) hdiagonal
    linarith
  have hapart : ((⟨5, 0⟩ : Point ℝ) - (⟨2, 0⟩ : Point ℝ)).length = 3 := by
    rw [Offset.length_of_dy_eq_zero (by simp)]
    norm_num
  rw [crossings_of_not_covers pieces_dart fun e he => not_covers_dart he, touches_dart,
    mergePoints_there_and_back hdistance.1 (hapart ▸ hdistance.2)]

end Path

namespace Node

/-- To the east the dart has its notch and its tip, each where two edges meet, and no anchor. -/
theorem separated_crossings_counted_dart :
    let _ : ExactTables := ⟨Quadrature.eightPoint, fun _ => ⟨false, 0, 0⟩⟩
    let l : Line ℝ := ConvexPolygon.eastward
    Path.dart.crossings l = .ok [⟨5, 0⟩, ⟨2, 0⟩] ∧
      (∀ piece ∈ Path.dart.pieces, l.crossings piece ≠ .error .coincidentLines) ∧
      Path.dart.mergeDistance < ((⟨5, 0⟩ : Point ℝ) - (⟨2, 0⟩ : Point ℝ)).length ∧
      ∃ n, ofSegments Path.dart.segments none = .ok n ∧
        n.rayPoint Angle.zero .east = .error (.ambiguousAnchor "east" 2) := by
  intro _ l
  have hrule : Quadrature.ExactTo 8 := (Quadrature.exactTo_of_legendre rfl).mono (by decide)
  obtain ⟨hsearch, hexact, hambiguous⟩ := separated_crossings_counted
  have hcross : Path.dart.crossings l = .ok [⟨5, 0⟩, ⟨2, 0⟩] := Path.crossings_dart
  obtain ⟨hfails, -⟩ := hsearch Path.dart l
  obtain ⟨hapart, -⟩ := (hexact Path.dart l).2 _ hcross
  obtain ⟨n, hn⟩ : ∃ n, ofSegments Path.dart.segments none = .ok n := ⟨_, rfl⟩
  have hcontinuous : Path.dart.isContinuous = true := by
    rw [Path.isContinuous, Path.topology_dart]
    rfl
  have hgeometry : n.geometry = Path.dart :=
    (geometry_of_ofDrawables hn).trans (geometryOf_of_isContinuous hcontinuous)
  have hfront : [(⟨5, 0⟩ : Point ℝ), ⟨2, 0⟩].filter
      (ahead Angle.zero.unitVector Point.origin) = [⟨5, 0⟩, ⟨2, 0⟩] := by
    norm_num [ahead, Angle.zero, Angle.unitVector, Scalar.cos, Scalar.sin, Point.origin,
      Scalar.abs_eq_abs]
  refine ⟨hcross, fun piece hpiece hcoincident => ?_,
    List.rel_of_pairwise_cons hapart (List.mem_singleton_self _), n, hn, ?_⟩
  · have herror := (hfails _).mpr ⟨rfl, piece, hpiece, hcoincident⟩
    rw [hcross] at herror
    cases herror
  · refine (hambiguous n Angle.zero .east "east" 2).mpr ⟨rfl, le_rfl, Point.origin, _, ?_, ?_,
      congrArg List.length hfront⟩
    · rw [hgeometry]
      exact Path.centroid_dart hrule
    · rw [hgeometry]
      exact hcross

end Node

end Drafting
