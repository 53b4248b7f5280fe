import Drafting.Proofs.Node.Built
import Drafting.Proofs.Node.Image
import Drafting.Proofs.Path.Lookup
import Drafting.Proofs.Path.Outline
import Drafting.Proofs.Path.Translate

/-!
# Which keys a node answers

The geometry of a node is a path that is empty or connected, because an outline takes the place
of segments that do not connect, and moving a node changes no connection. The keys along the
outline are answered whenever the geometry has segments and the number in the key, if any, is
in range. The keys that cast a ray ask for a centroid first, and the crossings ahead of it are
then counted.
-/

namespace Drafting

/-- The direction of the ray that a key casts from the centroid, if it casts one. -/
def AnchorKey.ray? {K : Type} [Scalar K] : AnchorKey K → Option (Angle K)
  | north => some (Angle.ofDegrees 90)
  | south => some (Angle.ofDegrees (-90))
  | west => some (Angle.ofDegrees 180)
  | east => some Angle.zero
  | angle a => some a
  | center | start | mid | finish | length _ | fraction _ | custom _ => none

theorem Segment.two_le_controlPoints {K : Type} (s : Segment K) : 2 ≤ s.controlPoints.length := by
  cases s with
  | polyline points two_le => exact two_le
  | cubic a b c d => simp [controlPoints]

namespace Node

theorem resolve_of_ray {K : Type} [Scalar K] (n : Node K) {key : AnchorKey K} {a : Angle K}
    (h : key.ray? = some a) : n.resolve key = n.rayPoint a key := by
  cases key with
  | north | south | east | west | angle b =>
    cases h
    rfl
  | _ => cases h

section

variable {K : Type} [Scalar K] {n n' : Node K} {key : AnchorKey K}

/-- Keys that cast no ray are answered from the centroid, the places along the outline, the
explicit anchors and the name. -/
theorem resolve_congr (hname : n'.name = n.name) (hanchors : n'.anchors = n.anchors)
    (hcentroid : n'.geometry.centroid = n.geometry.centroid)
    (hfraction : ∀ t, n'.geometry.pointAtFraction t = n.geometry.pointAtFraction t)
    (hlength : ∀ d, n'.geometry.pointAtLength d = n.geometry.pointAtLength d)
    (hkey : key.ray? = none) : n'.resolve key = n.resolve key := by
  cases key with
  | north | south | east | west | angle a => cases hkey
  | center => simp only [resolve, center, pointAtFraction, hcentroid, hfraction]
  | start | mid | finish | fraction t => simp only [resolve, pointAtFraction, hfraction]
  | length d => simp only [resolve, pointAtLength, hlength]
  | custom name => simp only [resolve, hanchors, hname]

theorem rayPoint_congr (hcentroid : n'.geometry.centroid = n.geometry.centroid) {a : Angle K}
    (hcross : ∀ c, n.centroid = .ok c →
      n'.geometry.crossings (Line.atAngle c a) = n.geometry.crossings (Line.atAngle c a)) :
    n'.rayPoint a key = n.rayPoint a key := by
  rw [rayPoint, rayPoint, hcentroid]
  cases hc : n.geometry.centroid with
  | error e => rfl
  | ok c =>
    dsimp only
    rw [hcross c hc]

end

section

variable [ExactTables] {n : Node ℝ}

theorem topology_geometryOf (segments : List (Segment ℝ)) :
    (geometryOf segments).topology ≠ .group := by
  unfold geometryOf
  dsimp only
  split
  · rw [Path.topology_outline]
    split_ifs <;> simp
  · assumption

theorem Built.topology_geometry (h : n.Built) : n.geometry.topology ≠ .group := by
  induction h with
  | ofDrawables h =>
    rw [geometry_of_ofDrawables h]
    exact topology_geometryOf _
  | ofSegments h =>
    rw [geometry_of_ofDrawables h]
    exact topology_geometryOf _
  | anchorPoint h =>
    obtain ⟨name', -, h⟩ := bind_eq_ok.mp h
    cases h
    exact Topology.classify_singleton _
  | addAnchor _ h ih =>
    obtain ⟨-, -, rfl⟩ := eq_of_addAnchor h
    exact ih
  | @translate n v _ ih => exact (Path.topology_translate n.geometry v).trans_ne ih

theorem pointAtFraction_of_nil (hn : n.geometry.segments = []) (t : ℝ) :
    n.pointAtFraction t = .error (.path .emptyPath) := by
  rw [pointAtFraction, Path.pointAtFraction_of_nil hn]
  rfl

theorem exists_pointAtFraction (hn : n.geometry.segments ≠ []) {t : ℝ}
    (ht : t ∈ Set.Icc (0 : ℝ) 1) : ∃ p, n.pointAtFraction t = .ok p := by
  obtain ⟨p, hp, -⟩ := Path.exists_pointAtFraction hn ht
  exact ⟨p, mapError_eq_ok.mpr hp⟩

theorem exists_pointAtLength (hn : n.geometry.segments ≠ []) {d : ℝ}
    (hd : d ∈ Set.Icc 0 n.length) : ∃ p, n.pointAtLength d = .ok p := by
  obtain ⟨t, ht, heq⟩ := Path.exists_pointAtLength_eq hn hd
  obtain ⟨p, hp, -⟩ := Path.exists_pointAtFraction hn ht
  exact ⟨p, mapError_eq_ok.mpr (heq.trans hp)⟩

theorem center_of_nil (hn : n.geometry.segments = []) : n.center = .error (.path .emptyPath) := by
  have htopology : n.geometry.topology = .empty := by
    rw [Path.topology, hn]
    rfl
  simp only [center, Path.centroid, htopology, pointAtFraction_of_nil hn]

theorem exists_center (hn : n.geometry.segments ≠ []) : ∃ p, n.center = .ok p := by
  unfold center
  cases n.geometry.centroid with
  | ok c => exact ⟨c, rfl⟩
  | error e => exact exists_pointAtFraction hn (by norm_num)

theorem rayPoint_of_error {e : PathError ℝ} (hc : n.centroid = .error e) (a : Angle ℝ)
    (key : AnchorKey ℝ) : n.rayPoint a key = .error (.angularAnchorUnsupported key.text) := by
  rw [centroid] at hc
  rw [rayPoint, hc]

/-- From the centroid a ray finds one point, none or several, or it runs along a piece. -/
theorem rayPoint_of_centroid {c : Point ℝ} (hc : n.centroid = .ok c) (a : Angle ℝ)
    (key : AnchorKey ℝ) :
    (∃ p, n.rayPoint a key = .ok p) ∨ n.rayPoint a key = .error (.noIntersection key.text) ∨
      (∃ k, 2 ≤ k ∧ n.rayPoint a key = .error (.ambiguousAnchor key.text k)) ∨
      n.rayPoint a key = .error (.intersection .coincidentLines) := by
  rw [centroid] at hc
  rw [rayPoint, hc]
  dsimp only
  cases hcross : n.geometry.crossings (Line.atAngle c a) with
  | error e =>
    rw [Path.eq_coincidentLines_of_crossings hcross]
    exact .inr (.inr (.inr rfl))
  | ok crossings =>
    dsimp only
    match crossings.filter (ahead a.unitVector c) with
    | [p] => exact .inl ⟨p, rfl⟩
    | [] => exact .inr (.inl rfl)
    | p :: q :: rest => exact .inr (.inr (.inl ⟨_, Nat.le_add_left 2 rest.length, rfl⟩))

theorem rayPoint_eq_unsupported_iff (a : Angle ℝ) (key : AnchorKey ℝ) :
    n.rayPoint a key = .error (.angularAnchorUnsupported key.text) ↔
      ∃ e, n.centroid = .error e := by
  constructor
  · intro h
    cases hc : n.centroid with
    | error e => exact ⟨e, rfl⟩
    | ok c =>
      obtain ⟨p, hp⟩ | hp | ⟨k, -, hp⟩ | hp := rayPoint_of_centroid hc a key <;>
      · rw [h] at hp
        cases hp
  · rintro ⟨e, hc⟩
    exact rayPoint_of_error hc a key

/-- When each key of a built node is answered, and how it fails when it is not. Every segment
has its ends, every piece its weight, and no place that is looked up lies beyond the pieces. -/
theorem resolve_domain (h : n.Built) :
    n.geometry.topology ≠ .group ∧
    (∀ s ∈ n.geometry.segments, 2 ≤ s.controlPoints.length) ∧
    n.geometry.lengthTable.weights.length = n.geometry.pieces.length ∧
    (∀ t i s, n.geometry.lengthTable.locate t = some (i, s) → i < n.geometry.pieces.length) ∧
    (n.geometry.segments = [] →
      (∀ key ∈ [.center, .start, .mid, .finish], n.resolve key = .error (.path .emptyPath)) ∧
      (∀ t, n.resolve (.fraction t) = .error (.path .emptyPath)) ∧
      ∀ d, n.resolve (.length d) = .error (.path .emptyPath)) ∧
    (n.geometry.segments ≠ [] →
      (∀ key ∈ [.center, .start, .mid, .finish], ∃ p, n.resolve key = .ok p) ∧
      (∀ t, (t ∈ Set.Icc 0 1 → ∃ p, n.resolve (.fraction t) = .ok p) ∧
        (t ∉ Set.Icc 0 1 → n.resolve (.fraction t) = .error (.path (.outOfRangeFraction t)))) ∧
      ∀ d, (d ∈ Set.Icc 0 n.length → ∃ p, n.resolve (.length d) = .ok p) ∧
        (d ∉ Set.Icc 0 n.length →
          n.resolve (.length d) = .error (.path (.outOfRangeLength d n.length)))) ∧
    ∀ key a, key.ray? = some a →
      (n.resolve key = .error (.angularAnchorUnsupported key.text) ↔
        ∃ e, n.centroid = .error e) ∧
      ∀ c, n.centroid = .ok c →
        (∃ p, n.resolve key = .ok p) ∨ n.resolve key = .error (.noIntersection key.text) ∨
        (∃ k, 2 ≤ k ∧ n.resolve key = .error (.ambiguousAnchor key.text k)) ∨
        n.resolve key = .error (.intersection .coincidentLines) := by
  refine ⟨h.topology_geometry, fun s _ => s.two_le_controlPoints, n.geometry.length_weights,
    fun t i s => Path.lt_length_of_locate, fun hn => ⟨?_, ?_, ?_⟩,
    fun hn => ⟨?_, fun t => ⟨fun ht => ?_, fun ht => ?_⟩, fun d => ⟨fun hd => ?_, fun hd => ?_⟩⟩,
    fun key a hkey => ?_⟩
  · simp only [List.forall_mem_cons, List.not_mem_nil, false_implies, implies_true, and_true]
    exact ⟨center_of_nil hn, pointAtFraction_of_nil hn 0, pointAtFraction_of_nil hn 0.5,
      pointAtFraction_of_nil hn 1⟩
  · exact pointAtFraction_of_nil hn
  · intro d
    rw [resolve, pointAtLength, Path.pointAtLength_of_nil hn]
    rfl
  · simp only [List.forall_mem_cons, List.not_mem_nil, false_implies, implies_true, and_true]
    exact ⟨exists_center hn, exists_pointAtFraction hn (by norm_num),
      exists_pointAtFraction hn (by norm_num), exists_pointAtFraction hn (by norm_num)⟩
  · exact exists_pointAtFraction hn ht
  · rw [resolve, pointAtFraction, Path.pointAtFraction_of_not_mem hn ht]
    rfl
  · exact exists_pointAtLength hn hd
  · rw [resolve, pointAtLength, Path.pointAtLength_of_not_mem hn hd]
    rfl
  · rw [n.resolve_of_ray hkey]
    exact ⟨rayPoint_eq_unsupported_iff a key, fun c hc => rayPoint_of_centroid hc a key⟩

end

/-- A stroke has a centre and no rays, and answers no fraction beyond its end. -/
theorem resolve_domain_stroke :
    let _ : ExactTables := ⟨[(0, 1)], fun _ => ⟨false, 0, 0⟩⟩
    let stroke : Segment ℝ := .polyline [⟨0, 0⟩, ⟨3, 4⟩] (by simp)
    ∃ n, ofSegments [stroke] none = .ok n ∧ n.Built ∧ (∃ p, n.resolve .center = .ok p) ∧
      n.resolve (.fraction 2) = .error (.path (.outOfRangeFraction 2)) ∧
      n.resolve .north = .error (.angularAnchorUnsupported "north") := by
  intro _ stroke
  obtain ⟨n, hn⟩ : ∃ n, ofSegments [stroke] none = .ok n := ⟨_, rfl⟩
  have hgeometry : n.geometry = ⟨[stroke]⟩ :=
    (geometry_of_ofDrawables hn).trans (geometryOf_singleton stroke)
  have htopology : (⟨[stroke]⟩ : Path ℝ).topology = .opened := by
    rw [Path.topology_cons rfl]
    simp [Topology.connected, neighbours, stroke, Segment.finish, Segment.start, Point.beq_iff]
  have hcentroid : n.centroid = .error .notClosed := by
    rw [centroid, hgeometry, Path.centroid, htopology]
  obtain ⟨-, -, -, -, -, hanswers, hrays⟩ := resolve_domain (.ofSegments hn)
  obtain ⟨hnamed, hfraction, -⟩ := hanswers (by simp [hgeometry])
  refine ⟨n, hn, .ofSegments hn, hnamed .center (by simp), (hfraction 2).2 (by norm_num), ?_⟩
  exact (hrays .north _ rfl).1.mpr ⟨_, hcentroid⟩

end Node

end Drafting
