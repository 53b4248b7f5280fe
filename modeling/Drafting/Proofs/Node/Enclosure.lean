import Drafting.Proofs.Node.Built
import Drafting.Proofs.Node.Extent
import Drafting.Proofs.Node.Translate
import Drafting.Proofs.Path.Hull
import Drafting.Proofs.Path.Outline

/-!
# Anchors inside the box of a node

The box of a node is around the defining points of its geometry: these are points of its
drawables, or corners of a box around some of those. Moving the node keeps this, in range or
not, because a box that contains a point is not empty and moves along. And a box around the
defining points is around every point that the geometry answers.

Explicit anchors may lie anywhere, and of the keys the centre is the one that is not answered by
a point of the outline.
-/

namespace Drafting

section

variable [ExactTables]

namespace Box

variable {b c : Box ℝ} {p : Point ℝ}

omit [ExactTables] in
theorem Contains.of_within (h : b.Contains p) (hw : b.Within c) : c.Contains p :=
  ⟨hw.min_x.trans h.min_x, hw.min_y.trans h.min_y, h.max_x.trans hw.max_x, h.max_y.trans hw.max_y⟩

theorem Contains.translate (h : b.Contains p) (v : Offset ℝ) :
    (b.translate v).Contains (p + v) := by
  have hb : b.Proper := ⟨h.min_x.trans h.max_x, h.min_y.trans h.max_y⟩
  rw [Box.translate, if_neg (by simp [hb.isEmpty_eq_false])]
  exact ⟨add_le_add_left h.min_x _, add_le_add_left h.min_y _, add_le_add_left h.max_x _,
    add_le_add_left h.max_y _⟩

end Box

namespace Path

theorem contains_of_mem_outline {b : Box ℝ} {q : Point ℝ} (hq : q ∈ (outline b).controlPoints) :
    b.Contains q := by
  cases hb : b.isEmpty with
  | true =>
    rw [outline, if_pos hb] at hq
    cases hq
  | false =>
    have hproper : b.Proper := by simpa [Box.isEmpty, Box.Proper] using hb
    rw [controlPoints_outline hproper] at hq
    exact hproper.contains_corners q hq

end Path

namespace Node

variable {n : Node ℝ}

/-- Whether or not an outline takes the place of segments, it reaches no farther than they do. -/
theorem contains_of_mem_geometryOf {segments : List (Segment ℝ)} {q : Point ℝ}
    (hq : q ∈ (geometryOf segments).controlPoints) : (⟨segments⟩ : Path ℝ).box.Contains q := by
  unfold geometryOf at hq
  dsimp only at hq
  split at hq
  · exact Path.contains_of_mem_outline hq
  · exact Box.contains_ofPoints hq

theorem anchorPoints_subset_extent {drawables : List (Drawable ℝ)} {name : Option String}
    (h : ofDrawables drawables name = .ok n) :
    (⟨drawables.flatMap Drawable.anchorSegments⟩ : Path ℝ).controlPoints ⊆ n.extent := by
  obtain ⟨name', -, h⟩ := bind_eq_ok.mp h
  cases h
  cases drawables with
  | nil => exact List.nil_subset _
  | cons d drawables =>
    intro q hq
    obtain ⟨s, hs, hq⟩ := List.mem_flatMap.mp hq
    obtain ⟨d', hd', hs⟩ := List.mem_flatMap.mp hs
    refine List.mem_flatMap.mpr ⟨d', hd', List.mem_flatMap.mpr ⟨s, ?_, hq⟩⟩
    unfold Drawable.anchorSegments at hs
    split at hs
    · exact hs
    · cases hs

theorem contains_of_ofDrawables {drawables : List (Drawable ℝ)} {name : Option String}
    (h : ofDrawables drawables name = .ok n) {q : Point ℝ} (hq : q ∈ n.geometry.controlPoints) :
    n.box.Contains q := by
  rw [geometry_of_ofDrawables h] at hq
  rw [box_of_ofDrawables h]
  exact (contains_of_mem_geometryOf hq).of_within
    (Box.ofPoints_mono (anchorPoints_subset_extent h))

/-- The box of a built node is around the defining points of its geometry. -/
theorem Built.contains_controlPoints (h : n.Built) :
    ∀ q ∈ n.geometry.controlPoints, n.box.Contains q := by
  induction h with
  | ofDrawables h => exact fun q => contains_of_ofDrawables h
  | ofSegments h => exact fun q => contains_of_ofDrawables h
  | anchorPoint h =>
    obtain ⟨name', -, h⟩ := bind_eq_ok.mp h
    cases h
    exact fun q => Box.contains_ofPoints
  | addAnchor _ h ih =>
    obtain ⟨-, -, rfl⟩ := eq_of_addAnchor h
    exact ih
  | @translate n v _ ih =>
    intro q hq
    change q ∈ (n.geometry.translate v).controlPoints at hq
    rw [Path.controlPoints_translate] at hq
    obtain ⟨r, hr, rfl⟩ := List.mem_map.mp hq
    exact (ih r hr).translate v

theorem onCurve_of_pointAtFraction {t : ℝ} {q : Point ℝ} (h : n.pointAtFraction t = .ok q) :
    n.geometry.OnCurve q :=
  (Path.of_pointAtFraction (mapError_eq_ok.mp h)).2.2

theorem onCurve_of_rayPoint {a : Angle ℝ} {key : AnchorKey ℝ} {q : Point ℝ}
    (h : n.rayPoint a key = .ok q) : n.geometry.OnCurve q := by
  unfold rayPoint at h
  split at h
  · cases h
  · next c hc =>
    split at h
    · cases h
    · next crossings hcross =>
      split at h
      · next p hp =>
        cases h
        have hmem : q ∈ crossings.filter (ahead a.unitVector c) := by simp [hp]
        exact Path.onCurve_of_mem_crossings hcross (List.mem_of_mem_filter hmem)
      · cases h
      · cases h

/-- Every key but the centre and the explicit anchors means a point of the geometry. -/
theorem onCurve_of_resolve {key : AnchorKey ℝ} {q : Point ℝ} (hcenter : key ≠ .center)
    (hcustom : ∀ name, key ≠ .custom name) (h : n.resolve key = .ok q) : n.geometry.OnCurve q := by
  cases key with
  | center => exact absurd rfl hcenter
  | north | south | west | east | angle a => exact onCurve_of_rayPoint h
  | start | mid | finish | fraction t => exact onCurve_of_pointAtFraction h
  | length d => exact Path.onCurve_of_pointAtLength (mapError_eq_ok.mp h)
  | custom name => exact absurd rfl (hcustom name)

/-- Every point that a path answers, by a fraction, a distance or a line, lies in its box. And
every key of a built node but the centre and the explicit anchors means a point in the box of
the node. -/
theorem answers_in_box :
    (∀ (p : Path ℝ) (q : Point ℝ),
      (∃ t, p.pointAtFraction t = .ok q) ∨ (∃ d, p.pointAtLength d = .ok q) ∨
        (∃ l ps, p.crossings l = .ok ps ∧ q ∈ ps) → p.box.Contains q) ∧
    ∀ n : Node ℝ, n.Built → ∀ key, key ≠ .center → (∀ name, key ≠ .custom name) →
      ∀ q, n.resolve key = .ok q → n.box.Contains q := by
  constructor
  · rintro p q (⟨t, hq⟩ | ⟨d, hq⟩ | ⟨l, ps, hps, hq⟩)
    · exact (Path.of_pointAtFraction hq).2.2.contains_box
    · exact (Path.onCurve_of_pointAtLength hq).contains_box
    · exact (Path.onCurve_of_mem_crossings hps hq).contains_box
  · intro n hn key hcenter hcustom q hq
    exact (onCurve_of_resolve hcenter hcustom hq).contains hn.contains_controlPoints

end Node

end

namespace Node

/-- Two strokes that do not connect and a mark beside them are moved together, and the end of
the outline of the strokes lies in the box of all three. -/
theorem answers_in_box_strokes :
    let _ : ExactTables := ⟨[(0, 1)], fun _ => ⟨false, 0, 0⟩⟩
    let strokes : List (Segment ℝ) :=
      [.polyline [⟨0, 0⟩, ⟨1, 0⟩] (by simp), .polyline [⟨0, 2⟩, ⟨1, 2⟩] (by simp)]
    let tip : List (Segment ℝ) := [.cubic ⟨5, 0⟩ ⟨6, 0⟩ ⟨6, 1⟩ ⟨5, 1⟩]
    ∃ n, ofDrawables [⟨.path, ⟨strokes⟩, Style.empty⟩, ⟨.mark, ⟨tip⟩, Style.empty⟩] none = .ok n ∧
      n.topology = .group ∧ (n.translate ⟨3, -4⟩).Built ∧
      (n.translate ⟨3, -4⟩).resolve .finish = .ok ⟨3, -4⟩ ∧
      (n.translate ⟨3, -4⟩).box.Contains ⟨3, -4⟩ := by
  intro _ strokes tip
  obtain ⟨n, hn⟩ : ∃ n : Node ℝ,
      ofDrawables [⟨.path, ⟨strokes⟩, Style.empty⟩, ⟨.mark, ⟨tip⟩, Style.empty⟩] none = .ok n :=
    ⟨_, rfl⟩
  let b : Box ℝ := ⟨⟨0, 0⟩, ⟨1, 2⟩⟩
  have hb : b.Proper := ⟨zero_le_one, zero_le_two⟩
  have hgroup : (⟨strokes⟩ : Path ℝ).topology = .group :=
    Path.topology_of_ne rfl (by simp [Segment.finish, Segment.start])
  have hbox : (⟨strokes⟩ : Path ℝ).box = b := by
    have horigin : (⟨0, 0⟩ : Point ℝ).InRange := by
      simpa [Point.InRange] using Scalar.sentinel_pos.le
    change Box.ofPoints [⟨0, 0⟩, ⟨1, 0⟩, ⟨0, 2⟩, ⟨1, 2⟩] = _
    rw [Box.ofPoints_cons horigin]
    norm_num [Box.insert_eq, b]
  have hgeometry : n.geometry = Path.outline b := by
    rw [geometry_of_ofDrawables hn]
    change geometryOf strokes = _
    simp only [geometryOf, hgroup, hbox]
  have hfinish : (n.translate ⟨3, -4⟩).geometry.finish = some ⟨3, -4⟩ := by
    change (n.geometry.translate _).finish = _
    rw [Path.finish_translate, hgeometry,
      Path.finish_eq_start_of_isClosed (Path.isClosed_outline hb), Path.start_outline hb,
      Option.map_some]
    simp [b, Point.ext_iff]
  have hbuilt : (n.translate ⟨3, -4⟩).Built := .translate _ (.ofDrawables hn)
  have hresolve : (n.translate ⟨3, -4⟩).resolve .finish = .ok ⟨3, -4⟩ :=
    mapError_eq_ok.mpr (Path.pointAtFraction_one hfinish)
  refine ⟨n, hn, ?_, hbuilt, hresolve, answers_in_box.2 _ hbuilt .finish (by simp) (by simp) _ hresolve⟩
  cases hn
  exact hgroup

end Node

end Drafting
