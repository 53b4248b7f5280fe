import Drafting.Node
import Drafting.Proofs.Outcome
import Drafting.Proofs.Path.Outline
import Drafting.Proofs.Path.Shoelace

/-!
# The centre of a node whose segments do not connect

Such a node answers by the outline of the box around its anchor segments. Segments that do not
connect have two different points, so the box is not a single point; it may be flat, though.

Where the area of the box counts as positive, the centre of the node is that of the box. Where
it counts as zero, there is no centroid and the middle of the outline takes its place. The
middle of an outline is the corner opposite to its start, so the centre is then an end of the
flat box, not its middle.
-/

namespace Drafting

section

variable [ExactTables]

namespace Box

variable {b : Box ℝ} {p q : Point ℝ}

theorem Contains.side_pos (hp : b.Contains p) (hq : b.Contains q) (hne : p ≠ q) :
    0 < b.width ∨ 0 < b.height := by
  rw [width, height, sub_pos, sub_pos]
  by_contra h
  push Not at h
  refine hne (Point.ext ?_ ?_)
  · linarith [hp.min_x, hp.max_x, hq.min_x, hq.max_x, h.1]
  · linarith [hp.min_y, hp.max_y, hq.min_y, hq.max_y, h.2]

theorem max_ne_center (h : 0 < b.width ∨ 0 < b.height) : b.max ≠ b.center := by
  intro he
  have hx : b.max.x = (b.min.x + b.max.x) / 2 := congrArg Point.x he
  have hy : b.max.y = (b.min.y + b.max.y) / 2 := congrArg Point.y he
  rw [width, height, sub_pos, sub_pos] at h
  rcases h with h | h <;> linarith

end Box

namespace Path

variable {p : Path ℝ}

/-- Two segments that do not connect have different ends. -/
theorem exists_ne_of_group (h : p.topology = .group) :
    ∃ q ∈ p.controlPoints, ∃ r ∈ p.controlPoints, q ≠ r := by
  obtain ⟨first, rest, hs⟩ := List.exists_cons_of_ne_nil
    (segments_ne_nil_of_topology (p := p) (by rw [h]; decide))
  have hconnected : Topology.connected p.segments = false := by
    rw [hs, Bool.eq_false_iff]
    intro hconnected
    rw [topology_cons hs, if_neg (by simp [hconnected])] at h
    split_ifs at h
  obtain ⟨⟨s, t⟩, hmem, hne⟩ := List.all_eq_false.mp hconnected
  obtain ⟨hs, ht⟩ := mem_of_mem_neighbours hmem
  refine ⟨s.finish, ?_, t.start, ?_, fun he => hne (Point.beq_iff.mpr he)⟩
  · exact List.mem_flatMap.mpr ⟨s, hs, List.mem_of_getLast? s.getLast?_controlPoints⟩
  · exact List.mem_flatMap.mpr ⟨t, ht, List.mem_of_head? t.head?_controlPoints⟩

end Path

namespace Node

variable {drawables : List (Drawable ℝ)} {name : Option String} {n : Node ℝ}

theorem geometryOf_of_group {segments : List (Segment ℝ)}
    (h : (⟨segments⟩ : Path ℝ).topology = .group) :
    geometryOf segments = Path.outline (⟨segments⟩ : Path ℝ).box := by
  simp only [geometryOf, h]

/-- A node whose anchor segments do not connect answers by the outline of their box. The key
`center` means the centre of the box unless the area of the box counts as zero, and then it
means the upper corner. -/
theorem center_of_group (h : Quadrature.Exact) (hn : ofDrawables drawables name = .ok n)
    (hgroup : n.topology = .group) :
    let b := (⟨drawables.flatMap Drawable.anchorSegments⟩ : Path ℝ).box
    b.Proper ∧ n.geometry.segments = [.polyline b.corners (by simp [Box.corners])] ∧
      n.geometry.topology = .closed ∧ n.geometry.start = some b.min ∧ n.geometry.box = b ∧
      (Path.areaEpsilon * b.diagonalSq < b.width * b.height → n.anchor "center" = .ok b.center) ∧
      (b.width * b.height ≤ Path.areaEpsilon * b.diagonalSq →
        n.anchor "center" = .ok b.max ∧ b.max ≠ b.center) := by
  intro b
  obtain ⟨name', -, hn⟩ := bind_eq_ok.mp hn
  cases hn
  obtain ⟨q, hq, r, hr, hne⟩ := Path.exists_ne_of_group hgroup
  have hb : b.Proper := Box.proper_ofPoints (List.ne_nil_of_mem hq)
  have hempty : Box.empty.Within b := Box.empty_within_ofPoints _
  have hside : 0 < b.width ∨ 0 < b.height :=
    (Box.contains_ofPoints hq).side_pos (Box.contains_ofPoints hr) hne
  have hgeometry : geometryOf (drawables.flatMap Drawable.anchorSegments) = Path.outline b :=
    geometryOf_of_group hgroup
  have hparse : (AnchorKey.parse "center" : AnchorKey ℝ) = .center := rfl
  simp only [anchor, hparse, resolve, center, pointAtFraction, hgeometry,
    Path.centroid_outline h hb hempty, Path.pointAtFraction_half_outline h hb hside]
  refine ⟨hb, by rw [Path.outline_of_proper hb], beq_iff_eq.mp (Path.isClosed_outline hb),
    Path.start_outline hb, Path.box_outline hb hempty, fun harea => ?_, fun harea => ?_⟩
  · rw [if_neg harea.not_ge]
  · rw [if_pos harea]
    exact ⟨rfl, Box.max_ne_center hside⟩

end Node

end

namespace Node

/-- On a line and a curve that lie on the x axis and do not touch, the key `center` means the
far end of the curve. -/
theorem center_of_group_dashes :
    let _ : ExactTables := ⟨[(1, 1 / 3), (0, 2 / 3)], fun _ => ⟨false, 0, 0⟩⟩
    let dashes : List (Segment ℝ) :=
      [.polyline [⟨0, 0⟩, ⟨1, 0⟩] (by simp), .cubic ⟨2, 0⟩ ⟨2, 0⟩ ⟨3, 0⟩ ⟨3, 0⟩]
    ∃ n, ofDrawables [⟨.path, ⟨dashes⟩, Style.empty⟩] none = .ok n ∧ n.topology = .group ∧
      Quadrature.Exact ∧ (⟨dashes⟩ : Path ℝ).box = ⟨⟨0, 0⟩, ⟨3, 0⟩⟩ ∧
      n.anchor "center" = .ok ⟨3, 0⟩ := by
  intro _ dashes
  have hrule : Quadrature.Exact := Quadrature.exact_of_legendre rfl
  obtain ⟨n, hn⟩ : ∃ n, ofDrawables [(⟨.path, ⟨dashes⟩, Style.empty⟩ : Drawable ℝ)] none = .ok n :=
    ⟨_, rfl⟩
  have hgroup : n.topology = .group := by
    cases hn
    exact Path.topology_of_ne (p := ⟨dashes⟩) rfl (by simp [Segment.finish, Segment.start])
  have hbox : (⟨dashes⟩ : Path ℝ).box = ⟨⟨0, 0⟩, ⟨3, 0⟩⟩ := by
    have horigin : (⟨0, 0⟩ : Point ℝ).InRange := by
      simpa [Point.InRange] using Scalar.sentinel_pos.le
    change Box.ofPoints [⟨0, 0⟩, ⟨1, 0⟩, ⟨2, 0⟩, ⟨2, 0⟩, ⟨3, 0⟩, ⟨3, 0⟩] = _
    rw [Box.ofPoints_cons horigin]
    norm_num [Box.insert_eq]
  have hsegments : [(⟨.path, ⟨dashes⟩, Style.empty⟩ : Drawable ℝ)].flatMap
      Drawable.anchorSegments = dashes := rfl
  obtain ⟨-, -, -, -, -, -, hflat⟩ := center_of_group hrule hn hgroup
  rw [hsegments, hbox] at hflat
  refine ⟨n, hn, hgroup, hrule, hbox, (hflat ?_).1⟩
  norm_num [Box.width, Box.height, Box.diagonalSq, Path.areaEpsilon]

end Node

end Drafting
