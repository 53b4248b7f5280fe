import Drafting.Node
import Drafting.Proofs.Outcome
import Drafting.Proofs.Path.Translate
import Mathlib.Tactic.FinCases

/-!
# Anchors of a moved node

Every anchor of a node moves along with the node, and a key without an answer keeps
its error. The ray is cast from the centroid, so its line moves along as well, and
which crossings lie ahead is decided by differences to the centroid.
-/

namespace Drafting

namespace Node

section
variable [ExactTables] {n : Node ℝ} {v : Offset ℝ}

def InRange (n : Node ℝ) : Prop := n.geometry.InRange

/-- What holds of the coordinates of all defining points holds of those of the outline
that may take their place. -/
theorem forall_controlPoints_geometryOf (X Y : ℝ → Prop) {segments : List (Segment ℝ)}
    (hr : (⟨segments⟩ : Path ℝ).InRange)
    (h : ∀ q ∈ (⟨segments⟩ : Path ℝ).controlPoints, X q.x ∧ Y q.y) :
    ∀ q ∈ (geometryOf segments).controlPoints, X q.x ∧ Y q.y := by
  unfold geometryOf
  dsimp only
  split
  · unfold Path.outline Path.box
    split_ifs with he
    · simp [Path.empty, Path.controlPoints]
    · cases hp : (⟨segments⟩ : Path ℝ).controlPoints with
      | nil => simp [hp, Box.isEmpty_empty] at he
      | cons p ps =>
        rw [hp] at h
        have hp' : p.InRange := hr p (by rw [hp]; exact List.mem_cons_self)
        simp only [Path.controlPoints, List.flatMap_cons, List.flatMap_nil, List.append_nil,
          Segment.controlPoints, Box.ofPoints_cons hp']
        have hpx := h p List.mem_cons_self
        exact Box.corners_foldl_insert hpx hpx fun q hq => h q (List.mem_cons_of_mem p hq)
  · exact h

theorem inRange_of_ofDrawables {drawables : List (Drawable ℝ)} {name : Option String}
    (hn : ofDrawables drawables name = .ok n)
    (h : ∀ q ∈ (⟨drawables.flatMap Drawable.anchorSegments⟩ : Path ℝ).controlPoints,
      q.InRange ∧ (q + v).InRange) : n.InRange ∧ (n.translate v).InRange := by
  obtain ⟨name', -, hn⟩ := bind_eq_ok.mp hn
  cases hn
  have hr : (⟨drawables.flatMap Drawable.anchorSegments⟩ : Path ℝ).InRange :=
    fun q hq => (h q hq).1
  constructor
  · exact forall_controlPoints_geometryOf (|·| ≤ Scalar.sentinel) (|·| ≤ Scalar.sentinel) hr hr
  · intro q hq
    change q ∈ ((geometryOf _).translate v).controlPoints at hq
    rw [Path.controlPoints_translate, List.mem_map] at hq
    obtain ⟨q, hq, rfl⟩ := hq
    exact forall_controlPoints_geometryOf (|· + v.dx| ≤ Scalar.sentinel)
      (|· + v.dy| ≤ Scalar.sentinel) hr (fun q hq => (h q hq).2) q hq

theorem inRange_of_ofSegments {segments : List (Segment ℝ)} {name : Option String}
    (hn : ofSegments segments name = .ok n)
    (h : ∀ q ∈ (⟨segments⟩ : Path ℝ).controlPoints, q.InRange ∧ (q + v).InRange) :
    n.InRange ∧ (n.translate v).InRange := by
  refine inRange_of_ofDrawables hn ?_
  simpa [Drawable.anchorSegments] using h

theorem pointAtFraction_translate (n : Node ℝ) (v : Offset ℝ) (t : ℝ) :
    (n.translate v).pointAtFraction t = (n.pointAtFraction t).map fun q : Point ℝ => q + v := by
  unfold pointAtFraction translate
  rw [Path.pointAtFraction_translate]
  cases n.geometry.pointAtFraction t <;> rfl

theorem pointAtLength_translate (n : Node ℝ) (v : Offset ℝ) (distance : ℝ) :
    (n.translate v).pointAtLength distance =
      (n.pointAtLength distance).map fun q : Point ℝ => q + v := by
  unfold pointAtLength translate
  rw [Path.pointAtLength_translate]
  cases n.geometry.pointAtLength distance <;> rfl

theorem centroid_geometry_translate (h : n.InRange) (h' : (n.translate v).InRange) :
    (n.translate v).geometry.centroid = n.geometry.centroid.map fun q : Point ℝ => q + v :=
  Path.centroid_translate h h'

theorem ahead_add_right (direction : Offset ℝ) (center p : Point ℝ) (v : Offset ℝ) :
    ahead direction (center + v) (p + v) = ahead direction center p := by
  simp only [ahead, Point.add_sub_add_right]

theorem rayPoint_translate (h : n.InRange) (h' : (n.translate v).InRange) (a : Angle ℝ)
    (key : AnchorKey ℝ) :
    (n.translate v).rayPoint a key = (n.rayPoint a key).map fun q : Point ℝ => q + v := by
  unfold rayPoint
  rw [centroid_geometry_translate h h']
  cases n.geometry.centroid with
  | error e => rfl
  | ok center =>
    have hx : (n.translate v).geometry.crossings (Line.atAngle (center + v) a) =
        (n.geometry.crossings (Line.atAngle center a)).map
          (List.map fun q : Point ℝ => q + v) :=
      Path.crossings_translate h h' (Line.atAngle center a)
    simp only [Except.map, hx]
    cases n.geometry.crossings (Line.atAngle center a) with
    | error e => rfl
    | ok crossings =>
      have hf : (ahead a.unitVector (center + v) ∘ fun q : Point ℝ => q + v) =
          ahead a.unitVector center := by
        funext q
        exact ahead_add_right a.unitVector center q v
      simp only [List.filter_map, hf]
      match crossings.filter (ahead a.unitVector center) with
      | [] => rfl
      | [p] => rfl
      | p :: q :: rest => simp

theorem center_translate (h : n.InRange) (h' : (n.translate v).InRange) :
    (n.translate v).center = n.center.map fun q : Point ℝ => q + v := by
  unfold center
  rw [centroid_geometry_translate h h']
  cases n.geometry.centroid with
  | error e => exact n.pointAtFraction_translate v 0.5
  | ok p => rfl

theorem resolve_custom_translate (n : Node ℝ) (v : Offset ℝ) (name : String) :
    (n.translate v).resolve (.custom name) =
      (n.resolve (.custom name)).map fun q : Point ℝ => q + v := by
  simp only [resolve, translate, Std.ExtTreeMap.getElem?_map]
  cases n.anchors[name]? <;> rfl

/-- The keys whose answer depends on the centroid. -/
def UsesCentroid : AnchorKey ℝ → Prop
  | .center | .north | .south | .east | .west | .angle _ => True
  | .start | .mid | .finish | .length _ | .fraction _ | .custom _ => False

theorem resolve_translate_of_usesCentroid (h : n.InRange) (h' : (n.translate v).InRange)
    {key : AnchorKey ℝ} (hk : UsesCentroid key) :
    (n.translate v).resolve key = (n.resolve key).map fun q : Point ℝ => q + v := by
  cases key with
  | center => exact center_translate h h'
  | north => exact rayPoint_translate h h' _ _
  | south => exact rayPoint_translate h h' _ _
  | east => exact rayPoint_translate h h' _ _
  | west => exact rayPoint_translate h h' _ _
  | angle a => exact rayPoint_translate h h' a _
  | _ => exact hk.elim

/-- Lengths along the outline and explicit anchors know no box, so no point has to be in
range. -/
theorem resolve_translate_of_not_usesCentroid (n : Node ℝ) (v : Offset ℝ) {key : AnchorKey ℝ}
    (hk : ¬ UsesCentroid key) :
    (n.translate v).resolve key = (n.resolve key).map fun q : Point ℝ => q + v := by
  cases key with
  | start => exact n.pointAtFraction_translate v 0
  | mid => exact n.pointAtFraction_translate v 0.5
  | finish => exact n.pointAtFraction_translate v 1
  | length distance => exact n.pointAtLength_translate v distance
  | fraction t => exact n.pointAtFraction_translate v t
  | custom name => exact n.resolve_custom_translate v name
  | _ => exact absurd trivial hk

/-- Moving a node moves what every key means on it, and changes no error. -/
theorem resolve_translate (n : Node ℝ) (v : Offset ℝ) (h : n.InRange)
    (h' : (n.translate v).InRange) (key : AnchorKey ℝ) :
    (n.translate v).resolve key = (n.resolve key).map fun q : Point ℝ => q + v := by
  by_cases hk : UsesCentroid key
  · exact resolve_translate_of_usesCentroid h h' hk
  · exact n.resolve_translate_of_not_usesCentroid v hk

end

/-- Two strokes that do not connect are moved, and the ray meets the outline of their
box. -/
theorem resolve_translate_strokes :
    let _ : ExactTables := ⟨[(0, 1)], fun _ => ⟨false, 0, 0⟩⟩
    let v : Offset ℝ := ⟨5, -3⟩
    let strokes : List (Segment ℝ) :=
      [.polyline [⟨0, 0⟩, ⟨1, 0⟩] (by simp), .polyline [⟨0, 2⟩, ⟨1, 2⟩] (by simp)]
    ∃ n, ofSegments strokes none = .ok n ∧ n.InRange ∧ (n.translate v).InRange ∧
      (n.translate v).resolve .north = (n.resolve .north).map fun q : Point ℝ => q + v := by
  intro _ v strokes
  obtain ⟨n, hn⟩ : ∃ n, ofSegments strokes none = .ok n := ⟨_, rfl⟩
  have hs : (8 : ℝ) ≤ Scalar.sentinel := by norm_num [Scalar.sentinel]
  have near (x y : ℝ) (hx : |x| ≤ 8) (hy : |y| ≤ 8) : (⟨x, y⟩ : Point ℝ).InRange :=
    ⟨hx.trans hs, hy.trans hs⟩
  have hr : ∀ q ∈ (⟨strokes⟩ : Path ℝ).controlPoints, q.InRange ∧ (q + v).InRange := by
    intro q hq
    have hq : q ∈ ([⟨0, 0⟩, ⟨1, 0⟩, ⟨0, 2⟩, ⟨1, 2⟩] : List (Point ℝ)) := hq
    fin_cases hq <;> constructor <;> apply near <;> norm_num [v, abs_le]
  obtain ⟨h, h'⟩ := inRange_of_ofSegments hn hr
  exact ⟨n, hn, h, h', resolve_translate n v h h' .north⟩

end Node

end Drafting
