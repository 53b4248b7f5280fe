import Drafting.Proofs.Node.Built
import Drafting.Proofs.Node.Extent
import Drafting.Proofs.Node.Translate

/-!
# Moving a node and building it anew

A moved node keeps its topology, moves the outline that may have taken the place of its
segments, and moves its box by the corners. A node built from the moved drawables has all three
computed again. Within the range of the sentinels the two are the same node, with explicit
anchors as well.
-/

namespace Drafting

section

variable [ExactTables]

namespace Box

theorem isEmpty_translate (b : Box ℝ) (v : Offset ℝ) : (b.translate v).isEmpty = b.isEmpty := by
  unfold translate
  split_ifs with h
  · rfl
  · simp [isEmpty]

theorem corners_translate {b : Box ℝ} (h : b.isEmpty = false) (v : Offset ℝ) :
    (b.translate v).corners = b.corners.map fun p : Point ℝ => p + v := by
  rw [translate, if_neg (by simp [h])]
  rfl

end Box

namespace Path

theorem outline_translate (b : Box ℝ) (v : Offset ℝ) :
    outline (b.translate v) = (outline b).translate v := by
  unfold outline
  rw [Box.isEmpty_translate]
  cases h : b.isEmpty with
  | true => rfl
  | false =>
    simp only [Bool.false_eq_true, if_false, Box.corners_translate h]
    rfl

end Path

namespace Drawable

theorem anchorSegments_translate (d : Drawable ℝ) (v : Offset ℝ) :
    (d.translate v).anchorSegments = d.anchorSegments.map (·.translate v) := by
  obtain ⟨kind, path, style⟩ := d
  cases kind <;> rfl

end Drawable

namespace Node

variable {drawables : List (Drawable ℝ)} {v : Offset ℝ}

theorem flatMap_anchorSegments_translate (drawables : List (Drawable ℝ)) (v : Offset ℝ) :
    (drawables.map (·.translate v)).flatMap Drawable.anchorSegments =
      (drawables.flatMap Drawable.anchorSegments).map (·.translate v) := by
  simp only [List.flatMap_map, List.map_flatMap, Drawable.anchorSegments_translate]

/-- The geometry of moved segments is the moved geometry, also where it is an outline. -/
theorem geometryOf_translate {segments : List (Segment ℝ)} (h : (⟨segments⟩ : Path ℝ).InRange)
    (h' : (⟨segments.map (·.translate v)⟩ : Path ℝ).InRange) :
    geometryOf (segments.map (·.translate v)) = (geometryOf segments).translate v := by
  have hbox : (⟨segments.map (·.translate v)⟩ : Path ℝ).box =
      (⟨segments⟩ : Path ℝ).box.translate v := Path.box_translate h h'
  simp only [geometryOf, Path.topology, Topology.classify_translate]
  cases Topology.classify segments with
  | group => rw [hbox, Path.outline_translate]
  | empty => rfl
  | opened => rfl
  | closed => rfl

theorem inRange_anchorSegments (h : ∀ d ∈ drawables, d.path.InRange) :
    (⟨drawables.flatMap Drawable.anchorSegments⟩ : Path ℝ).InRange := by
  intro q hq
  obtain ⟨s, hs, hq⟩ := List.mem_flatMap.mp hq
  obtain ⟨d, hd, hs⟩ := List.mem_flatMap.mp hs
  refine h d hd q (List.mem_flatMap.mpr ⟨s, ?_, hq⟩)
  obtain ⟨kind, path, style⟩ := d
  cases kind with
  | path => exact hs
  | mark => cases hs

theorem foldl_union_box_translate (h : ∀ d ∈ drawables, d.path.InRange)
    (h' : ∀ d ∈ drawables, (d.translate v).path.InRange) :
    (drawables.map (·.translate v)).foldl (fun b d => b.union d.path.box) Box.empty =
      (drawables.foldl (fun b d => b.union d.path.box) Box.empty).translate v := by
  have hmoved : ((drawables.map (·.translate v)).flatMap fun d => d.path.controlPoints) =
      (drawables.flatMap fun d => d.path.controlPoints).map fun p : Point ℝ => p + v := by
    simp only [List.flatMap_map, List.map_flatMap, Drawable.translate, Path.controlPoints_translate]
  rw [← Box.ofPoints_nil, foldl_union_box, foldl_union_box, List.nil_append, List.nil_append,
    hmoved]
  refine Box.ofPoints_map_add ?_ ?_
  · intro p hp
    obtain ⟨d, hd, hp⟩ := List.mem_flatMap.mp hp
    exact h d hd p hp
  · intro p hp
    obtain ⟨d, hd, hp⟩ := List.mem_flatMap.mp hp
    refine h' d hd (p + v) ?_
    rw [Drawable.translate, Path.controlPoints_translate]
    exact List.mem_map_of_mem hp

/-- Building a node from moved drawables is moving the node built from the drawables, and fails
where that fails. -/
theorem ofDrawables_translate (h : ∀ d ∈ drawables, d.path.InRange)
    (h' : ∀ d ∈ drawables, (d.translate v).path.InRange) (name : Option String) :
    ofDrawables (drawables.map (·.translate v)) name =
      (ofDrawables drawables name).map (·.translate v) := by
  have hmoved : ∀ d ∈ drawables.map (·.translate v), d.path.InRange := List.forall_mem_map.mpr h'
  have hsegments := inRange_anchorSegments hmoved
  rw [flatMap_anchorSegments_translate] at hsegments
  unfold ofDrawables
  cases checkName (K := ℝ) name with
  | error e => rfl
  | ok name =>
    refine congrArg Except.ok ?_
    simp only [flatMap_anchorSegments_translate, Topology.classify_translate,
      geometryOf_translate (inRange_anchorSegments h) hsegments, foldl_union_box_translate h h']
    rfl

omit [ExactTables] in
theorem insert_map_anchors (anchors : NameMap (Point ℝ)) (name : String) (point : Point ℝ)
    (f : Point ℝ → Point ℝ) : (anchors.insert name point).map (fun _ p => f p) =
      (anchors.map fun _ p => f p).insert name (f point) := by
  refine Std.ExtTreeMap.ext_getElem? fun key => ?_
  simp only [Std.ExtTreeMap.getElem?_map, Std.ExtTreeMap.getElem?_insert]
  split_ifs <;> rfl

def addAnchors (n : Node ℝ) (anchors : List (String × Point ℝ)) : Except (AnchorError ℝ) (Node ℝ) :=
  anchors.foldlM (fun n anchor => n.addAnchor anchor.1 anchor.2) n

theorem addAnchor_translate (n : Node ℝ) (v : Offset ℝ) (name : String) (point : Point ℝ) :
    (n.translate v).addAnchor name (point + v) = (n.addAnchor name point).map (·.translate v) := by
  unfold addAnchor
  split_ifs
  · rfl
  · refine congrArg Except.ok ?_
    simp only [translate, insert_map_anchors]

theorem addAnchors_translate (n : Node ℝ) (v : Offset ℝ) (anchors : List (String × Point ℝ)) :
    (n.translate v).addAnchors (anchors.map fun anchor => (anchor.1, anchor.2 + v)) =
      (n.addAnchors anchors).map (·.translate v) := by
  unfold addAnchors
  induction anchors generalizing n with
  | nil => rfl
  | cons anchor anchors ih =>
    simp only [List.map_cons, List.foldlM_cons, addAnchor_translate]
    cases n.addAnchor anchor.1 anchor.2 with
    | error e => rfl
    | ok n => exact ih n

end Node

theorem Point.add_add (p : Point ℝ) (v w : Offset ℝ) : p + v + w = p + (v + w) := by
  ext
  · exact add_assoc p.x v.dx w.dx
  · exact add_assoc p.y v.dy w.dy

theorem Segment.translate_translate (s : Segment ℝ) (v w : Offset ℝ) :
    (s.translate v).translate w = s.translate (v + w) := by
  cases s <;> simp [translate, mapPoints, Function.comp_def, Point.add_add]

theorem Path.translate_translate (p : Path ℝ) (v w : Offset ℝ) :
    (p.translate v).translate w = p.translate (v + w) := by
  simp [translate, Function.comp_def, Segment.translate_translate]

theorem Box.translate_translate (b : Box ℝ) (v w : Offset ℝ) :
    (b.translate v).translate w = b.translate (v + w) := by
  rw [translate, isEmpty_translate]
  cases h : b.isEmpty with
  | true => simp [translate, h]
  | false => simp [translate, h, Point.add_add]

namespace Node

theorem translate_translate (n : Node ℝ) (v w : Offset ℝ) :
    (n.translate v).translate w = n.translate (v + w) := by
  have hdrawables : ((n.translate v).translate w).drawables = (n.translate (v + w)).drawables := by
    simp [translate, Drawable.translate, Path.translate_translate]
  have hanchors : ((n.translate v).translate w).anchors = (n.translate (v + w)).anchors := by
    refine Std.ExtTreeMap.ext_getElem? fun key => ?_
    simp only [translate, Std.ExtTreeMap.getElem?_map, Option.map_map, Function.comp_def,
      Point.add_add]
  exact (Node.mk.injEq ..).mpr ⟨rfl, hdrawables, rfl, n.geometry.translate_translate v w,
    n.box.translate_translate v w, hanchors⟩

/-- Within the range of the sentinels, moving a node is building it anew from what has been
moved, whether its segments connect or not, and with explicit anchors as well. -/
theorem translate_eq_rebuilt {drawables : List (Drawable ℝ)} {v : Offset ℝ}
    (h : ∀ d ∈ drawables, d.path.InRange)
    (h' : ∀ d ∈ drawables, (d.translate v).path.InRange) (name : Option String) :
    ofDrawables (drawables.map (·.translate v)) name =
      (ofDrawables drawables name).map (·.translate v) ∧
    (∀ anchors : List (String × Point ℝ),
      (ofDrawables (drawables.map (·.translate v)) name >>= fun n =>
        n.addAnchors (anchors.map fun anchor => (anchor.1, anchor.2 + v))) =
      (ofDrawables drawables name >>= fun n => n.addAnchors anchors).map (·.translate v)) ∧
    ∀ (n : Node ℝ) (v w : Offset ℝ), (n.translate v).translate w = n.translate (v + w) := by
  have hbuilt := ofDrawables_translate h h' name
  refine ⟨hbuilt, fun anchors => ?_, translate_translate⟩
  rw [hbuilt]
  cases ofDrawables drawables name with
  | error e => rfl
  | ok n => exact n.addAnchors_translate v anchors

end Node

end

namespace Node

/-- Two strokes that do not connect and a mark are moved; the outline that stands for the
strokes moves along, and so does an anchor. -/
theorem translate_eq_rebuilt_strokes :
    let _ : ExactTables := ⟨[(0, 1)], fun _ => ⟨false, 0, 0⟩⟩
    let v : Offset ℝ := ⟨5, -3⟩
    let strokes : List (Segment ℝ) :=
      [.polyline [⟨0, 0⟩, ⟨1, 0⟩] (by simp), .polyline [⟨0, 2⟩, ⟨1, 2⟩] (by simp)]
    let mark : List (Segment ℝ) := [.polyline [⟨4, 4⟩, ⟨7, 4⟩] (by simp)]
    let drawables : List (Drawable ℝ) :=
      [⟨.path, ⟨strokes⟩, Style.empty⟩, ⟨.mark, ⟨mark⟩, Style.empty⟩]
    (∀ d ∈ drawables, d.path.InRange) ∧ (∀ d ∈ drawables, (d.translate v).path.InRange) ∧
      (ofDrawables (drawables.map (·.translate v)) (some "strokes") >>= fun n =>
        n.addAnchors [("tip", ⟨6, -2⟩)]) =
      (ofDrawables drawables (some "strokes") >>= fun n =>
        n.addAnchors [("tip", ⟨1, 1⟩)]).map (·.translate v) := by
  intro _ v strokes mark drawables
  have hs : (16 : ℝ) ≤ Scalar.sentinel := by norm_num [Scalar.sentinel]
  have near (x y : ℝ) (hx : |x| ≤ 16) (hy : |y| ≤ 16) : (⟨x, y⟩ : Point ℝ).InRange :=
    ⟨hx.trans hs, hy.trans hs⟩
  have hr : ∀ d ∈ drawables, ∀ q ∈ d.path.controlPoints, q.InRange ∧ (q + v).InRange := by
    have hstrokes : ∀ q ∈ ([⟨0, 0⟩, ⟨1, 0⟩, ⟨0, 2⟩, ⟨1, 2⟩] : List (Point ℝ)),
        q.InRange ∧ (q + v).InRange := by
      intro q hq
      fin_cases hq <;> constructor <;> apply near <;> norm_num [v, abs_le]
    have hmark : ∀ q ∈ ([⟨4, 4⟩, ⟨7, 4⟩] : List (Point ℝ)), q.InRange ∧ (q + v).InRange := by
      intro q hq
      fin_cases hq <;> constructor <;> apply near <;> norm_num [v, abs_le]
    exact List.forall_mem_cons.mpr ⟨hstrokes, List.forall_mem_singleton.mpr hmark⟩
  have h : ∀ d ∈ drawables, d.path.InRange := fun d hd q hq => (hr d hd q hq).1
  have h' : ∀ d ∈ drawables, (d.translate v).path.InRange := by
    intro d hd q hq
    rw [Drawable.translate, Path.controlPoints_translate] at hq
    obtain ⟨p, hp, rfl⟩ := List.mem_map.mp hq
    exact (hr d hd p hp).2
  refine ⟨h, h', ?_⟩
  have hanchors := (translate_eq_rebuilt h h' (some "strokes")).2.1 [("tip", ⟨1, 1⟩)]
  have htip : (⟨1, 1⟩ : Point ℝ) + v = ⟨6, -2⟩ := by
    ext <;> norm_num [v]
  simpa only [List.map_cons, List.map_nil, htip] using hanchors

end Node

end Drafting
