import Drafting.Binary64
import Drafting.Proofs.Node.Answers
import Drafting.Proofs.Path.Recut
import Mathlib.Logic.Relation

/-!
# Outlines cut up in another way

A node looks its anchors up on one list of segments, and does not care how that list came about.
Its segments may be spread over other path drawables, marks may stand anywhere between those, and
polylines may be cut in two or joined. The topology, the pieces, lengths, area and centroid stay as
they are, and so does the answer of every anchor key, also where the segments do not connect and
the outline of their box takes their place.
-/

namespace Drafting

variable {K : Type} [Scalar K]

namespace Drawable

/-- Two lists of drawables that draw the same outline, cut up in another way: path drawables hold
the same segments in other portions, a mark is put in, or a polyline is cut in two. -/
inductive RecutStep : List (Drawable K) → List (Drawable K) → Prop
  | regroup {ds ds' : List (Drawable K)} (h : ∀ d ∈ ds, d.kind = .path)
      (h' : ∀ d ∈ ds', d.kind = .path)
      (hsame : (ds.flatMap fun d => d.path.segments) = ds'.flatMap fun d => d.path.segments) :
      RecutStep ds ds'
  | mark (front back : List (Drawable K)) {d : Drawable K} (h : d.kind = .mark) :
      RecutStep (front ++ back) (front ++ d :: back)
  | cut (front back : List (Drawable K)) (style : Style) {ss ss' : List (Segment K)}
      (h : Segment.Cut ss ss') :
      RecutStep (front ++ ⟨.path, ⟨ss⟩, style⟩ :: back) (front ++ ⟨.path, ⟨ss'⟩, style⟩ :: back)

/-- Two lists of drawables lead to each other by steps and their converses. -/
def Recut : List (Drawable K) → List (Drawable K) → Prop := Relation.EqvGen RecutStep

variable {ds ds' : List (Drawable K)}

omit [Scalar K] in
theorem flatMap_anchorSegments_of_path (h : ∀ d ∈ ds, d.kind = .path) :
    ds.flatMap anchorSegments = ds.flatMap fun d => d.path.segments := by
  refine List.flatMap_congr fun d hd => ?_
  rw [anchorSegments, h d hd]

theorem RecutStep.sameOutline (h : RecutStep ds ds') :
    Path.SameOutline ⟨ds.flatMap anchorSegments⟩ ⟨ds'.flatMap anchorSegments⟩ := by
  cases h with
  | regroup h h' hsame =>
    rw [flatMap_anchorSegments_of_path h, flatMap_anchorSegments_of_path h', hsame]
    exact .refl _
  | mark front back h =>
    rw [List.flatMap_append, List.flatMap_append, List.flatMap_cons, anchorSegments, h]
    exact .refl _
  | cut front back style h =>
    have hcut := h.append (front.flatMap anchorSegments) (back.flatMap anchorSegments)
    simpa [anchorSegments] using hcut.sameOutline

theorem Recut.sameOutline (h : Recut ds ds') :
    Path.SameOutline ⟨ds.flatMap anchorSegments⟩ ⟨ds'.flatMap anchorSegments⟩ := by
  induction h with
  | rel ds ds' h => exact h.sameOutline
  | refl ds => exact .refl _
  | symm ds ds' _ ih => exact ih.symm
  | trans ds ds' ds'' _ _ ih ih' => exact ih.trans ih'

end Drawable

namespace Node

/-- Outlines of boxes take the place of segments that do not connect, and the boxes are equal. -/
theorem sameOutline_geometryOf {ss ss' : List (Segment K)} (h : Path.SameOutline ⟨ss⟩ ⟨ss'⟩) :
    Path.SameOutline (geometryOf ss) (geometryOf ss') := by
  unfold geometryOf
  dsimp only
  rw [h.topology, h.box]
  split
  · exact .refl _
  · exact h

/-- The nodes have the same name and cannot be told apart by their topology, by what is measured
along their geometry, or by any anchor key when they are given the same explicit anchors. -/
structure SameAnswers (n n' : Node K) : Prop where
  name : n'.name = n.name
  topology : n'.topology = n.topology
  pieces : n'.geometry.pieces = n.geometry.pieces
  lengthTable : n'.geometry.lengthTable = n.geometry.lengthTable
  area : n'.geometry.area = n.geometry.area
  centroid : n'.centroid = n.centroid
  resolve : ∀ anchors key, resolve { n' with anchors } key = resolve { n with anchors } key

variable {n n' : Node K}

theorem resolve_of_sameOutline (hname : n'.name = n.name) (hanchors : n'.anchors = n.anchors)
    (h : Path.SameOutline n.geometry n'.geometry) (key : AnchorKey K) :
    n'.resolve key = n.resolve key := by
  cases hkey : key.ray? with
  | none =>
    exact resolve_congr hname hanchors h.centroid h.pointAtFraction h.pointAtLength hkey
  | some a =>
    rw [n'.resolve_of_ray hkey, n.resolve_of_ray hkey]
    exact rayPoint_congr h.centroid fun c _ => h.crossings (Line.atAngle c a)

/-- What a node answers does not depend on how its outline is cut up into drawables and
segments. -/
theorem ofDrawables_recut {ds ds' : List (Drawable K)} (h : Drawable.Recut ds ds')
    (name : Option String) : Alike SameAnswers (ofDrawables ds name) (ofDrawables ds' name) := by
  have hsegments := h.sameOutline
  have hgeometry := sameOutline_geometryOf hsegments
  unfold ofDrawables
  cases checkName name with
  | error e => exact .error e
  | ok name' =>
    exact .ok {
      name := rfl
      topology := hsegments.topology
      pieces := hgeometry.pieces
      lengthTable := hgeometry.lengthTable
      area := hgeometry.area
      centroid := hgeometry.centroid
      resolve := fun anchors => resolve_of_sameOutline rfl rfl hgeometry }

/-- A corner and a stroke apart from it, each drawn at once, against the first leg of the corner,
a mark, and the other leg together with the stroke. Both are groups, with the same anchors. -/
theorem ofDrawables_recut_group :
    let leg : Segment Float := .polyline [⟨0, 0⟩, ⟨2, 0⟩] (Nat.le_refl 2)
    let leg' : Segment Float := .polyline [⟨2, 0⟩, ⟨2, 2⟩] (Nat.le_refl 2)
    let corner : Segment Float := .polyline [⟨0, 0⟩, ⟨2, 0⟩, ⟨2, 2⟩] (Nat.le_succ 2)
    let stroke : Segment Float := .polyline [⟨5, 5⟩, ⟨6, 5⟩] (Nat.le_refl 2)
    let drawn (kind : DrawableKind) (ss : List (Segment Float)) : Drawable Float :=
      ⟨kind, ⟨ss⟩, Style.empty⟩
    let ds := [drawn .path [corner], drawn .path [stroke]]
    let ds' := [drawn .path [leg], drawn .mark [stroke], drawn .path [leg', stroke]]
    Drawable.Recut ds ds' ∧
      ∃ n n', ofDrawables ds none = .ok n ∧ ofDrawables ds' none = .ok n' ∧
        n.topology = .group ∧ n'.topology = .group ∧ SameAnswers n n' := by
  intro leg leg' corner stroke drawn ds ds'
  have hv : ((⟨2, 0⟩ : Point Float) == ⟨2, 0⟩) = true := by decide
  have hcut : Drawable.RecutStep ds [drawn .path [leg, leg'], drawn .path [stroke]] :=
    .cut [] _ _ (.mk [] [] [⟨0, 0⟩] [⟨2, 2⟩] ⟨2, 0⟩ hv _ _ _)
  have hregroup : Drawable.RecutStep [drawn .path [leg, leg'], drawn .path [stroke]]
      [drawn .path [leg], drawn .path [leg', stroke]] :=
    .regroup (by simp [drawn]) (by simp [drawn]) rfl
  have hmark : Drawable.RecutStep [drawn .path [leg], drawn .path [leg', stroke]] ds' :=
    .mark [drawn .path [leg]] _ rfl
  have hrecut : Drawable.Recut ds ds' :=
    ((Relation.EqvGen.rel _ _ hcut).trans _ _ _ (.rel _ _ hregroup)).trans _ _ _ (.rel _ _ hmark)
  have hsame := ofDrawables_recut hrecut none
  refine ⟨hrecut, _, _, rfl, rfl, by decide, by decide, ?_⟩
  cases hsame with
  | ok h => exact h

end Node

end Drafting
