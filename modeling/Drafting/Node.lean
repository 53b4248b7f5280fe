import Drafting.AnchorKey
import Drafting.Drawable

/-!
# Nodes

A node is a group of drawables with anchors. Its geometry is the path of the
anchor segments of its drawables, one after the other. When these do not connect,
the outline of their box takes their place, so that the centre, percentages and
rays stay defined.

An anchor key is answered from the geometry, except for custom names, which are
looked up among the explicit anchors.
-/

namespace Drafting

variable {K : Type} [Scalar K]

/-- A group of drawables, named or not, with anchors. -/
structure Node (K : Type) where
  name : Option String
  drawables : List (Drawable K)
  /-- How the anchor segments connect, before an outline takes their place. -/
  topology : Topology
  /-- The path on which anchors are looked up. -/
  geometry : Path K
  /-- The box around every drawable, marks included. -/
  box : Box K
  anchors : NameMap (Point K)

namespace Node

/-- The name itself when there is none or it is valid. -/
def checkName (name : Option String) : Except (AnchorError K) (Option String) :=
  match name with
  | none => .ok none
  | some n => if Name.isValid n then .ok (some n) else .error (.invalidNodeName n)

/-- The path on which anchors are looked up, for the anchor segments of a node. -/
def geometryOf (segments : List (Segment K)) : Path K :=
  let combined : Path K := ⟨segments⟩
  match combined.topology with
  | .group => Path.outline combined.box
  | _ => combined

def ofDrawables (drawables : List (Drawable K)) (name : Option String) :
    Except (AnchorError K) (Node K) := do
  let name ← checkName name
  let segments := drawables.flatMap Drawable.anchorSegments
  return {
    name
    drawables
    topology := Topology.classify segments
    geometry := geometryOf segments
    box := drawables.foldl (fun b d => b.union d.path.box) Box.empty
    anchors := ∅ }

/-- The node of one unstyled path. -/
def ofSegments (segments : List (Segment K)) (name : Option String) :
    Except (AnchorError K) (Node K) :=
  ofDrawables [⟨.path, ⟨segments⟩, Style.empty⟩] name

/-- The node that is a single point and draws nothing. -/
def anchorPoint (name : Option String) (point : Point K) : Except (AnchorError K) (Node K) := do
  let name ← checkName name
  let geometry : Path K := ⟨[.polyline [point, point] (by simp)]⟩
  return {
    name
    drawables := []
    topology := geometry.topology
    geometry
    box := geometry.box
    anchors := ∅ }

def length (n : Node K) : K := n.geometry.length

def centroid (n : Node K) : Except (PathError K) (Point K) := n.geometry.centroid

/-- The node with an explicit anchor, whose name must be valid and not builtin. -/
def addAnchor (n : Node K) (name : String) (point : Point K) : Except (AnchorError K) (Node K) :=
  if !Name.isValid name || AnchorKey.isBuiltinName name then .error (.invalidAnchorName name)
  else .ok { n with anchors := n.anchors.insert name point }

def pointAtLength (n : Node K) (distance : K) : Except (AnchorError K) (Point K) :=
  (n.geometry.pointAtLength distance).mapError .path

def pointAtFraction (n : Node K) (t : K) : Except (AnchorError K) (Point K) :=
  (n.geometry.pointAtFraction t).mapError .path

/-- Whether a point lies on the side of a centre that a direction points to. The
larger coordinate of the direction decides. -/
def ahead (direction : Offset K) (center p : Point K) : Bool :=
  let d := p - center
  if Scalar.abs direction.dy ≤ Scalar.abs direction.dx then decide (0 < d.dx * direction.dx)
  else decide (0 < d.dy * direction.dy)

/-- The one point where the ray from the centroid at an angle meets the outline. -/
def rayPoint (n : Node K) (a : Angle K) (key : AnchorKey K) : Except (AnchorError K) (Point K) :=
  match n.geometry.centroid with
  | .error _ => .error (.angularAnchorUnsupported key.text)
  | .ok center =>
    match n.geometry.crossings (Line.atAngle center a) with
    | .error cause => .error (.intersection cause)
    | .ok crossings =>
      match crossings.filter (ahead a.unitVector center) with
      | [p] => .ok p
      | [] => .error (.noIntersection key.text)
      | many => .error (.ambiguousAnchor key.text many.length)

/-- The centroid, or the middle of the outline where there is no centroid. -/
def center (n : Node K) : Except (AnchorError K) (Point K) :=
  match n.geometry.centroid with
  | .ok p => .ok p
  | .error _ => n.pointAtFraction 0.5

def resolve (n : Node K) (key : AnchorKey K) : Except (AnchorError K) (Point K) :=
  match key with
  | .center => n.center
  | .north => n.rayPoint (Angle.ofDegrees 90) key
  | .south => n.rayPoint (Angle.ofDegrees (-90)) key
  | .west => n.rayPoint (Angle.ofDegrees 180) key
  | .east => n.rayPoint Angle.zero key
  | .start => n.pointAtFraction 0
  | .mid => n.pointAtFraction 0.5
  | .finish => n.pointAtFraction 1
  | .length distance => n.pointAtLength distance
  | .fraction t => n.pointAtFraction t
  | .angle a => n.rayPoint a key
  | .custom name =>
    match n.anchors[name]? with
    | some p => .ok p
    | none => .error (.anchorNotFound name n.name)

def anchor (n : Node K) (key : String) : Except (AnchorError K) (Point K) :=
  n.resolve (AnchorKey.parse key)

/-- The node with every drawable and explicit anchor moved by an offset. -/
def translate (n : Node K) (v : Offset K) : Node K :=
  { n with
    drawables := n.drawables.map (·.translate v)
    geometry := n.geometry.translate v
    box := n.box.translate v
    anchors := n.anchors.map fun _ p => p + v }

end Node

end Drafting
