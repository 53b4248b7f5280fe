import Drafting.AnchorKey

/-!
# Positions

A position says where a point is to be: at the current point, at cartesian or
polar coordinates, at a displacement from another position, or at an anchor of a
node. Each position also says whether the current point follows it.

Positions are made from checked numbers. Besides the constructors for each form
there are three short ways to write one: a pair of coordinates, an angle literal
with a radius, and a dotted reference to an anchor.
-/

namespace Drafting

variable {K : Type} [Scalar K]

/-- A displacement in local coordinates. -/
inductive Displacement (K : Type)
  | cartesian (dx dy : K)
  | polar (angle : Angle K) (radius : K)

def Displacement.toOffset : Displacement K → Offset K
  | cartesian dx dy => ⟨dx, dy⟩
  | polar angle radius => Point.ofPolar angle radius - (Point.origin : Point K)

inductive PositionSpec (K : Type)
  | current
  | cartesian (x y : K)
  | polar (angle : Angle K) (radius : K)
  /-- A displacement from the current point. -/
  | relative (rel : Displacement K)
  /-- A displacement from another position, whose own wish to move the current
  point is kept but not followed. -/
  | relativeTo (rel : Displacement K) (base : PositionSpec K) (baseUpdate : Bool)
  /-- An anchor of a node, which is absolute already. -/
  | anchor (node : String) (key : AnchorKey K)

/-- A form of position, and whether the current point follows it. -/
structure Position (K : Type) where
  spec : PositionSpec K
  update : Bool

namespace Position

/-- The number itself when it is finite; `key` names it in the error. -/
def checkFinite (v : K) (key : String) : Except (PositionError K) K :=
  if Scalar.isFinite v then .ok v
  else .error (.malformed ("`" ++ key ++ "` must be a finite number"))

/-- The position of a form that the current point follows. -/
def ofSpec (spec : PositionSpec K) : Position K := ⟨spec, true⟩

def current : Position K := ofSpec .current

/-- A point of the plane in local coordinates. -/
def ofPoint (p : Point K) : Position K := ofSpec (.cartesian p.x p.y)

/-- Local coordinates that have to be numbers. -/
def xy (x y : K) : Except (PositionError K) (Position K) :=
  match Point.checked x y with
  | .ok p => .ok (ofPoint p)
  | .error cause => .error (.ofNumeric cause)

def polar (angle : Angle K) (radius : K) : Except (PositionError K) (Position K) := do
  let radians ← checkFinite angle.radians "angle"
  let radius ← checkFinite radius "radius"
  return ofSpec (.polar ⟨radians⟩ radius)

def rel (dx dy : K) : Except (PositionError K) (Position K) := do
  let dx ← checkFinite dx "rel"
  let dy ← checkFinite dy "rel"
  return ofSpec (.relative (.cartesian dx dy))

def anchor (node key : String) : Position K := ofSpec (.anchor node (AnchorKey.parse key))

/-- The same position, with the current point staying where it is. -/
def withoutUpdate (p : Position K) : Position K := { p with update := false }

/-- An angle literal, or the error that it is none. -/
def parseAngle (s : String) : Except (PositionError K) (Angle K) :=
  match Angle.parse? s with
  | some a => .ok a
  | none => .error (.malformed ("`" ++ s ++ "` is not an angle"))

def ofAnglePair (angle : String) (radius : K) : Except (PositionError K) (Position K) := do
  polar (← parseAngle angle) radius

def ofReference (s : String) : Except (PositionError K) (Position K) :=
  match Name.splitReference? s with
  | some (node, key) => .ok (anchor node key)
  | none => .error (.malformed ("`" ++ s ++ "` is not of the form `<node>.<anchor>`"))

end Position

end Drafting
