import Drafting.Angle
import Drafting.Matrix

/-!
# Transforms

A transform maps local coordinates to absolute ones. Each operation multiplies
the matrix from the right, so it acts in the local coordinates that the operations
before it have set up. An operation whose result would hold a non-finite entry or
be singular is refused; the transform it was asked of is then still the one in
force.

Points are mapped by the upper two rows of the matrix, offsets by the first two
columns of those.
-/

namespace Drafting

variable {K : Type} [Scalar K]

/-- A map of the plane given by a matrix over homogeneous coordinates. -/
@[ext] structure Transform (K : Type) where
  matrix : Matrix K

namespace Transform

def identity : Transform K := ⟨Matrix.identity⟩

/-- The transform of a matrix with finite entries and a finite determinant other
than zero. -/
def ofMatrix (m : Matrix K) : Except TransformError (Transform K) :=
  if !m.isFinite then .error (.degenerate "non-finite matrix entry")
  else if m.det == 0 || !Scalar.isFinite m.det then .error (.degenerate "matrix is singular")
  else .ok ⟨m⟩

/-- The transform that acts by `m` in the local coordinates of `t`. -/
def compose (t : Transform K) (m : Matrix K) : Except TransformError (Transform K) :=
  ofMatrix (t.matrix * m)

/-- The absolute place of a local point. -/
def apply (t : Transform K) (p : Point K) : Point K :=
  let m := t.matrix
  ⟨m.first.x * p.x + m.second.x * p.y + m.third.x,
    m.first.y * p.x + m.second.y * p.y + m.third.y⟩

/-- The absolute displacement of a local one. -/
def applyOffset (t : Transform K) (v : Offset K) : Offset K :=
  let m := t.matrix
  ⟨m.first.x * v.dx + m.second.x * v.dy, m.first.y * v.dx + m.second.y * v.dy⟩

/-- The transform back from absolute to local coordinates. -/
def invert (t : Transform K) : Except TransformError (Transform K) :=
  ofMatrix t.matrix.inverse

def origin (t : Transform K) : Point K := t.apply Point.origin

/-- Turn counter-clockwise about the local origin. -/
def rotate (t : Transform K) (a : Angle K) : Except TransformError (Transform K) :=
  t.compose (Matrix.rotation a.radians)

/-- Turn counter-clockwise about a local point. -/
def rotateAbout (t : Transform K) (a : Angle K) (pivot : Point K) :
    Except TransformError (Transform K) :=
  t.compose (Matrix.shift pivot.x pivot.y * Matrix.rotation a.radians *
    Matrix.shift (-pivot.x) (-pivot.y))

/-- Move the local origin by a local displacement. -/
def translate (t : Transform K) (v : Offset K) : Except TransformError (Transform K) :=
  t.compose (Matrix.shift v.dx v.dy)

def scale (t : Transform K) (sx sy : K) : Except TransformError (Transform K) :=
  t.compose (Matrix.scaling sx sy)

/-- Move the local origin onto an absolute point. -/
def setOrigin (t : Transform K) (p : Point K) : Except TransformError (Transform K) := do
  let back ← t.invert
  t.translate (back.apply p - (Point.origin : Point K))

/-- Map the local box with lower corner at the origin and size `bounds` onto the
local box between two corners: move to the first corner and stretch each axis by
the ratio of the sizes. -/
def setViewport (t : Transform K) (lower upper : Point K) (bounds : Offset K) :
    Except TransformError (Transform K) :=
  if bounds.dx == 0 || bounds.dy == 0 then
    .error (.degenerate "viewport bounds have a zero component")
  else
    let span := upper - lower
    t.compose (Matrix.shift lower.x lower.y *
      Matrix.scaling (span.dx / bounds.dx) (span.dy / bounds.dy))

/-- Reflect in the local line `a x + b y + c = 0`. -/
def reflect (t : Transform K) (a b c : K) : Except TransformError (Transform K) :=
  let norm := Scalar.hypot a b
  if norm == 0 || !Scalar.isFinite norm then
    .error (.degenerate "reflection line has a zero normal")
  else t.compose (Matrix.reflection (a / norm) (b / norm) (c / norm))

end Transform

/-- The operations that change the transform in force. -/
inductive TransformOp (K : Type)
  | rotate (angle : Angle K)
  | rotateAbout (angle : Angle K) (pivot : Point K)
  | translate (offset : Offset K)
  | scale (sx sy : K)
  | setOrigin (point : Point K)
  | setViewport (lower upper : Point K) (bounds : Offset K)
  | reflect (a b c : K)

def TransformOp.run : TransformOp K → Transform K → Except TransformError (Transform K)
  | rotate a, t => t.rotate a
  | rotateAbout a pivot, t => t.rotateAbout a pivot
  | translate v, t => t.translate v
  | scale sx sy, t => t.scale sx sy
  | setOrigin p, t => t.setOrigin p
  | setViewport lower upper bounds, t => t.setViewport lower upper bounds
  | reflect a b c, t => t.reflect a b c

end Drafting
