import Drafting.Path.Segment

/-!
# Shapes

Segments of ellipses and rectangles. An ellipse consists of eight cubic pieces,
counter-clockwise from its east point. Neighbouring pieces are given the same end
points, and the last one ends at the point where the first one starts, so the
outline closes exactly.
-/

namespace Drafting
namespace Shape

variable {K : Type} [Scalar K]

/-- The point of an ellipse at an angle of its parametrisation. -/
def ellipsePoint (center : Point K) (rx ry : K) (a : Angle K) : Point K :=
  center + (⟨rx * Scalar.cos a.radians, ry * Scalar.sin a.radians⟩ : Offset K)

/-- The distance of the control points from the ends of an eighth of the unit
circle: `4/3 tan (π/16)`. -/
def kappa : K := 0.265216489839544

/-- The angle of the `k`-th of eight points around a circle, given `k` as a scalar. -/
def eighth (k : K) : Angle K := ⟨Scalar.tau / 8 * k⟩

def handle (rx ry : K) (a : Angle K) : Offset K :=
  (⟨-rx * Scalar.sin a.radians, ry * Scalar.cos a.radians⟩ : Offset K) * (kappa : K)

/-- The piece of an ellipse from one angle to another, an eighth of a turn away. -/
def arc (center : Point K) (rx ry : K) (a b : Angle K) : Segment K :=
  let p := ellipsePoint center rx ry a
  let q := ellipsePoint center rx ry b
  .cubic p (p + handle rx ry a) (q - handle rx ry b) q

/-- The angles of the joints of an ellipse; the last piece leads back to the first. -/
def joints : List (Angle K × Angle K) :=
  neighbours ([eighth 0, eighth 1, eighth 2, eighth 3, eighth 4, eighth 5, eighth 6, eighth 7,
    eighth 0])

def ellipse (center : Point K) (rx ry : K) : List (Segment K) :=
  joints.map fun (a, b) => arc center rx ry a b

def unitCircle : List (Segment K) := ellipse Point.origin 1 1

/-- The closed rectangle with two opposite corners, from the first one along the
x axis. It runs counter-clockwise when the first corner is the lower left one. -/
def rectangle (a b : Point K) : List (Segment K) :=
  [.polyline [a, ⟨b.x, a.y⟩, b, ⟨a.x, b.y⟩, a] (by simp)]

end Shape
end Drafting
