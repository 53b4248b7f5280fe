import Drafting.Angle
import Drafting.Path.Piece

/-!
# Lines and their crossings with pieces

Substituting a piece into the equation of a line gives a cubic polynomial in the
curve parameter, and its roots between 0 and 1 are the crossings. The constant
coefficient is taken from the piece relative to a point of the line, so that
shapes far from the origin keep their precision. Roots that miss the range by no
more than a small tolerance count as its ends.
-/

namespace Drafting

variable {K : Type} [Scalar K]

@[ext] structure Line (K : Type) where
  point : Point K
  direction : Offset K

namespace Line

/-- The line through a point along a direction, which must be finite and not zero. -/
def along (point : Point K) (direction : Offset K) : Except IntersectionError (Line K) :=
  if !direction.isFinite || direction == Offset.zero then .error .degenerateLine
  else .ok ⟨point, direction⟩

def through (a b : Point K) : Except IntersectionError (Line K) := along a (b - a)

/-- The line through a point at an angle from the x axis. -/
def atAngle (point : Point K) (angle : Angle K) : Line K := ⟨point, angle.unitVector⟩

/-- The polynomial in the curve parameter that is zero where the piece, given
relative to a point of the line, meets the line. -/
def implicit (direction : Offset K) (q : Piece K) : Cubic K :=
  let side (x y : K) : K := direction.dy * x - direction.dx * y
  ⟨side q.x.c0 q.y.c0, side q.x.c1 q.y.c1, side q.x.c2 q.y.c2, side q.x.c3 q.y.c3⟩

/-- How far outside 0 to 1 a root still counts as an end of the piece. -/
def parameterTolerance : K := 1e-6

/-- The parameters at which a piece meets the line, ascending. The line coincides
with the piece when its polynomial is negligible beside the coefficients it is
made from. -/
def parameters (l : Line K) (p : Piece K) : Except IntersectionError (List K) :=
  let q := p.relativeTo l.point
  let crossing := implicit l.direction q
  let scale := l.direction.norm * Scalar.magnitude q.coefficients
  if crossing.magnitude ≤ Cubic.coefficientEpsilon * scale then .error .coincidentLines
  else
    let inRange (t : K) : Bool := Scalar.within t (-parameterTolerance) (1 + parameterTolerance)
    (fun ts => (ts.filter inRange).map (Scalar.clamp · 0 1)) <$> crossing.roots

def crossings (l : Line K) (p : Piece K) : Except IntersectionError (List (Point K)) :=
  (fun ts => ts.map p.eval) <$> l.parameters p

end Line

end Drafting
