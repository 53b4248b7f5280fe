import Drafting.Path.Piece
import Drafting.Path.Quadrature

/-!
# Area and first moments

By Green's theorem the area and the first moments of a region are integrals along
its outline. They are taken about a chosen centre. For coordinates `x`, `y` about
that centre the area is the integral of `y x' + 2 x y'`, in which the part that is
the derivative of `x y` adds up to zero around a closed outline; the moments are
half the integral of `x² y'` and minus half the integral of `y² x'`. Outlines that
run counter-clockwise have positive area.
-/

namespace Drafting

variable {K : Type} [Scalar K]

/-- The area of a region and its first moments about a centre. -/
@[ext] structure Moments (K : Type) where
  area : K
  mx : K
  my : K

namespace Moments

def zero : Moments K := ⟨0, 0, 0⟩

/-- The moments with the part added that one piece contributes. -/
def addPiece (center : Point K) (m : Moments K) (p : Piece K) : Moments K :=
  let q := p.relativeTo center
  let along (f : Point K → Offset K → K) : K :=
    Quadrature.gaussLegendre (fun t => f (q.eval t) (q.derivative t)) 0 1
  { area := m.area + along fun p d => p.y * d.dx + 2 * p.x * d.dy
    mx := m.mx + along (fun p d => p.x * p.x * d.dy) / 2
    my := m.my - along (fun p d => p.y * p.y * d.dx) / 2 }

/-- The moments about a centre of the region that a closed sequence of pieces bounds. -/
def ofPieces (ps : List (Piece K)) (center : Point K) : Moments K :=
  ps.foldl (addPiece center) zero

def centroid (m : Moments K) (center : Point K) : Point K :=
  center + (⟨m.mx / m.area, m.my / m.area⟩ : Offset K)

end Moments

end Drafting
