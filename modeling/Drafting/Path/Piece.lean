import Drafting.Path.Cubic
import Drafting.Point

/-!
# Pieces

A piece is a stretch of a curve: a cubic polynomial for each coordinate, over the
parameters from 0 to 1. Straight pieces have degree one.
-/

namespace Drafting

variable {K : Type} [Scalar K]

/-- A polynomial curve over the parameters from 0 to 1. -/
@[ext] structure Piece (K : Type) where
  x : Cubic K
  y : Cubic K

namespace Piece

def line (a b : Point K) : Piece K := ⟨⟨a.x, b.x - a.x, 0, 0⟩, ⟨a.y, b.y - a.y, 0, 0⟩⟩

/-- The coefficients of a Bezier polynomial from its control values. They are
formed from differences to the first value, so that the higher ones do not cancel
against the position of the curve. -/
def bezier (p0 p1 p2 p3 : K) : Cubic K :=
  let d1 := p1 - p0
  let d2 := p2 - p0
  let d3 := p3 - p0
  ⟨p0, 3 * d1, 3 * d2 - 6 * d1, d3 - 3 * d2 + 3 * d1⟩

def cubic (start ctrl1 ctrl2 finish : Point K) : Piece K :=
  ⟨bezier start.x ctrl1.x ctrl2.x finish.x, bezier start.y ctrl1.y ctrl2.y finish.y⟩

def eval (p : Piece K) (t : K) : Point K := ⟨p.x.eval t, p.y.eval t⟩

def derivative (p : Piece K) (t : K) : Offset K := ⟨p.x.derivative t, p.y.derivative t⟩

def speed (p : Piece K) (t : K) : K := (p.derivative t).norm

def start (p : Piece K) : Point K := ⟨p.x.c0, p.y.c0⟩

/-- The same piece in coordinates centred on a point. -/
def relativeTo (p : Piece K) (center : Point K) : Piece K :=
  ⟨⟨p.x.c0 - center.x, p.x.c1, p.x.c2, p.x.c3⟩, ⟨p.y.c0 - center.y, p.y.c1, p.y.c2, p.y.c3⟩⟩

/-- The coefficients of both coordinates, those of `x` first. -/
def coefficients (p : Piece K) : List K := p.x.coefficients ++ p.y.coefficients

end Piece

end Drafting
