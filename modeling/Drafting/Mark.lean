import Drafting.Shape
import Drafting.Text.Blank

/-!
# Marks

A mark is a small symbol stamped at a list of positions: arrow heads, dots,
crosses. The symbol points along the x axis with its tip or centre at the origin.
It is stretched, reflected in the y axis when reversed, turned, and then moved onto
each position. A mark stretched by zero is refused, whatever the positions.
-/

namespace Drafting

variable {K : Type} [Scalar K]

inductive MarkSymbol
  | arrow
  | triangle
  | diamond
  | rect
  | bracket
  | bar
  | circle
  | plus
  | cross
  | star
deriving DecidableEq, Repr

namespace MarkSymbol

def name : MarkSymbol → String
  | arrow => "arrow"
  | triangle => "triangle"
  | diamond => "diamond"
  | rect => "rect"
  | bracket => "bracket"
  | bar => "bar"
  | circle => "circle"
  | plus => "plus"
  | cross => "x"
  | star => "star"

def spellings : List (String × MarkSymbol) :=
  [("arrow", arrow), (">", arrow), ("triangle", triangle), ("|>", triangle),
    ("diamond", diamond), ("<>", diamond), ("rect", rect), ("[]", rect),
    ("bracket", bracket), ("]", bracket), ("bar", bar), ("|", bar), ("circle", circle),
    ("o", circle), ("plus", plus), ("+", plus), ("x", cross), ("star", star), ("*", star)]

/-- Read a symbol. Blanks at both ends are ignored. -/
def parse (s : String) : Except LiteralError MarkSymbol :=
  let trimmed := String.ofList (Text.trim s.toList)
  match spellings.lookup trimmed with
  | some symbol => .ok symbol
  | none => .error (.mark trimmed)

/-- The size of a symbol before it is stretched. -/
def size : K := 0.1

/-- Half the width of a unit square's diagonal. -/
def diagonal : K := Scalar.sqrt (1 / 2)

/-- The angle from the tip of an arrow to its upper wing. -/
def wingAngle : K := 5 * Scalar.pi / 6

/-- The polylines of a symbol at unit size. The circle has none. -/
def strokes : MarkSymbol → List (List (K × K))
  | arrow =>
    let (x, y) := (Scalar.cos wingAngle, Scalar.sin (wingAngle : K))
    [[(x, y), (0, 0), (x, -y)]]
  | triangle =>
    let (x, y) := (Scalar.cos wingAngle, Scalar.sin (wingAngle : K))
    [[(x, y), (0, 0), (x, -y), (x, y)]]
  | diamond =>
    let d : K := diagonal
    [[(0, d), (d, 0), (0, -d), (-d, 0), (0, d)]]
  | rect => [[(-0.5, 1), (0.5, 1), (0.5, -1), (-0.5, -1), (-0.5, 1)]]
  | bracket => [[(-1, 1), (0, 1), (0, -1), (-1, -1)]]
  | bar => [[(0, 1), (0, -1)]]
  | circle => []
  | plus => [[(0, 1), (0, -1)], [(-1, 0), (1, 0)]]
  | cross =>
    let d : K := diagonal
    [[(d, d), (-d, -d)], [(-d, d), (d, -d)]]
  | star =>
    let d : K := diagonal
    [[(0, 1), (0, -1)], [(d, d), (-d, -d)], [(-d, d), (d, -d)]]

/-- The polyline through vertices given at unit size, if there are enough. -/
def stroke? (vertices : List (K × K)) : Option (Segment K) :=
  (Segment.line (vertices.map fun (x, y) => (⟨x * size, y * size⟩ : Point K))).toOption

/-- The segments of a symbol about the origin, pointing along the x axis. -/
def unitSegments (s : MarkSymbol) : List (Segment K) :=
  match s with
  | circle => Shape.ellipse Point.origin size size
  | _ => s.strokes.filterMap stroke?

end MarkSymbol

/-- A symbol with its direction, its stretch along both axes, and whether it is
reflected in the y axis before it is turned. -/
structure Mark (K : Type) where
  symbol : MarkSymbol
  angle : Angle K
  scaleX : K
  scaleY : K
  reversed : Bool

namespace Mark

def ofSymbol (symbol : MarkSymbol) : Mark K := ⟨symbol, Angle.zero, 1, 1, false⟩

/-- The map from the unit symbol to the symbol of the mark. Each step acts inside the
ones before it, so the stretch comes first and the turn last. -/
def placement (m : Mark K) : Except TransformError (Transform K) := do
  let turned ← Transform.identity.rotate m.angle
  let reflected ← if m.reversed then turned.reflect 1 0 0 else pure turned
  reflected.scale m.scaleX m.scaleY

/-- The segments of the mark at each of a list of positions. -/
def stamp (m : Mark K) (positions : List (Point K)) : Except TransformError (List (Segment K)) := do
  let t ← m.placement
  let symbol := m.symbol.unitSegments.map (·.transform t)
  return positions.flatMap fun p => symbol.map (·.translate (p - (Point.origin : Point K)))

end Mark

end Drafting
