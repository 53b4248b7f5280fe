import Drafting.Point

/-!
# Boxes

The least axis-parallel box around a set of points. A box without points has its
lower corner above its upper corner; both are sentinels that every point within
range replaces.
-/

namespace Drafting

variable {K : Type} [Scalar K]

/-- An axis-parallel box between two corners. -/
@[ext] structure Box (K : Type) where
  min : Point K
  max : Point K

namespace Box

def empty : Box K :=
  ⟨⟨Scalar.sentinel, Scalar.sentinel⟩, ⟨-Scalar.sentinel, -Scalar.sentinel⟩⟩

/-- Whether some coordinate of the lower corner exceeds that of the upper corner. -/
def isEmpty (b : Box K) : Bool :=
  decide (b.max.x < b.min.x) || decide (b.max.y < b.min.y)

def insert (b : Box K) (p : Point K) : Box K :=
  ⟨⟨Scalar.lesser b.min.x p.x, Scalar.lesser b.min.y p.y⟩,
    ⟨Scalar.greater b.max.x p.x, Scalar.greater b.max.y p.y⟩⟩

def ofPoints (ps : List (Point K)) : Box K := ps.foldl insert empty

/-- The least box around two boxes; an empty second one is ignored. -/
def union (b c : Box K) : Box K :=
  if c.isEmpty then b else (b.insert c.min).insert c.max

def width (b : Box K) : K := b.max.x - b.min.x

def height (b : Box K) : K := b.max.y - b.min.y

def diagonalSq (b : Box K) : K := b.width * b.width + b.height * b.height

def center (b : Box K) : Point K := b.min.midpoint b.max

/-- The corners traced counter-clockwise from the lower one and back to it. -/
def corners (b : Box K) : List (Point K) :=
  [b.min, ⟨b.max.x, b.min.y⟩, b.max, ⟨b.min.x, b.max.y⟩, b.min]

/-- The box moved by an offset; an empty box stays as it is. -/
def translate (b : Box K) (v : Offset K) : Box K :=
  if b.isEmpty then b else ⟨b.min + v, b.max + v⟩

@[simp] theorem ofPoints_nil : ofPoints ([] : List (Point K)) = empty := rfl

end Box

end Drafting
