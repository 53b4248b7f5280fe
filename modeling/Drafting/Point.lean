import Drafting.Error

/-!
# Points and offsets

A point is a place in the plane, an offset the difference of two places. Points
and offsets are different types: points cannot be added, and only offsets are
scaled. Coordinates from outside are checked once, by `Point.checked`; what is
computed from checked points is not checked again.
-/

namespace Drafting

variable {K : Type} [Scalar K]

/-- A place in the plane. -/
@[ext] structure Point (K : Type) where
  x : K
  y : K

/-- A displacement between two places. -/
@[ext] structure Offset (K : Type) where
  dx : K
  dy : K

namespace Offset

def zero : Offset K := ⟨0, 0⟩

instance : Add (Offset K) := ⟨fun v w => ⟨v.dx + w.dx, v.dy + w.dy⟩⟩
instance : Neg (Offset K) := ⟨fun v => ⟨-v.dx, -v.dy⟩⟩
instance : HMul (Offset K) K (Offset K) := ⟨fun v k => ⟨v.dx * k, v.dy * k⟩⟩
instance : BEq (Offset K) := ⟨fun v w => v.dx == w.dx && v.dy == w.dy⟩

/-- The length, computed so that it does not overflow before its result does. -/
def length (v : Offset K) : K := Scalar.hypot v.dx v.dy

/-- The length as the plain square root of the sum of squares. -/
def norm (v : Offset K) : K := Scalar.sqrt (v.dx * v.dx + v.dy * v.dy)

def isFinite (v : Offset K) : Bool := Scalar.isFinite v.dx && Scalar.isFinite v.dy

@[simp] theorem add_dx (v w : Offset K) : (v + w).dx = v.dx + w.dx := rfl
@[simp] theorem add_dy (v w : Offset K) : (v + w).dy = v.dy + w.dy := rfl
@[simp] theorem neg_dx (v : Offset K) : (-v).dx = -v.dx := rfl
@[simp] theorem neg_dy (v : Offset K) : (-v).dy = -v.dy := rfl
@[simp] theorem mul_dx (v : Offset K) (k : K) : (v * k).dx = v.dx * k := rfl
@[simp] theorem mul_dy (v : Offset K) (k : K) : (v * k).dy = v.dy * k := rfl

end Offset

namespace Point

def origin : Point K := ⟨0, 0⟩

instance : HAdd (Point K) (Offset K) (Point K) := ⟨fun p v => ⟨p.x + v.dx, p.y + v.dy⟩⟩
instance : HSub (Point K) (Offset K) (Point K) := ⟨fun p v => ⟨p.x - v.dx, p.y - v.dy⟩⟩
instance : HSub (Point K) (Point K) (Offset K) := ⟨fun p q => ⟨p.x - q.x, p.y - q.y⟩⟩
instance : BEq (Point K) := ⟨fun p q => p.x == q.x && p.y == q.y⟩

@[simp] theorem add_x (p : Point K) (v : Offset K) : (p + v).x = p.x + v.dx := rfl
@[simp] theorem add_y (p : Point K) (v : Offset K) : (p + v).y = p.y + v.dy := rfl
@[simp] theorem sub_offset_x (p : Point K) (v : Offset K) : (p - v).x = p.x - v.dx := rfl
@[simp] theorem sub_offset_y (p : Point K) (v : Offset K) : (p - v).y = p.y - v.dy := rfl
@[simp] theorem sub_dx (p q : Point K) : (p - q).dx = p.x - q.x := rfl
@[simp] theorem sub_dy (p q : Point K) : (p - q).dy = p.y - q.y := rfl

/-- A point with both coordinates numbers; the first coordinate is looked at first. -/
def checked (x y : K) : Except NumericError (Point K) := do
  return ⟨← Scalar.finite x, ← Scalar.finite y⟩

def isFinite (p : Point K) : Bool := Scalar.isFinite p.x && Scalar.isFinite p.y

def midpoint (p q : Point K) : Point K := ⟨(p.x + q.x) / 2, (p.y + q.y) / 2⟩

def distance (p q : Point K) : K := (q - p).length

/-- Closeness in each coordinate; the second point is the reference. -/
def approxEq (p q : Point K) : Bool := Scalar.approxEq p.x q.x && Scalar.approxEq p.y q.y

def text (p : Point K) : String := "(" ++ Scalar.text p.x ++ ", " ++ Scalar.text p.y ++ ")"

end Point

end Drafting
