import Drafting.Scalar

/-!
# Three-by-three matrices

Matrices over the homogeneous coordinates of the plane, kept as three columns.
The order in which products are added up is part of each definition, because it
decides how results are rounded.
-/

namespace Drafting

variable {K : Type} [Scalar K]

@[ext] structure Column (K : Type) where
  x : K
  y : K
  z : K

namespace Column

def scale (v : Column K) (k : K) : Column K := ⟨v.x * k, v.y * k, v.z * k⟩

def add (v w : Column K) : Column K := ⟨v.x + w.x, v.y + w.y, v.z + w.z⟩

def dot (v w : Column K) : K := v.x * w.x + v.y * w.y + v.z * w.z

def cross (v w : Column K) : Column K :=
  ⟨v.y * w.z - w.y * v.z, v.z * w.x - w.z * v.x, v.x * w.y - w.x * v.y⟩

def isFinite (v : Column K) : Bool :=
  Scalar.isFinite v.x && Scalar.isFinite v.y && Scalar.isFinite v.z

end Column

/-- A matrix by its columns. The third column holds the shift of the origin. -/
@[ext] structure Matrix (K : Type) where
  first : Column K
  second : Column K
  third : Column K

namespace Matrix

def identity : Matrix K := ⟨⟨1, 0, 0⟩, ⟨0, 1, 0⟩, ⟨0, 0, 1⟩⟩

def mulColumn (m : Matrix K) (v : Column K) : Column K :=
  ((m.first.scale v.x).add (m.second.scale v.y)).add (m.third.scale v.z)

def mul (m n : Matrix K) : Matrix K :=
  ⟨m.mulColumn n.first, m.mulColumn n.second, m.mulColumn n.third⟩

instance : Mul (Matrix K) := ⟨mul⟩

def det (m : Matrix K) : K := m.third.dot (m.first.cross m.second)

def isFinite (m : Matrix K) : Bool :=
  m.first.isFinite && m.second.isFinite && m.third.isFinite

def transpose (m : Matrix K) : Matrix K :=
  ⟨⟨m.first.x, m.second.x, m.third.x⟩, ⟨m.first.y, m.second.y, m.third.y⟩,
    ⟨m.first.z, m.second.z, m.third.z⟩⟩

/-- The inverse as the adjugate over the determinant. -/
def inverse (m : Matrix K) : Matrix K :=
  let r := 1 / m.det
  transpose ⟨(m.second.cross m.third).scale r, (m.third.cross m.first).scale r,
    (m.first.cross m.second).scale r⟩

def entries (m : Matrix K) : List K :=
  [m.first.x, m.first.y, m.first.z, m.second.x, m.second.y, m.second.z,
    m.third.x, m.third.y, m.third.z]

/-- The counter-clockwise rotation about the origin. -/
def rotation (radians : K) : Matrix K :=
  let c := Scalar.cos radians
  let s := Scalar.sin radians
  ⟨⟨c, s, 0⟩, ⟨-s, c, 0⟩, ⟨0, 0, 1⟩⟩

def shift (dx dy : K) : Matrix K := ⟨⟨1, 0, 0⟩, ⟨0, 1, 0⟩, ⟨dx, dy, 1⟩⟩

def scaling (sx sy : K) : Matrix K := ⟨⟨sx, 0, 0⟩, ⟨0, sy, 0⟩, ⟨0, 0, 1⟩⟩

/-- The reflection in the line `a x + b y + c = 0` with unit normal `(a, b)`. -/
def reflection (a b c : K) : Matrix K :=
  ⟨⟨1 - 2 * a * a, -2 * a * b, 0⟩, ⟨-2 * a * b, 1 - 2 * b * b, 0⟩,
    ⟨-2 * a * c, -2 * b * c, 1⟩⟩

end Matrix

end Drafting
