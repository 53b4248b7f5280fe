import Drafting.Point

/-!
# Angles

Angles are kept in radians and turn counter-clockwise from the positive x axis.
Polar coordinates connect them to points.
-/

namespace Drafting

variable {K : Type} [Scalar K]

/-- An angle in radians. -/
@[ext] structure Angle (K : Type) where
  radians : K

namespace Angle

def zero : Angle K := ⟨0⟩

def ofDegrees (degrees : K) : Angle K := ⟨degrees * (Scalar.pi / 180)⟩

def degrees (a : Angle K) : K := a.radians * (180 / Scalar.pi)

/-- An angle whose radians are a number. -/
def checked (radians : K) : Except NumericError (Angle K) :=
  Angle.mk <$> Scalar.finite radians

def unitVector (a : Angle K) : Offset K := ⟨Scalar.cos a.radians, Scalar.sin a.radians⟩

def less (a b : Angle K) : Bool := decide (a.radians < b.radians)

def text (a : Angle K) : String := Scalar.text a.radians ++ "rad"

end Angle

namespace Point

def ofPolar (a : Angle K) (radius : K) : Point K :=
  ⟨radius * Scalar.cos a.radians, radius * Scalar.sin a.radians⟩

def direction (p : Point K) : Angle K := ⟨Scalar.atan2 p.y p.x⟩

def radius (p : Point K) : K := Scalar.hypot p.x p.y

end Point

end Drafting
