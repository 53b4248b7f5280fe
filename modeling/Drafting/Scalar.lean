import Drafting.Decimal

/-!
# Scalars

Every length, coordinate and parameter of a drawing is a scalar. The geometry is
written once over the class below and never looks inside a scalar, so one
definition is run in binary floating point and reasoned about over the real
numbers.

The class names what a drawing needs: the four operations of arithmetic, order and
equality tests, the elementary functions, the irrational constants, each as near as
the number system has it, and the passage between scalars and decimal numerals. It
states no laws. Laws belong to the instance at hand, since rounded arithmetic
satisfies few of them.
-/

namespace Drafting

/-- The number systems a drawing can be computed in. -/
class Scalar (K : Type) extends
    Add K, Sub K, Mul K, Div K, Neg K, LT K, LE K, BEq K, OfScientific K where
  ofNat : (n : Nat) → OfNat K n
  decLt : DecidableLT K
  decLe : DecidableLE K
  /-- Whether the scalar is the result of an undefined operation. -/
  isNaN : K → Bool
  /-- Whether the scalar is a number, neither undefined nor infinite. -/
  isFinite : K → Bool
  pi : K
  /-- The positive nodes of the eight-point Gauss-Legendre rule on the interval from
  -1 to 1, with their weights. -/
  legendre : List (K × K)
  sqrt : K → K
  cbrt : K → K
  sin : K → K
  cos : K → K
  acos : K → K
  /-- The angle of the vector with the given second and first coordinate. -/
  atan2 : K → K → K
  /-- The length of the vector with the given coordinates, free of overflow. -/
  hypot : K → K → K
  /-- The nearest integer, halves going away from zero. -/
  round : K → K
  /-- The scalar nearest to a numeral. -/
  ofDecimal : Decimal → K
  /-- The numeral that stands for a finite scalar in texts. -/
  toDecimal : K → Decimal

attribute [reducible, instance] Scalar.ofNat Scalar.decLt Scalar.decLe

namespace Scalar

/-- The nodes and weights of the eight-point Gauss-Legendre rule to sixteen places. -/
def legendreDigits {K : Type} [OfScientific K] : List (K × K) :=
  [(0.1834346424956498, 0.3626837833783620),
    (0.5255324099163290, 0.3137066458778873),
    (0.7966664774136267, 0.2223810344533745),
    (0.9602898564975363, 0.1012285362903763)]

variable {K : Type} [Scalar K]

def tau : K := 2 * pi

/-- The greatest finite scalar of the 64-bit binary format, `(2 ^ 53 - 1) * 2 ^ 971`. It
is the sentinel that marks a box without points. -/
def sentinel : K :=
  let pow171 : K := 2993155353253689176481146537402947624255349848014848
  let pow200 : K := 1606938044258990275541962092341162602522202993782792835301376
  9007199254740991 * pow171 * pow200 * pow200 * pow200 * pow200

def abs (a : K) : K := if a < 0 then -a else a

/-- The smaller of two scalars; an undefined one gives way to the other. -/
def lesser (a b : K) : K := if isNaN a || decide (b < a) then b else a

/-- The greater of two scalars; an undefined one gives way to the other. -/
def greater (a b : K) : K := if isNaN a || decide (a < b) then b else a

/-- The scalar moved onto the nearest end of the range when it lies outside.
An undefined scalar stays undefined. -/
def clamp (a low high : K) : K := if a < low then low else if high < a then high else a

/-- Whether a scalar lies between two others, ends included. -/
def within (a low high : K) : Bool := decide (low ≤ a) && decide (a ≤ high)

/-- The sum of a list, added from the left. -/
def sum (xs : List K) : K := xs.foldl (· + ·) 0

/-- The greatest absolute value in a list, zero for none. -/
def magnitude (xs : List K) : K := xs.foldl (fun m a => greater m (abs a)) 0

/-- The part of the tolerance of `approxEq` that does not depend on the operands. -/
def absoluteTolerance : K := 1e-8

/-- The part of the tolerance of `approxEq` that grows with the second operand. -/
def relativeTolerance : K := 1e-5

/-- Closeness within `1e-8 + 1e-5 * |b|`, so the second operand is the reference. -/
def approxEq (a b : K) : Bool :=
  decide (abs (a - b) ≤ absoluteTolerance + relativeTolerance * abs b)

/-- A scalar as it appears inside texts: the digits of its numeral without an
exponent, and a word for what is not a number. -/
def text (a : K) : String :=
  if isFinite a then (toDecimal a).plain
  else if isNaN a then "NaN"
  else if 0 < a then "inf"
  else "-inf"

end Scalar

end Drafting
