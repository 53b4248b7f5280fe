import Drafting.Scalar

/-!
# Drawing in 64-bit binary floating point

The instance of `Scalar` that drawings are computed with. Arithmetic is that of
`Float`. What `Float` lacks is defined here from its bits or from its basic
operations:

* a finite value is `± mantissa * 2 ^ exponent`, and the numeral that stands for
  it is the shortest one inside the interval of rationals that round to it;
* a numeral is read as the nearest value, where numerals far outside the range
  are answered without computing their power of ten;
* the length of a vector is a corrected square root of the sum of squares,
  scaled so that no intermediate result leaves the range;
* rounding to an integer divides the mantissa by the power of two below it.
-/

namespace Drafting
namespace Binary64

/-- The leading bit of the mantissa of a normal value, `2 ^ 52`. The 52 bits below
it are the ones that are stored. -/
def leadingBit : Nat := 4503599627370496

/-- How many values the stored exponent can take, `2 ^ 11`. -/
def exponentValues : Nat := 2048

/-- The exponent of subnormal values and of the smallest normal ones. -/
def leastExponent : Int := -1074

/-- The sign, mantissa and exponent of a finite value: it is `mantissa * 2 ^ exponent`
up to sign. Subnormal values have the least exponent and a mantissa below the
leading bit. -/
def parts (x : Float) : Bool × Nat × Int :=
  let bits := x.toBits.toNat
  let fraction := bits % leadingBit
  let field := bits / leadingBit % exponentValues
  let negative := decide (leadingBit * exponentValues ≤ bits)
  if field = 0 then (negative, fraction, leastExponent)
  else (negative, leadingBit + fraction, (field : Int) - 1 + leastExponent)

/-- The rationals that round to `mantissa * 2 ^ exponent`, in quarters of the last
place. They reach half a place to either side, and a quarter downwards from a
power of two, below which the values lie twice as dense. The ends round to the
value when its mantissa is even. -/
def roundingInterval (mantissa : Nat) (exponent : Int) : Decimal.Interval :=
  let down := if mantissa = leadingBit ∧ leastExponent < exponent then 1 else 2
  let unit := Decimal.power 2 (exponent - 2)
  { low := (4 * mantissa - down) * unit
    value := 4 * mantissa * unit
    high := (4 * mantissa + 2) * unit
    scale := Decimal.power 2 (2 - exponent)
    closed := decide (mantissa % 2 = 0) }

/-- The numeral of fewest digits that is read back as the given finite value. -/
def toDecimal (x : Float) : Decimal :=
  let (negative, mantissa, exponent) := parts x
  if mantissa = 0 then ⟨negative, 0, 0⟩
  else Decimal.shortest negative (roundingInterval mantissa exponent)

/-- Every positive numeral of at least this many whole places is infinite. -/
def overflowPlaces : Int := 310

/-- Every numeral below one by at least this many places is zero. -/
def underflowPlaces : Int := -330

/-- The value nearest to a numeral without its sign. -/
def magnitudeOfDecimal (d : Decimal) : Float :=
  let places := (Decimal.digitCount d.digits : Int) + d.exponent
  if d.digits = 0 then 0
  else if overflowPlaces < places then 1.0 / 0.0
  else if places < underflowPlaces then 0
  else if 0 ≤ d.exponent then Float.ofScientific d.digits false d.exponent.toNat
  else Float.ofScientific d.digits true d.exponent.natAbs

def ofDecimal (d : Decimal) : Float :=
  if d.negative then -magnitudeOfDecimal d else magnitudeOfDecimal d

/-- The length of a vector with `0 ≤ y ≤ x` whose squares stay in range: the
rounded square root, less the correction that its squared error calls for. -/
def hypotKernel (x y : Float) : Float :=
  let h := (x * x + y * y).sqrt
  if h ≤ 2 * y then
    let delta := h - y
    let t1 := x * (2 * delta - x)
    let t2 := (delta - 2 * (x - y)) * delta
    h - (t1 + t2) / (2 * h)
  else
    let delta := h - x
    let t1 := 2 * delta * (x - 2 * y)
    let t2 := (4 * delta - y) * y + delta * delta
    h - (t1 + t2) / (2 * h)

def powerOfTwo (n : Int) : Float :=
  Float.ofBits (UInt64.ofNat ((n + 1023).toNat * leadingBit))

/-- The length of a vector. An infinite coordinate decides before an undefined one,
a coordinate negligible beside the other is ignored up to rounding, and very
large or small coordinates are scaled by a power of two first. -/
def hypot (a b : Float) : Float :=
  let a := a.abs
  let b := b.abs
  if a.isInf || b.isInf then 1.0 / 0.0
  else if a.isNaN || b.isNaN then 0.0 / 0.0
  else
    let x := if a < b then b else a
    let y := if a < b then a else b
    let up := powerOfTwo 600
    let down := powerOfTwo (-600)
    if y ≤ x * powerOfTwo (-54) then x + y
    else if powerOfTwo 511 < x then hypotKernel (x * down) (y * down) * up
    else if y < powerOfTwo (-459) then hypotKernel (x * up) (y * up) * down
    else hypotKernel x y

/-- The nearest integer, halves going away from zero. Values without places after
the point stay as they are, and so do those that are not numbers. -/
def round (x : Float) : Float :=
  let (negative, mantissa, exponent) := parts x
  if 0 ≤ exponent then x
  else
    let unit := Decimal.power 2 (-exponent)
    let whole := mantissa / unit
    let nearest := Float.ofNat (if unit ≤ 2 * (mantissa % unit) then whole + 1 else whole)
    if negative then -nearest else nearest

end Binary64

instance : Scalar Float where
  ofNat _ := inferInstance
  decLt := inferInstance
  decLe := inferInstance
  isNaN := Float.isNaN
  isFinite := Float.isFinite
  pi := 3.141592653589793
  legendre := Scalar.legendreDigits
  sqrt := Float.sqrt
  cbrt := Float.cbrt
  sin := Float.sin
  cos := Float.cos
  acos := Float.acos
  atan2 := Float.atan2
  hypot := Binary64.hypot
  round := Binary64.round
  ofDecimal := Binary64.ofDecimal
  toDecimal := Binary64.toDecimal

end Drafting
