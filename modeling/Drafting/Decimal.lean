/-!
# Decimal numerals

A decimal numeral is a sign, a natural number of digits and a power of ten. It
is the form in which coordinates enter and leave texts: a scalar is read as the
value nearest to a numeral, and written as the numeral that stands for it.

`Decimal.plain` writes a numeral without an exponent, the layout used inside
every message and key. `Decimal.shortest` finds the shortest numeral inside an
interval around a rational value, which is how a rounded scalar is given the
fewest digits that still identify it.
-/

namespace Drafting

/-- The numeral `± digits * 10 ^ exponent`. The sign is kept apart from the
digits, so that a negative zero stays distinct from zero. -/
structure Decimal where
  negative : Bool
  digits : Nat
  exponent : Int
deriving DecidableEq, Repr

namespace Decimal

/-- The value of a run of decimal digits, most significant first. -/
def ofDigits (ds : List Char) : Nat :=
  ds.foldl (fun n c => n * 10 + (c.toNat - '0'.toNat)) 0

/-- The decimal digits of a natural number, most significant first; zero has one. -/
def digitsOf (n : Nat) : List Char := Nat.toDigits 10 n

def digitCount (n : Nat) : Nat := (digitsOf n).length

/-- Positional layout with an optional sign, no exponent and no empty fraction. -/
def plain (d : Decimal) : String :=
  let ds := digitsOf d.digits
  let body :=
    if 0 ≤ d.exponent then
      if d.digits = 0 then ds else ds ++ List.replicate d.exponent.toNat '0'
    else
      let places := d.exponent.natAbs
      let padded := List.replicate (places + 1 - ds.length) '0' ++ ds
      let cut := padded.length - places
      padded.take cut ++ '.' :: padded.drop cut
  String.ofList (if d.negative then '-' :: body else body)

/-- A power with an exponent of either sign, where a negative one gives 1. The
fraction `b ^ e` has `power b e` above and `power b (-e)` below. -/
def power (b : Nat) (e : Int) : Nat := Nat.pow b e.toNat

/-- A positive rational value `value / scale` and the interval of rationals
`low / scale` to `high / scale` that stands for it. The ends belong to the
interval when `closed` holds. -/
structure Interval where
  low : Nat
  value : Nat
  high : Nat
  scale : Nat
  closed : Bool

namespace Interval

def covers (i : Interval) (n : Nat) (p : Int) : Bool :=
  let point := n * power 10 p * i.scale
  let low := i.low * power 10 (-p)
  let high := i.high * power 10 (-p)
  if i.closed then decide (low ≤ point) && decide (point ≤ high)
  else decide (low < point) && decide (point < high)

/-- The exponent of the leading digit of the value: the `e` with
`10 ^ e ≤ value / scale < 10 ^ (e + 1)`. -/
def leading (i : Interval) : Int :=
  if i.scale ≤ i.value then (digitCount (i.value / i.scale) : Int) - 1
  else
    let j : Int := (digitCount (i.scale / i.value) : Int) - 1
    if i.value * power 10 j = i.scale then -j else -(j + 1)

/-- The greatest `n` with `n * 10 ^ p` not above the value, and whether the value
is at least half a step above that. -/
def floorOn (i : Interval) (p : Int) : Nat × Bool :=
  let num := i.value * power 10 (-p)
  let den := i.scale * power 10 p
  (num / den, decide (den ≤ 2 * (num % den)))

/-- The multiple of `10 ^ p` inside the interval that is nearest to the value,
if there is one. Of two equally near ones the greater is taken. -/
def nearestOn (i : Interval) (p : Int) : Option Nat :=
  let (below, upper) := i.floorOn p
  match i.covers below p, i.covers (below + 1) p with
  | true, true => some (if upper then below + 1 else below)
  | true, false => some below
  | false, true => some (below + 1)
  | false, false => none

/-- Search the grids from coarse to fine, starting at step `10 ^ p`, for the
first with a point inside the interval. When the steps run out, the last grid
looked at rounds the value down. -/
def shortestFrom (i : Interval) : Nat → Int → Nat × Int
  | 0, p => ((i.floorOn p).1, p)
  | steps + 1, p =>
    match i.nearestOn p with
    | some n => (n, p)
    | none => i.shortestFrom steps (p - 1)

end Interval

/-- The number of significant digits that identifies every value of a 53-bit format. -/
def maxDigits : Nat := 17

/-- The numeral of fewest digits in the interval, nearest to its value among those.

The coarsest grid searched has the step above the leading digit: a value just
below a power of ten may be identified by that power, which has one digit
there and a trailing zero on every finer grid. -/
def shortest (negative : Bool) (i : Interval) : Decimal :=
  let (n, p) := i.shortestFrom (maxDigits + 1) (i.leading + 1)
  ⟨negative, n, p⟩

end Decimal

end Drafting
