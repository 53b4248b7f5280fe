import Drafting.Decimal

/-!
# Numerals in texts

Numbers inside keys, angle literals and point literals share one scanner. It
reads the longest numeral at the front of a list of characters and returns what
follows it. The two places where numbers occur differ in two freedoms only, which
a `Format` records: keys allow neither a leading `+` nor a point without digits
after it.

In the key format the scanned texts are exactly
`-?(D+(.D+)?|.D+)([eE][+-]?D+)?` over the ASCII digits `D`. An optional part
that is not complete is not read at all: `1.x` is the numeral `1` before `.x`.
-/

namespace Drafting
namespace Text

/-- What a place allows in its numerals beyond the common grammar. -/
structure NumeralFormat where
  /-- A leading `+` is allowed. -/
  plusSign : Bool
  /-- A decimal point may end the digits, as in `1.`. -/
  barePoint : Bool

/-- Numbers inside anchor keys and angle literals. -/
def keyNumeral : NumeralFormat := ⟨false, false⟩

/-- Coordinates inside point literals. -/
def coordinateNumeral : NumeralFormat := ⟨true, true⟩

/-- The leading run of ASCII digits and what follows it. -/
def splitDigits (cs : List Char) : List Char × List Char :=
  (cs.takeWhile Char.isDigit, cs.dropWhile Char.isDigit)

/-- A sign at the front, if the format allows it there. -/
def splitSign (f : NumeralFormat) : List Char → Bool × List Char
  | '-' :: cs => (true, cs)
  | '+' :: cs => if f.plusSign then (false, cs) else (false, '+' :: cs)
  | cs => (false, cs)

/-- The fraction digits after a decimal point at the front. Without such digits
the point is read only when the format lets it stand bare. -/
def splitFraction (f : NumeralFormat) : List Char → List Char × List Char
  | '.' :: cs =>
    let (ds, rest) := splitDigits cs
    if ds.isEmpty && !f.barePoint then ([], '.' :: cs) else (ds, rest)
  | cs => ([], cs)

/-- The exponent at the front, zero when there is none. Its letter and sign are
read only together with at least one digit. -/
def splitExponent (cs : List Char) : Int × List Char :=
  match cs with
  | letter :: signed =>
    if letter = 'e' ∨ letter = 'E' then
      let (negative, body) := splitSign coordinateNumeral signed
      let (ds, rest) := splitDigits body
      if ds.isEmpty then (0, cs)
      else (if negative then -(Decimal.ofDigits ds : Int) else Decimal.ofDigits ds, rest)
    else (0, cs)
  | [] => (0, [])

/-- The longest numeral at the front of a text, and what follows it. -/
def scanNumeral? (f : NumeralFormat) (cs : List Char) : Option (Decimal × List Char) :=
  let (negative, body) := splitSign f cs
  let (whole, afterWhole) := splitDigits body
  let (fraction, afterFraction) := splitFraction f afterWhole
  if whole.isEmpty && fraction.isEmpty then none
  else
    let (exponent, rest) := splitExponent afterFraction
    some (⟨negative, Decimal.ofDigits (whole ++ fraction), exponent - fraction.length⟩, rest)

def numeral? (f : NumeralFormat) (cs : List Char) : Option Decimal :=
  match scanNumeral? f cs with
  | some (d, []) => some d
  | _ => none

/-- A run of digits and what follows it make up the whole text. -/
theorem splitDigits_append (cs : List Char) :
    (splitDigits cs).1 ++ (splitDigits cs).2 = cs := by
  simp [splitDigits]

end Text
end Drafting
