import Drafting.Angle
import Drafting.Text.Blank
import Drafting.Text.Numeral

/-!
# Angle and point literals

An angle literal is a number followed by `deg` or `rad`, or a number alone, which
means radians. A point literal is two numbers around a comma, with parentheses
allowed around them. Blanks around a literal are ignored, and around the two
numbers of a point. Numbers out of range are refused.
-/

namespace Drafting

variable {K : Type} [Scalar K]

namespace Text

/-- A number at the front of a key or angle literal as a finite scalar, and what
follows it. -/
def scanScalar? (cs : List Char) : Option (K × List Char) :=
  match scanNumeral? keyNumeral cs with
  | some (d, rest) =>
    let v : K := Scalar.ofDecimal d
    if Scalar.isFinite v then some (v, rest) else none
  | none => none

end Text

namespace Angle

/-- The angle denoted by a number and the unit after it. -/
def ofUnit? (v : K) : List Char → Option (Angle K)
  | ['d', 'e', 'g'] => some (ofDegrees v)
  | ['r', 'a', 'd'] => some ⟨v⟩
  | _ => none

def parse? (s : String) : Option (Angle K) :=
  match Text.scanScalar? (Text.trim s.toList) with
  | some (v, []) => some ⟨v⟩
  | some (v, unit) => ofUnit? v unit
  | none => none

/-- Read an angle literal, or say which text is none. -/
def parse (s : String) : Except LiteralError (Angle K) :=
  match parse? s with
  | some a => .ok a
  | none => .error (.angle s)

end Angle

namespace Point

/-- Cut a list before and after its first comma. -/
def splitComma? (cs : List Char) : Option (List Char × List Char) :=
  match cs.dropWhile (· != ',') with
  | _ :: rest => some (cs.takeWhile (· != ','), rest)
  | [] => none

def coordinate? (cs : List Char) : Option K :=
  match Text.numeral? Text.coordinateNumeral (Text.trim cs) with
  | some d =>
    let v : K := Scalar.ofDecimal d
    if Scalar.isFinite v then some v else none
  | none => none

/-- The text between the parentheses: every `(` at the front and every `)` at the
end is dropped. -/
def stripParentheses (cs : List Char) : List Char :=
  ((cs.dropWhile (· == '(')).reverse.dropWhile (· == ')')).reverse

def parse? (s : String) : Option (Point K) := do
  let (left, right) ← splitComma? (stripParentheses (Text.trim s.toList))
  return ⟨← coordinate? left, ← coordinate? right⟩

/-- Read a point literal, or say which text is none. -/
def parse (s : String) : Except LiteralError (Point K) :=
  match parse? s with
  | some p => .ok p
  | none => .error (.point s)

end Point

end Drafting
