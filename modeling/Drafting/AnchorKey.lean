import Drafting.Name
import Drafting.Text.Literal

/-!
# Anchor keys

An anchor key says which point of a node is meant: one of eight builtin names, a
length along the outline, a percentage of it, the direction of a ray from the
centre, or the name of an explicit anchor. Every text is a key: what is neither
builtin nor a number in one of the four forms is looked up by name.

Keys are printed in the form they are read in. Percentages and degrees are
rounded to nine places first, which hides the noise of the unit conversion.
-/

namespace Drafting

variable {K : Type} [Scalar K]

/-- Which point of a node is meant. -/
inductive AnchorKey (K : Type)
  | center
  | north
  | south
  | east
  | west
  | start
  | mid
  | finish
  /-- Distance along the outline from its start. -/
  | length (distance : K)
  /-- Fraction of the length of the outline. -/
  | fraction (t : K)
  /-- Direction of a ray from the centroid. -/
  | angle (direction : Angle K)
  | custom (name : String)

namespace AnchorKey

def builtins : List (String × AnchorKey K) :=
  [("center", center), ("north", north), ("south", south), ("east", east),
    ("west", west), ("start", start), ("mid", mid), ("end", finish)]

/-- The names that no explicit anchor may have. -/
def builtinNames : List String :=
  ["center", "north", "south", "east", "west", "start", "mid", "end"]

def isBuiltinName (s : String) : Bool := builtinNames.contains s

/-- The key denoted by a number and what follows it. -/
def ofNumber? (v : K) : List Char → Option (AnchorKey K)
  | [] => some (length v)
  | ['%'] => some (fraction (v / 100))
  | unit => angle <$> Angle.ofUnit? v unit

def ofNumeral? (cs : List Char) : Option (AnchorKey K) :=
  match Text.scanScalar? cs with
  | some (v, rest) => ofNumber? v rest
  | none => none

/-- Read a key. Blanks at both ends are ignored. -/
def parse (s : String) : AnchorKey K :=
  let cs := Text.trim s.toList
  match ofNumeral? cs with
  | some key => key
  | none =>
    let name := String.ofList cs
    (builtins.lookup name).getD (custom name)

def roundPlaces (v : K) : K := Scalar.round (v * 1e9) / 1e9

def text : AnchorKey K → String
  | center => "center"
  | north => "north"
  | south => "south"
  | east => "east"
  | west => "west"
  | start => "start"
  | mid => "mid"
  | finish => "end"
  | length l => Scalar.text l
  | fraction t => Scalar.text (roundPlaces (t * 100)) ++ "%"
  | angle a => Scalar.text (roundPlaces a.degrees) ++ "deg"
  | custom name => name

end AnchorKey

end Drafting
