import Drafting.Scalar

/-!
# Errors

Each part of the library fails with causes of its own, and an error of a lower
part is carried upwards inside one of the higher part. Of every error there is a
message, a stable code and, where there is advice to give, a help text. A carried
error keeps the three of the part it came from.
-/

namespace Drafting

variable {K : Type} [Scalar K]

/-- Why a number cannot be a coordinate. -/
inductive NumericError
  | nan
  | infinite
deriving DecidableEq, Repr

def NumericError.message : NumericError → String
  | .nan => "value is NaN"
  | .infinite => "value is infinite"

/-- The scalar itself when it is a number. -/
def Scalar.finite (a : K) : Except NumericError K :=
  if isFinite a then .ok a
  else if isNaN a then .error .nan
  else .error .infinite

/-- A text that is not a literal of the expected kind. -/
inductive LiteralError
  | angle (source : String)
  | point (source : String)
  | mark (source : String)
deriving DecidableEq, Repr

def LiteralError.message : LiteralError → String
  | .angle s =>
    "`" ++ s ++ "` is not an angle; expected `<num>deg`, `<num>rad` or a number of radians"
  | .point s => "`" ++ s ++ "` is not a point; expected `x,y` with finite numbers"
  | .mark s =>
    "unknown mark symbol `" ++ s ++ "`; expected one of arrow (>), triangle (|>), diamond (<>), " ++
      "rect ([]), bracket (]), bar (|), circle (o), plus (+), x, star (*)"

inductive TransformError
  | degenerate (reason : String)
deriving DecidableEq, Repr

namespace TransformError

def message : TransformError → String
  | degenerate reason => "degenerate transform: " ++ reason

def code : TransformError → String
  | degenerate _ => "tezpath::transform::degenerate"

def help : TransformError → Option String
  | degenerate _ =>
    some ("the transform must stay invertible with finite entries; " ++
      "the previous transform was kept")

end TransformError

inductive PathError (K : Type)
  | tooFewPoints (count : Nat)
  | emptyPath
  | outOfRangeLength (length total : K)
  | outOfRangeFraction (fraction : K)
  | notClosed
  | degenerateArea

namespace PathError

def message : PathError K → String
  | tooFewPoints count => "a line segment needs at least 2 points, got " ++ toString count
  | emptyPath => "path has no segments"
  | outOfRangeLength length total =>
    "length " ++ Scalar.text length ++ " is outside the path (total length " ++
      Scalar.text total ++ ")"
  | outOfRangeFraction fraction => "fraction " ++ Scalar.text fraction ++ " is outside 0..=1"
  | notClosed => "path is not closed"
  | degenerateArea => "closed path encloses no area"

def code : PathError K → String
  | tooFewPoints _ => "tezpath::path::too_few_points"
  | emptyPath => "tezpath::path::empty"
  | outOfRangeLength _ _ => "tezpath::path::length_out_of_range"
  | outOfRangeFraction _ => "tezpath::path::fraction_out_of_range"
  | notClosed => "tezpath::path::not_closed"
  | degenerateArea => "tezpath::path::degenerate_area"

def help : PathError K → Option String
  | outOfRangeLength _ total =>
    some ("lengths are measured from the start and must lie in 0..=" ++ Scalar.text total)
  | outOfRangeFraction _ => some "percentages must lie between 0% and 100%"
  | notClosed => some "the last segment must end exactly where the first one starts"
  | _ => none

end PathError

/-- Why a line has no list of crossings with a curve. -/
inductive IntersectionError
  | coincidentLines
  | degenerateLine
deriving DecidableEq, Repr

namespace IntersectionError

def message : IntersectionError → String
  | coincidentLines => "line coincides with the curve"
  | degenerateLine => "line direction is the zero vector"

def code : IntersectionError → String
  | coincidentLines => "tezpath::intersection::coincident"
  | degenerateLine => "tezpath::intersection::degenerate_line"

def help : IntersectionError → Option String
  | coincidentLines =>
    some "every parameter is a solution; the intersection is a whole segment"
  | degenerateLine => none

end IntersectionError

/-- Why a node could not be named or has no point for an anchor key. -/
inductive AnchorError (K : Type)
  | anchorNotFound (key : String) (node : Option String)
  | ambiguousAnchor (key : String) (count : Nat)
  | noIntersection (key : String)
  | angularAnchorUnsupported (key : String)
  | invalidNodeName (name : String)
  | invalidAnchorName (name : String)
  | path (cause : PathError K)
  | intersection (cause : IntersectionError)

namespace AnchorError

def message : AnchorError K → String
  | anchorNotFound key none => "anchor `" ++ key ++ "` not found"
  | anchorNotFound key (some name) =>
    "anchor `" ++ key ++ "` not found on node `" ++ name ++ "`"
  | ambiguousAnchor key count =>
    "anchor `" ++ key ++ "` is ambiguous: the ray crosses the outline " ++ toString count ++
      " times"
  | noIntersection key =>
    "anchor `" ++ key ++ "`: the ray from the centroid never reaches the outline"
  | angularAnchorUnsupported key =>
    "angular anchor `" ++ key ++ "` needs a closed shape with non-zero area"
  | invalidNodeName name => "invalid node name `" ++ name ++ "`"
  | invalidAnchorName name => "invalid anchor name `" ++ name ++ "`"
  | path cause => cause.message
  | intersection cause => cause.message

def code : AnchorError K → String
  | anchorNotFound _ _ => "tezpath::anchor::not_found"
  | ambiguousAnchor _ _ => "tezpath::anchor::ambiguous"
  | noIntersection _ => "tezpath::anchor::no_intersection"
  | angularAnchorUnsupported _ => "tezpath::anchor::angular_unsupported"
  | invalidNodeName _ => "tezpath::anchor::invalid_node_name"
  | invalidAnchorName _ => "tezpath::anchor::invalid_anchor_name"
  | path cause => cause.code
  | intersection cause => cause.code

def help : AnchorError K → Option String
  | anchorNotFound _ _ => none
  | ambiguousAnchor _ _ =>
    some ("angular anchors need a shape the ray from the centroid crosses once, " ++
      "e.g. a convex one")
  | noIntersection _ => none
  | angularAnchorUnsupported _ => some "use a percentage or a length along the path instead"
  | invalidNodeName _ =>
    some ("names start with a letter, digit or `_` and continue with letters, digits, " ++
      "`_` or `-`")
  | invalidAnchorName _ =>
    some "anchor names follow node-name rules and cannot shadow a builtin anchor"
  | path cause => cause.help
  | intersection cause => cause.help

end AnchorError

/-- Why a position is malformed or does not resolve. -/
inductive PositionError (K : Type)
  | conflictingKeys (first second : String)
  | malformed (message : String)
  | unknownNode (name : String)
  | anchor (cause : AnchorError K)

namespace PositionError

def message : PositionError K → String
  | conflictingKeys first second =>
    "conflicting position keys: " ++ first ++ " and " ++ second ++ " cannot be combined"
  | malformed message => "malformed position: " ++ message
  | unknownNode name => "unknown node `" ++ name ++ "`"
  | anchor cause => cause.message

def code : PositionError K → String
  | conflictingKeys _ _ => "tezpath::position::conflicting_keys"
  | malformed _ => "tezpath::position::malformed"
  | unknownNode _ => "tezpath::position::unknown_node"
  | anchor cause => cause.code

def help : PositionError K → Option String
  | conflictingKeys _ _ =>
    some ("use exactly one of \x7bx, y\x7d, \x7bangle, radius\x7d, \x7brel, to\x7d or " ++
      "\x7bname, anchor\x7d")
  | malformed _ => none
  | unknownNode _ => some "nodes must be drawn with a name before they can be referenced"
  | anchor cause => cause.help

/-- A coordinate that is not a number makes a position malformed. -/
def ofNumeric (cause : NumericError) : PositionError K :=
  malformed ("coordinate " ++ cause.message)

end PositionError

inductive DrawingError (K : Type)
  | transform (cause : TransformError)
  | path (cause : PathError K)
  | intersection (cause : IntersectionError)
  | anchor (cause : AnchorError K)
  | position (cause : PositionError K)
  | numeric (cause : NumericError)
  | unknownDrawableKind (kind : String)

namespace DrawingError

def message : DrawingError K → String
  | transform cause => cause.message
  | path cause => cause.message
  | intersection cause => cause.message
  | anchor cause => cause.message
  | position cause => cause.message
  | numeric cause => "invalid number: " ++ cause.message
  | unknownDrawableKind kind => "unknown drawable kind `" ++ kind ++ "`"

def code : DrawingError K → String
  | transform cause => cause.code
  | path cause => cause.code
  | intersection cause => cause.code
  | anchor cause => cause.code
  | position cause => cause.code
  | numeric _ => "tezpath::numeric"
  | unknownDrawableKind _ => "tezpath::draw::unknown_kind"

def help : DrawingError K → Option String
  | transform cause => cause.help
  | path cause => cause.help
  | intersection cause => cause.help
  | anchor cause => cause.help
  | position cause => cause.help
  | numeric _ => none
  | unknownDrawableKind _ => some "register the kind with `DrawableRegistry::register` first"

end DrawingError

end Drafting
