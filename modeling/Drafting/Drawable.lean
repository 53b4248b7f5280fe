import Drafting.Path
import Drafting.Style

/-!
# Drawables

A drawable is a styled path in absolute coordinates. Those of kind `path` are the
outline of the node that owns them; those of kind `mark` are decoration, drawn but
ignored when anchors are looked up. A registry names the ways to make a drawable
from segments, and starts with the two kinds.
-/

namespace Drafting

variable {K : Type} [Scalar K]

/-- Whether a drawable takes part in the anchor geometry of its node. -/
inductive DrawableKind
  | path
  | mark
deriving DecidableEq, Repr

def DrawableKind.name : DrawableKind → String
  | path => "path"
  | mark => "mark"

@[ext] structure Drawable (K : Type) where
  kind : DrawableKind
  path : Path K
  style : Style

namespace Drawable

/-- The segments that anchors are looked up on. -/
def anchorSegments (d : Drawable K) : List (Segment K) :=
  match d.kind with
  | .path => d.path.segments
  | .mark => []

def translate (d : Drawable K) (v : Offset K) : Drawable K := { d with path := d.path.translate v }

end Drawable

/-- How drawables of one kind are made from absolute segments and a style. -/
abbrev DrawableBuilder (K : Type) := List (Segment K) → Style → Drawable K

def DrawableKind.build (kind : DrawableKind) : DrawableBuilder K :=
  fun segments style => ⟨kind, ⟨segments⟩, style⟩

structure DrawableRegistry (K : Type) where
  builders : NameMap (DrawableBuilder K)

namespace DrawableRegistry

/-- Register a builder, replacing any of the same name. -/
def register (r : DrawableRegistry K) (kind : String) (builder : DrawableBuilder K) :
    DrawableRegistry K :=
  ⟨r.builders.insert kind builder⟩

/-- The registry of the two kinds under their own names. -/
def standard : DrawableRegistry K :=
  let r : DrawableRegistry K := ⟨∅⟩
  (r.register "path" DrawableKind.path.build).register "mark" DrawableKind.mark.build

def contains (r : DrawableRegistry K) (kind : String) : Bool := r.builders.contains kind

def kinds (r : DrawableRegistry K) : List String := r.builders.keys

def build (r : DrawableRegistry K) (kind : String) (segments : List (Segment K)) (style : Style) :
    Except (DrawingError K) (Drawable K) :=
  match r.builders[kind]? with
  | some builder => .ok (builder segments style)
  | none => .error (.unknownDrawableKind kind)

end DrawableRegistry

end Drafting
