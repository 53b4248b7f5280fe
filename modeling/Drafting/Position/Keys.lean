import Drafting.Position

/-!
# Positions as sets of keys

The loose form of a position is a set of keys, in which every key may be missing.
The keys fall into four groups, one for each form of position, and keys of two
groups cannot be combined. Within its group a key may be missing when there is a
natural value for it: the other axis is zero, the anchor is the centre. The keys
`rel` and `to` hold sets of keys themselves.

When several things are wrong, a conflict at a level is reported before anything
inside it, and what is wrong in `rel` before what is wrong in `to`.
-/

namespace Drafting

variable {K : Type} [Scalar K]

structure PositionKeys (K : Type) where
  x : Option K
  y : Option K
  /-- An angle literal. -/
  angle : Option String
  radius : Option K
  rel : Option (PositionKeys K)
  /-- The key `to`: what `rel` is measured from. -/
  base : Option (PositionKeys K)
  name : Option String
  anchor : Option String
  update : Option Bool

/-- The groups of keys that exclude each other. -/
inductive KeyGroup
  | cartesian
  | polar
  | relative
  | anchor
deriving DecidableEq, Repr

/-- The groups in the order in which conflicts are reported. -/
def KeyGroup.all : List KeyGroup := [cartesian, polar, relative, anchor]

namespace PositionKeys

/-- The first name whose key is present. -/
def firstPresent (first second : String) (hasFirst hasSecond : Bool) : Option String :=
  if hasFirst then some first else if hasSecond then some second else none

def firstKey (k : PositionKeys K) : KeyGroup → Option String
  | .cartesian => firstPresent "x" "y" k.x.isSome k.y.isSome
  | .polar => firstPresent "angle" "radius" k.angle.isSome k.radius.isSome
  | .relative => firstPresent "rel" "to" k.rel.isSome k.base.isSome
  | .anchor => firstPresent "name" "anchor" k.name.isSome k.anchor.isSome

/-- The groups with a key present, each with its first one. -/
def presentGroups (k : PositionKeys K) : List (KeyGroup × String) :=
  KeyGroup.all.filterMap fun g => (k.firstKey g).map (g, ·)

def cartesianSpec (k : PositionKeys K) : Except (PositionError K) (PositionSpec K) := do
  let x ← Position.checkFinite (k.x.getD 0) "x"
  let y ← Position.checkFinite (k.y.getD 0) "y"
  return .cartesian x y

/-- The form of a polar group, which needs both of its keys. -/
def polarSpec (k : PositionKeys K) : Except (PositionError K) (PositionSpec K) :=
  match k.angle, k.radius with
  | some angle, some radius => do
    let angle ← Position.parseAngle angle
    let radius ← Position.checkFinite radius "radius"
    return .polar angle radius
  | _, _ => .error (.malformed "a polar position needs both `angle` and `radius`")

/-- The displacement that a position stands for, if it has one of the two forms. -/
def displacement (p : Position K) : Except (PositionError K) (Displacement K) :=
  match p.spec with
  | .cartesian x y => .ok (.cartesian x y)
  | .polar angle radius => .ok (.polar angle radius)
  | _ => .error (.malformed "`rel` must be cartesian or polar")

/-- The form of a relative group, given what its two keys stand for. -/
def relativeSpec (rel base : Option (Except (PositionError K) (Position K))) :
    Except (PositionError K) (PositionSpec K) :=
  match rel with
  | none => .error (.malformed "`to` requires `rel`")
  | some rel => do
    let d ← displacement (← rel)
    match base with
    | none => return .relative d
    | some base =>
      let position ← base
      return .relativeTo d position.spec position.update

/-- The form of an anchor group, which needs the name of the node. -/
def anchorSpec (k : PositionKeys K) : Except (PositionError K) (PositionSpec K) :=
  match k.name with
  | none => .error (.malformed "`anchor` requires `name`")
  | some node => .ok (.anchor node (AnchorKey.parse (k.anchor.getD "center")))

/-- The form of a level, given what its `rel` and `to` stand for. -/
def levelSpec (k : PositionKeys K) (rel base : Option (Except (PositionError K) (Position K))) :
    Except (PositionError K) (PositionSpec K) :=
  match k.presentGroups with
  | [] => .ok .current
  | [(.cartesian, _)] => k.cartesianSpec
  | [(.polar, _)] => k.polarSpec
  | [(.relative, _)] => relativeSpec rel base
  | [(.anchor, _)] => k.anchorSpec
  | (_, first) :: (_, second) :: _ => .error (.conflictingKeys first second)

/-- The position that a level stands for, given what its `rel` and `to` stand for. -/
def level (k : PositionKeys K) (rel base : Option (Except (PositionError K) (Position K))) :
    Except (PositionError K) (Position K) := do
  return ⟨← k.levelSpec rel base, k.update.getD true⟩

def toPosition : PositionKeys K → Except (PositionError K) (Position K)
  | ⟨x, y, angle, radius, rel, base, name, anchor, update⟩ =>
    let relPosition := match rel with
      | none => none
      | some r => some (toPosition r)
    let basePosition := match base with
      | none => none
      | some b => some (toPosition b)
    level ⟨x, y, angle, radius, rel, base, name, anchor, update⟩ relPosition basePosition

end PositionKeys

end Drafting
