import Drafting.Node
import Drafting.Position

/-!
# Resolving positions

Resolving turns a position into an absolute point. It needs the transform in
force, the current point and the nodes drawn so far, and changes none of them.
Coordinates are local and go through the transform; a displacement is transformed
without the shift and added to an absolute point; anchors are absolute.
-/

namespace Drafting

variable {K : Type} [Scalar K]

/-- What positions are resolved against. -/
structure Frame (K : Type) where
  transform : Transform K
  current : Point K
  node? : String → Option (Node K)

namespace Frame

def settle (p : Point K) : Except (PositionError K) (Point K) :=
  if p.isFinite then .ok p
  else .error (.malformed "position resolves to a non-finite point")

/-- The point at a local displacement from an absolute point. -/
def displace (f : Frame K) (p : Point K) (d : Displacement K) : Point K :=
  p + f.transform.applyOffset d.toOffset

/-- The absolute point that a form of position means. -/
def resolve (f : Frame K) : PositionSpec K → Except (PositionError K) (Point K)
  | .current => settle f.current
  | .cartesian x y => settle (f.transform.apply ⟨x, y⟩)
  | .polar angle radius => settle (f.transform.apply (Point.ofPolar angle radius))
  | .relative rel => settle (f.displace f.current rel)
  | .relativeTo rel base _ => do settle (f.displace (← f.resolve base) rel)
  | .anchor name key =>
    match f.node? name with
    | none => .error (.unknownNode name)
    | some node =>
      match node.resolve key with
      | .ok p => settle p
      | .error cause => .error (.anchor cause)

end Frame

end Drafting
