import Drafting.Box
import Drafting.Path.Segment
import Drafting.Path.Length
import Drafting.Path.Moments
import Drafting.Path.Line

/-!
# Paths

A path is a list of segments, and everything else about it is computed from them:
how they connect, the pieces they consist of, lengths, the enclosed area and its
centroid, and the box around all defining points. Only the topology depends on
where one segment ends and the next begins.

Queries by length and by fraction answer for every path with segments; area and
centroid only for closed ones.
-/

namespace Drafting

variable {K : Type} [Scalar K]

/-- How the segments of a path connect. -/
inductive Topology
  /-- There are no segments. -/
  | empty
  /-- Some segment does not start where the one before it ends. -/
  | group
  /-- Connected, ending elsewhere than it starts. -/
  | opened
  /-- Connected, ending where it starts. -/
  | closed
deriving DecidableEq, Repr

namespace Topology

/-- Whether each segment starts where the one before it ends, by exact equality. -/
def connected (segments : List (Segment K)) : Bool :=
  (neighbours segments).all fun (s, t) => s.finish == t.start

def classify (segments : List (Segment K)) : Topology :=
  match segments.head?, segments.getLast? with
  | some first, some last =>
    if !connected segments then group
    else if last.finish == first.start then closed
    else opened
  | _, _ => empty

def isContinuous : Topology → Bool
  | opened | closed => true
  | empty | group => false

end Topology

/-- An ordered sequence of segments. -/
@[ext] structure Path (K : Type) where
  segments : List (Segment K)

namespace Path

def empty : Path K := ⟨[]⟩

def topology (p : Path K) : Topology := Topology.classify p.segments

def isEmpty (p : Path K) : Bool := p.topology == .empty

def isContinuous (p : Path K) : Bool := p.topology.isContinuous

def isClosed (p : Path K) : Bool := p.topology == .closed

def pieces (p : Path K) : List (Piece K) := p.segments.flatMap Segment.pieces

def controlPoints (p : Path K) : List (Point K) := p.segments.flatMap Segment.controlPoints

def lengthTable (p : Path K) : LengthTable K := LengthTable.ofPieces p.pieces

def length (p : Path K) : K := p.lengthTable.total

def box (p : Path K) : Box K := Box.ofPoints p.controlPoints

def start (p : Path K) : Option (Point K) := p.segments.head?.map Segment.start

def finish (p : Path K) : Option (Point K) := p.segments.getLast?.map Segment.finish

/-- The area and first moments about the centre of the box. -/
def moments (p : Path K) : Moments K := Moments.ofPieces p.pieces p.box.center

/-- The enclosed area of a closed path, positive when it runs counter-clockwise. -/
def area (p : Path K) : Option K := if p.isClosed then some p.moments.area else none

/-- Areas up to this part of the squared diagonal of the box count as zero. -/
def areaEpsilon : K := 1e-9

def centroid (p : Path K) : Except (PathError K) (Point K) :=
  match p.topology with
  | .empty => .error .emptyPath
  | .group | .opened => .error .notClosed
  | .closed =>
    let m := p.moments
    if Scalar.abs m.area ≤ areaEpsilon * p.box.diagonalSq then .error .degenerateArea
    else .ok (m.centroid p.box.center)

/-- The point at a fraction of the total length. The fraction 1 is the very end
of the last segment. -/
def pointAtFraction (p : Path K) (t : K) : Except (PathError K) (Point K) :=
  match p.finish with
  | none => .error .emptyPath
  | some finish =>
    if !Scalar.within t 0 1 then .error (.outOfRangeFraction t)
    else if t == 1 then .ok finish
    else
      match p.lengthTable.locate t with
      | none => .error .emptyPath
      | some (index, along) =>
        match p.pieces[index]? with
        | none => .error .emptyPath
        | some piece => .ok (piece.eval along)

/-- The point at a distance from the start, measured along the path. -/
def pointAtLength (p : Path K) (distance : K) : Except (PathError K) (Point K) :=
  if p.isEmpty then .error .emptyPath
  else
    let total := p.length
    if !Scalar.within distance 0 total then .error (.outOfRangeLength distance total)
    else
      let fraction := if 0 < total then distance / total else 0
      p.pointAtFraction (Scalar.lesser fraction 1)

/-- The distance within which two crossings count as one: `1e-8` times the
diagonal of the box, or `1e-8` when that is shorter than 1. -/
def mergeDistance (p : Path K) : K :=
  Scalar.absoluteTolerance * Scalar.greater (Scalar.sqrt p.box.diagonalSq) 1

/-- The points with those added that are farther than `m` from all before them. -/
def mergePoints (m : K) (found : List (Point K)) (points : List (Point K)) : List (Point K) :=
  points.foldl
    (fun kept p => if kept.any fun q => decide ((q - p).length ≤ m) then kept else kept ++ [p])
    found

/-- The points where a line crosses the path, in the order of the pieces. A point
shared by several pieces is reported once. -/
def crossings (p : Path K) (l : Line K) : Except IntersectionError (List (Point K)) :=
  let m := p.mergeDistance
  p.pieces.foldlM (fun found piece => mergePoints m found <$> l.crossings piece) []

def transform (p : Path K) (t : Transform K) : Path K := ⟨p.segments.map (·.transform t)⟩

def translate (p : Path K) (v : Offset K) : Path K := ⟨p.segments.map (·.translate v)⟩

def reverse (p : Path K) : Path K := ⟨p.segments.reverse.map Segment.reverse⟩

/-- The box traced as a closed rectangle, counter-clockwise from its lower corner.
An empty box has no outline. -/
def outline (b : Box K) : Path K :=
  if b.isEmpty then empty else ⟨[.polyline b.corners (by simp [Box.corners])]⟩

end Path

end Drafting
