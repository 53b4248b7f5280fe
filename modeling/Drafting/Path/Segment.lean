import Drafting.Path.Piece
import Drafting.Transform

/-!
# Segments

A path is made of segments: polylines through two or more points, and cubic
Bezier curves. A segment is given by its defining points; moving, mapping and
reversing a segment act on those.
-/

namespace Drafting

variable {K : Type} [Scalar K]

def neighbours {α : Type} : List α → List (α × α)
  | a :: b :: rest => (a, b) :: neighbours (b :: rest)
  | _ => []

theorem neighbours_map {α β : Type} (f : α → β) (l : List α) :
    neighbours (l.map f) = (neighbours l).map fun (a, b) => (f a, f b) := by
  fun_induction neighbours l with
  | case1 a b rest ih => simpa [neighbours] using ih
  | case2 l h =>
    match l, h with
    | [], _ => rfl
    | [_], _ => rfl
    | a :: b :: rest, h => exact absurd rfl (h a b rest)

/-- The neighbours on both sides of an entry. -/
theorem neighbours_append {α : Type} (xs : List α) (a : α) (ys : List α) :
    neighbours (xs ++ a :: ys) = neighbours (xs ++ [a]) ++ neighbours (a :: ys) := by
  induction xs with
  | nil => rfl
  | cons b xs ih =>
    cases xs with
    | nil => rfl
    | cons c xs =>
      simp only [List.cons_append, neighbours] at ih ⊢
      rw [ih]

inductive Segment (K : Type)
  | polyline (points : List (Point K)) (two_le : 2 ≤ points.length)
  | cubic (start ctrl1 ctrl2 finish : Point K)

namespace Segment

def line (points : List (Point K)) : Except (PathError K) (Segment K) :=
  if h : 2 ≤ points.length then .ok (polyline points h)
  else .error (.tooFewPoints points.length)

/-- The quadratic Bezier curve, with its degree raised to three. -/
def quadratic (start ctrl finish : Point K) : Segment K :=
  let k : K := 2 / 3
  cubic start (start + (ctrl - start) * k) (finish + (ctrl - finish) * k) finish

def start : Segment K → Point K
  | polyline points h => points.head (List.ne_nil_of_length_pos (Nat.lt_of_lt_of_le (by decide) h))
  | cubic start _ _ _ => start

def finish : Segment K → Point K
  | polyline points h =>
    points.getLast (List.ne_nil_of_length_pos (Nat.lt_of_lt_of_le (by decide) h))
  | cubic _ _ _ finish => finish

/-- The defining points; their box contains the segment. -/
def controlPoints : Segment K → List (Point K)
  | polyline points _ => points
  | cubic start ctrl1 ctrl2 finish => [start, ctrl1, ctrl2, finish]

def pieces : Segment K → List (Piece K)
  | polyline points _ => (neighbours points).map fun (a, b) => Piece.line a b
  | cubic start ctrl1 ctrl2 finish => [Piece.cubic start ctrl1 ctrl2 finish]

def mapPoints (f : Point K → Point K) : Segment K → Segment K
  | polyline points h => polyline (points.map f) (by simpa using h)
  | cubic start ctrl1 ctrl2 finish => cubic (f start) (f ctrl1) (f ctrl2) (f finish)

def transform (s : Segment K) (t : Transform K) : Segment K := s.mapPoints t.apply

def translate (s : Segment K) (v : Offset K) : Segment K := s.mapPoints (· + v)

def reverse : Segment K → Segment K
  | polyline points h => polyline points.reverse (by simpa using h)
  | cubic start ctrl1 ctrl2 finish => cubic finish ctrl2 ctrl1 start

omit [Scalar K] in
@[simp] theorem controlPoints_mapPoints (f : Point K → Point K) (s : Segment K) :
    (s.mapPoints f).controlPoints = s.controlPoints.map f := by
  cases s <;> rfl

omit [Scalar K] in
@[simp] theorem reverse_reverse (s : Segment K) : s.reverse.reverse = s := by
  cases s <;> simp [reverse]

end Segment

end Drafting
