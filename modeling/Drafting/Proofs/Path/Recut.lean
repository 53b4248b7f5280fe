import Drafting.Path
import Mathlib.Tactic.SplitIfs

/-!
# Polylines in two parts

A polyline may be cut at a vertex between its ends, or two polylines joined where one ends at the
start of the next. The segments change, and so do the defining points, one of which is then there
twice. Four things do not: the pieces, the ends, the box, and how the segments connect, provided
that the vertex equals itself. These four are all that a path is asked about, so every query has
the same answer for both.

No law of arithmetic is used. Equality of points is a test of the scalars, and an undefined
coordinate would fail it even against itself.
-/

namespace Drafting

variable {K : Type} [Scalar K]

namespace Path

variable {p p' p'' : Path K}

/-- The paths consist of the same pieces, connect alike, and have the same ends and box. -/
structure SameOutline (p p' : Path K) : Prop where
  pieces : p'.pieces = p.pieces
  topology : p'.topology = p.topology
  start : p'.start = p.start
  finish : p'.finish = p.finish
  box : p'.box = p.box

namespace SameOutline

theorem refl (p : Path K) : SameOutline p p := ⟨rfl, rfl, rfl, rfl, rfl⟩

theorem symm (h : SameOutline p p') : SameOutline p' p :=
  ⟨h.pieces.symm, h.topology.symm, h.start.symm, h.finish.symm, h.box.symm⟩

theorem trans (h : SameOutline p p') (h' : SameOutline p' p'') : SameOutline p p'' :=
  ⟨h'.pieces.trans h.pieces, h'.topology.trans h.topology, h'.start.trans h.start,
    h'.finish.trans h.finish, h'.box.trans h.box⟩

theorem lengthTable (h : SameOutline p p') : p'.lengthTable = p.lengthTable := by
  rw [Path.lengthTable, Path.lengthTable, h.pieces]

theorem moments (h : SameOutline p p') : p'.moments = p.moments := by
  rw [Path.moments, Path.moments, h.pieces, h.box]

theorem area (h : SameOutline p p') : p'.area = p.area := by
  rw [Path.area, Path.area, isClosed, isClosed, h.topology, h.moments]

theorem centroid (h : SameOutline p p') : p'.centroid = p.centroid := by
  rw [Path.centroid, Path.centroid, h.topology, h.moments, h.box]

theorem pointAtFraction (h : SameOutline p p') (t : K) :
    p'.pointAtFraction t = p.pointAtFraction t := by
  rw [Path.pointAtFraction, Path.pointAtFraction, h.finish, h.lengthTable, h.pieces]

theorem pointAtLength (h : SameOutline p p') (d : K) :
    p'.pointAtLength d = p.pointAtLength d := by
  have hlength : p'.length = p.length := congrArg LengthTable.total h.lengthTable
  have hempty : p'.isEmpty = p.isEmpty := congrArg (· == Topology.empty) h.topology
  simp only [Path.pointAtLength, hempty, hlength, h.pointAtFraction]

theorem crossings (h : SameOutline p p') (l : Line K) : p'.crossings l = p.crossings l := by
  rw [Path.crossings, Path.crossings, mergeDistance, mergeDistance, h.box, h.pieces]

end SameOutline

/-- Whether a path is connected, and where it starts and ends, decides its topology. -/
theorem topology_congr
    (hconnected : Topology.connected p'.segments = Topology.connected p.segments)
    (hstart : p'.start = p.start) (hfinish : p'.finish = p.finish) :
    p'.topology = p.topology := by
  have hends (p : Path K) : p.topology =
      (p.start.bind fun a => p.finish.map fun b =>
        if !Topology.connected p.segments then .group
        else if b == a then .closed else .opened).getD .empty := by
    rw [topology, Topology.classify, start, finish]
    cases p.segments.head? with
    | none => rfl
    | some first =>
      cases p.segments.getLast? with
      | none => rfl
      | some last => rfl
  rw [hends p, hends p', hconnected, hstart, hfinish]

end Path

namespace Topology

variable {s t : Segment K}

theorem connected_append (front : List (Segment K)) (s : Segment K) (back : List (Segment K)) :
    connected (front ++ s :: back) = (connected (front ++ [s]) && connected (s :: back)) := by
  simp only [connected, neighbours_append front s back, List.all_append]

theorem connected_cons_cons (s t : Segment K) (back : List (Segment K)) :
    connected (s :: t :: back) = (s.finish == t.start && connected (t :: back)) := rfl

theorem connected_concat_congr (h : s.start = t.start) (front : List (Segment K)) :
    connected (front ++ [s]) = connected (front ++ [t]) := by
  induction front with
  | nil => rfl
  | cons r front ih =>
    cases front with
    | nil => simp [connected, neighbours, h]
    | cons r' front =>
      simp only [List.cons_append, connected_cons_cons] at ih ⊢
      rw [ih]

theorem connected_cons_congr (h : s.finish = t.finish) (back : List (Segment K)) :
    connected (s :: back) = connected (t :: back) := by
  cases back with
  | nil => rfl
  | cons r back => rw [connected_cons_cons, connected_cons_cons, h]

end Topology

namespace Box

theorem insert_insert_self (b : Box K) (p : Point K) : (b.insert p).insert p = b.insert p := by
  have hlesser (a c : K) : Scalar.lesser (Scalar.lesser a c) c = Scalar.lesser a c := by
    simp only [Scalar.lesser]
    split_ifs <;> rfl
  have hgreater (a c : K) : Scalar.greater (Scalar.greater a c) c = Scalar.greater a c := by
    simp only [Scalar.greater]
    split_ifs <;> rfl
  simp only [insert, hlesser, hgreater]

theorem ofPoints_repeated (xs : List (Point K)) (v : Point K) (ys : List (Point K)) :
    ofPoints (xs ++ v :: v :: ys) = ofPoints (xs ++ v :: ys) := by
  simp only [ofPoints, List.foldl_append, List.foldl_cons, insert_insert_self]

end Box

namespace Segment

section
omit [Scalar K]
variable {xs ys : List (Point K)} {v : Point K} (h : 2 ≤ (xs ++ v :: ys).length)

theorem start_polyline_front (hx : 2 ≤ (xs ++ [v]).length) :
    (polyline (xs ++ [v]) hx).start = (polyline (xs ++ v :: ys) h).start := by
  cases xs <;> rfl

theorem finish_polyline_back (hy : 2 ≤ (v :: ys).length) :
    (polyline (v :: ys) hy).finish = (polyline (xs ++ v :: ys) h).finish := by
  simp [Segment.finish]

end

/-- A polyline of the first list is there in two parts in the second, cut at a vertex between its
ends that equals itself. -/
inductive Cut : List (Segment K) → List (Segment K) → Prop
  | mk (front back : List (Segment K)) (xs ys : List (Point K)) (v : Point K)
      (hv : (v == v) = true) (h : 2 ≤ (xs ++ v :: ys).length) (hx : 2 ≤ (xs ++ [v]).length)
      (hy : 2 ≤ (v :: ys).length) :
      Cut (front ++ .polyline (xs ++ v :: ys) h :: back)
        (front ++ .polyline (xs ++ [v]) hx :: .polyline (v :: ys) hy :: back)

namespace Cut

variable {ss ss' : List (Segment K)}

theorem append (h : Cut ss ss') (front back : List (Segment K)) :
    Cut (front ++ ss ++ back) (front ++ ss' ++ back) := by
  obtain ⟨front', back', xs, ys, v, hv, h, hx, hy⟩ := h
  simpa using Cut.mk (front ++ front') (back' ++ back) xs ys v hv h hx hy

theorem pieces (h : Cut ss ss') : (⟨ss'⟩ : Path K).pieces = (⟨ss⟩ : Path K).pieces := by
  obtain ⟨front, back, xs, ys, v, -, -, -, -⟩ := h
  simp only [Path.pieces, Segment.pieces, List.flatMap_append, List.flatMap_cons,
    neighbours_append xs v ys, List.map_append, List.append_assoc]

theorem box (h : Cut ss ss') : (⟨ss'⟩ : Path K).box = (⟨ss⟩ : Path K).box := by
  obtain ⟨front, back, xs, ys, v, -, -, -, -⟩ := h
  have hrepeated := Box.ofPoints_repeated (front.flatMap controlPoints ++ xs) v
    (ys ++ back.flatMap controlPoints)
  simpa [Path.box, Path.controlPoints, controlPoints] using hrepeated

theorem start (h : Cut ss ss') : (⟨ss'⟩ : Path K).start = (⟨ss⟩ : Path K).start := by
  obtain ⟨front, back, xs, ys, v, -, h, hx, -⟩ := h
  cases front with
  | nil => simp [Path.start, start_polyline_front h hx]
  | cons s front => simp [Path.start]

theorem finish (h : Cut ss ss') : (⟨ss'⟩ : Path K).finish = (⟨ss⟩ : Path K).finish := by
  obtain ⟨front, back, xs, ys, v, -, h, -, hy⟩ := h
  cases back with
  | nil => simp [Path.finish, finish_polyline_back h hy]
  | cons s back => simp [Path.finish, List.getLast?_append]

/-- The parts meet at the vertex, and connect to the other segments as the whole does. -/
theorem connected (h : Cut ss ss') : Topology.connected ss' = Topology.connected ss := by
  obtain ⟨front, back, xs, ys, v, hv, h, hx, hy⟩ := h
  have hmeet : ((polyline (xs ++ [v]) hx).finish == (polyline (v :: ys) hy).start) = true := by
    simpa [Segment.finish, Segment.start] using hv
  rw [Topology.connected_append front (polyline (xs ++ [v]) hx), Topology.connected_cons_cons,
    hmeet, Bool.true_and, Topology.connected_concat_congr (start_polyline_front h hx),
    Topology.connected_cons_congr (finish_polyline_back h hy), ← Topology.connected_append]

theorem sameOutline (h : Cut ss ss') : Path.SameOutline ⟨ss⟩ ⟨ss'⟩ where
  pieces := h.pieces
  topology := Path.topology_congr h.connected h.start h.finish
  start := h.start
  finish := h.finish
  box := h.box

end Cut

end Segment

end Drafting
