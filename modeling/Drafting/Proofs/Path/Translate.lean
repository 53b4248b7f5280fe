import Drafting.Path
import Drafting.Proofs.Box
import Drafting.Proofs.Path.Chain
import Mathlib.Tactic.Ring

/-!
# Moved paths

What becomes of each query of a path when the path is moved. Pieces keep all their
coefficients but the constant ones, so lengths, moments about the moved centre and the
polynomials of moved lines are what they were, and every point that is answered moves
along. The box moves along as long as all defining points are in range.
-/

namespace Drafting

variable [ExactTables]

namespace Point

theorem add_sub_add_right (p q : Point ℝ) (v : Offset ℝ) : (p + v) - (q + v) = p - q := by
  ext <;> simp

theorem add_beq_add_right (p q : Point ℝ) (v : Offset ℝ) : (p + v == q + v) = (p == q) := by
  simp [BEq.beq]

theorem add_offset_comm (p : Point ℝ) (v w : Offset ℝ) : p + v + w = p + w + v := by
  ext
  · exact add_right_comm p.x v.dx w.dx
  · exact add_right_comm p.y v.dy w.dy

theorem midpoint_add_right (p q : Point ℝ) (v : Offset ℝ) :
    (p + v).midpoint (q + v) = p.midpoint q + v := by
  ext
  · simp only [midpoint, add_x]
    ring
  · simp only [midpoint, add_y]
    ring

end Point

namespace Piece

noncomputable def translate (p : Piece ℝ) (v : Offset ℝ) : Piece ℝ :=
  ⟨{ p.x with c0 := p.x.c0 + v.dx }, { p.y with c0 := p.y.c0 + v.dy }⟩

theorem line_add_right (a b : Point ℝ) (v : Offset ℝ) :
    line (a + v) (b + v) = (line a b).translate v := by
  ext <;> simp [line, translate]

theorem cubic_add_right (a b c d : Point ℝ) (v : Offset ℝ) :
    cubic (a + v) (b + v) (c + v) (d + v) = (cubic a b c d).translate v := by
  ext <;> simp [cubic, bezier, translate]

theorem eval_translate (p : Piece ℝ) (v : Offset ℝ) (t : ℝ) :
    (p.translate v).eval t = p.eval t + v := by
  ext
  · simp only [eval, Cubic.eval, translate, Point.add_x]
    ring
  · simp only [eval, Cubic.eval, translate, Point.add_y]
    ring

theorem relativeTo_translate (p : Piece ℝ) (c : Point ℝ) (v : Offset ℝ) :
    (p.translate v).relativeTo (c + v) = p.relativeTo c := by
  ext <;> simp [relativeTo, translate]

end Piece

namespace Segment

theorem start_translate (s : Segment ℝ) (v : Offset ℝ) : (s.translate v).start = s.start + v := by
  cases s with
  | polyline points h => simp [translate, mapPoints, start]
  | cubic a b c d => rfl

theorem finish_translate (s : Segment ℝ) (v : Offset ℝ) :
    (s.translate v).finish = s.finish + v := by
  cases s with
  | polyline points h => simp [translate, mapPoints, finish]
  | cubic a b c d => rfl

theorem pieces_translate (s : Segment ℝ) (v : Offset ℝ) :
    (s.translate v).pieces = s.pieces.map (·.translate v) := by
  cases s with
  | polyline points h =>
    simp only [translate, mapPoints, pieces, neighbours_map, List.map_map]
    exact List.map_congr_left fun ends _ => Piece.line_add_right ends.1 ends.2 v
  | cubic a b c d => simp [translate, mapPoints, pieces, Piece.cubic_add_right]

end Segment

namespace Line

noncomputable def translate (l : Line ℝ) (v : Offset ℝ) : Line ℝ := ⟨l.point + v, l.direction⟩

theorem parameters_translate (l : Line ℝ) (p : Piece ℝ) (v : Offset ℝ) :
    (l.translate v).parameters (p.translate v) = l.parameters p := by
  simp only [parameters, translate, Piece.relativeTo_translate]

theorem crossings_translate (l : Line ℝ) (p : Piece ℝ) (v : Offset ℝ) :
    (l.translate v).crossings (p.translate v) =
      (l.crossings p).map (List.map fun q : Point ℝ => q + v) := by
  simp only [crossings, parameters_translate]
  cases l.parameters p with
  | error e => rfl
  | ok ts =>
    change Except.ok _ = Except.ok _
    simp only [List.map_map]
    congr 2
    funext t
    exact p.eval_translate v t

end Line

namespace Moments

theorem addPiece_translate (center : Point ℝ) (m : Moments ℝ) (p : Piece ℝ) (v : Offset ℝ) :
    addPiece (center + v) m (p.translate v) = addPiece center m p := by
  simp only [addPiece, Piece.relativeTo_translate]

theorem ofPieces_translate (ps : List (Piece ℝ)) (center : Point ℝ) (v : Offset ℝ) :
    ofPieces (ps.map (·.translate v)) (center + v) = ofPieces ps center := by
  simp only [ofPieces, List.foldl_map, addPiece_translate]

theorem centroid_add_right (m : Moments ℝ) (center : Point ℝ) (v : Offset ℝ) :
    m.centroid (center + v) = m.centroid center + v :=
  Point.add_offset_comm center v _

end Moments

namespace Topology

theorem connected_translate (segments : List (Segment ℝ)) (v : Offset ℝ) :
    connected (segments.map (·.translate v)) = connected segments := by
  simp only [connected, neighbours_map, List.all_map]
  congr 1
  funext e
  obtain ⟨s, t⟩ := e
  simp only [Function.comp, Segment.start_translate, Segment.finish_translate,
    Point.add_beq_add_right]

theorem classify_translate (segments : List (Segment ℝ)) (v : Offset ℝ) :
    classify (segments.map (·.translate v)) = classify segments := by
  simp only [classify, List.head?_map, List.getLast?_map, connected_translate]
  cases segments.head? with
  | none => rfl
  | some first =>
    cases segments.getLast? with
    | none => rfl
    | some last =>
      simp only [Option.map_some, Segment.start_translate, Segment.finish_translate,
        Point.add_beq_add_right]

end Topology

namespace Path

def InRange (p : Path ℝ) : Prop := ∀ q ∈ p.controlPoints, q.InRange

theorem topology_translate (p : Path ℝ) (v : Offset ℝ) :
    (p.translate v).topology = p.topology :=
  Topology.classify_translate p.segments v

theorem finish_translate (p : Path ℝ) (v : Offset ℝ) :
    (p.translate v).finish = p.finish.map fun q : Point ℝ => q + v := by
  simp only [finish, translate, List.getLast?_map, Option.map_map]
  congr 1
  funext s
  exact s.finish_translate v

theorem pieces_translate (p : Path ℝ) (v : Offset ℝ) :
    (p.translate v).pieces = p.pieces.map (·.translate v) := by
  simp only [pieces, translate, List.flatMap_map, List.map_flatMap, Segment.pieces_translate]

theorem controlPoints_translate (p : Path ℝ) (v : Offset ℝ) :
    (p.translate v).controlPoints = p.controlPoints.map fun q : Point ℝ => q + v := by
  simp only [controlPoints, translate, List.flatMap_map, List.map_flatMap, Segment.translate,
    Segment.controlPoints_mapPoints]

theorem lengthTable_translate (p : Path ℝ) (v : Offset ℝ) :
    (p.translate v).lengthTable = p.lengthTable := by
  simp only [lengthTable, LengthTable.ofPieces, pieces_translate, List.map_map]
  rfl

theorem pointAtFraction_translate (p : Path ℝ) (v : Offset ℝ) (t : ℝ) :
    (p.translate v).pointAtFraction t = (p.pointAtFraction t).map fun q : Point ℝ => q + v := by
  unfold pointAtFraction
  rw [finish_translate, lengthTable_translate, pieces_translate]
  cases p.finish with
  | none => rfl
  | some finish =>
    simp only [Option.map_some]
    split_ifs
    · rfl
    · rfl
    · cases p.lengthTable.locate t with
      | none => rfl
      | some place =>
        simp only [List.getElem?_map]
        cases p.pieces[place.1]? with
        | none => rfl
        | some piece => exact congrArg Except.ok (piece.eval_translate v place.2)

theorem pointAtLength_translate (p : Path ℝ) (v : Offset ℝ) (distance : ℝ) :
    (p.translate v).pointAtLength distance =
      (p.pointAtLength distance).map fun q : Point ℝ => q + v := by
  have he : (p.translate v).isEmpty = p.isEmpty := by rw [isEmpty, isEmpty, topology_translate]
  have hl : (p.translate v).length = p.length := by rw [length, length, lengthTable_translate]
  simp only [pointAtLength, he, hl, pointAtFraction_translate]
  cases p.isEmpty with
  | true => rfl
  | false =>
    cases Scalar.within distance 0 p.length with
    | true => rfl
    | false => rfl

section
variable {p : Path ℝ} {v : Offset ℝ}

theorem box_translate (h : p.InRange) (h' : (p.translate v).InRange) :
    (p.translate v).box = p.box.translate v := by
  have hv : ∀ q ∈ p.controlPoints, (q + v).InRange := by
    intro q hq
    refine h' (q + v) ?_
    rw [controlPoints_translate]
    exact List.mem_map_of_mem hq
  rw [box, controlPoints_translate]
  exact Box.ofPoints_map_add h hv

theorem isEmpty_box (h : p.InRange) (hp : p.segments ≠ []) : p.box.isEmpty = false := by
  have hne : p.controlPoints ≠ [] := by
    obtain ⟨s, rest, hs⟩ := List.exists_cons_of_ne_nil hp
    simp only [controlPoints, hs, List.flatMap_cons]
    cases s with
    | polyline points two_le =>
      obtain ⟨q, qs, rfl⟩ := List.exists_cons_of_length_pos (Nat.lt_of_lt_of_le Nat.two_pos two_le)
      simp [Segment.controlPoints]
    | cubic a b c d => simp [Segment.controlPoints]
  obtain ⟨q, qs, hq⟩ := List.exists_cons_of_ne_nil hne
  rw [box, hq]
  exact Box.isEmpty_ofPoints_cons (h q (hq ▸ List.mem_cons_self)) qs

theorem center_box_translate (h : p.InRange) (h' : (p.translate v).InRange)
    (hp : p.segments ≠ []) : (p.translate v).box.center = p.box.center + v := by
  rw [box_translate h h', Box.translate, isEmpty_box h hp]
  exact p.box.min.midpoint_add_right p.box.max v

theorem moments_translate (h : p.InRange) (h' : (p.translate v).InRange)
    (hp : p.segments ≠ []) : (p.translate v).moments = p.moments := by
  rw [moments, moments, pieces_translate, center_box_translate h h' hp,
    Moments.ofPieces_translate]

theorem centroid_translate (h : p.InRange) (h' : (p.translate v).InRange) :
    (p.translate v).centroid = p.centroid.map fun q : Point ℝ => q + v := by
  unfold centroid
  rw [topology_translate]
  cases ht : p.topology with
  | empty => rfl
  | group => rfl
  | opened => rfl
  | closed =>
    have hp : p.segments ≠ [] := segments_ne_nil_of_topology (by rw [ht]; decide)
    simp only [moments_translate h h' hp, center_box_translate h h' hp]
    rw [box_translate h h', Box.diagonalSq_translate]
    split_ifs
    · rfl
    · exact congrArg Except.ok (p.moments.centroid_add_right p.box.center v)

theorem mergeDistance_translate (h : p.InRange) (h' : (p.translate v).InRange) :
    (p.translate v).mergeDistance = p.mergeDistance := by
  rw [mergeDistance, mergeDistance, box_translate h h', Box.diagonalSq_translate]

/-- By induction on the points added: each is compared by its distance to those kept. -/
theorem mergePoints_map_add (m : ℝ) (found points : List (Point ℝ)) (v : Offset ℝ) :
    mergePoints m (found.map fun q : Point ℝ => q + v) (points.map fun q : Point ℝ => q + v) =
      (mergePoints m found points).map fun q : Point ℝ => q + v := by
  unfold mergePoints
  induction points generalizing found with
  | nil => rfl
  | cons p points ih =>
    simp only [List.map_cons, List.foldl_cons, List.any_map, Function.comp_def,
      Point.add_sub_add_right]
    split_ifs
    · exact ih found
    · rw [← ih, List.map_append, List.map_cons, List.map_nil]

theorem crossings_translate (h : p.InRange) (h' : (p.translate v).InRange) (l : Line ℝ) :
    (p.translate v).crossings (l.translate v) =
      (p.crossings l).map (List.map fun q : Point ℝ => q + v) := by
  unfold crossings
  rw [mergeDistance_translate h h', pieces_translate]
  generalize p.mergeDistance = m
  -- The crossings found so far move along with all the others.
  have hfold (pieces : List (Piece ℝ)) (found : List (Point ℝ)) :
      (pieces.map (·.translate v)).foldlM
          (fun found piece => mergePoints m found <$> (l.translate v).crossings piece)
          (found.map fun q : Point ℝ => q + v) =
        (pieces.foldlM (fun found piece => mergePoints m found <$> l.crossings piece) found).map
          (List.map fun q : Point ℝ => q + v) := by
    induction pieces generalizing found with
    | nil => rfl
    | cons piece pieces ih =>
      simp only [List.map_cons, List.foldlM_cons, Line.crossings_translate]
      cases l.crossings piece with
      | error e => rfl
      | ok points =>
        change List.foldlM _ (mergePoints m _ (points.map _)) _ = _
        rw [mergePoints_map_add]
        exact ih (mergePoints m found points)
  exact hfold p.pieces []

end

end Path

end Drafting
