import Mathlib.Tactic.Linarith
import Drafting.Proofs.Path.Lookup
import Drafting.Proofs.Path.Reverse

/-!
# Repeated vertices

A vertex of a polyline that is repeated in place adds one piece, which has no length, no part in
the area and no point that the path did not have. Whatever is computed from lengths, moments and
the box stays as it was, and so does the point at every fraction and at every distance, because
connected pieces have only one point at a distance.

Lines are another matter. The polynomial of a piece that stays at a point is constant, so it is
negligible exactly when the line passes through the point, and the solver takes that for a piece
that runs along the line. A line through the repeated vertex is answered with an error, and every
other line as before.
-/

namespace Drafting

variable [ExactTables]

namespace Topology

variable {ss ss' : List (Segment ℝ)}

theorem connected_congr
    (h : ss.map (fun s => (s.start, s.finish)) = ss'.map fun s => (s.start, s.finish)) :
    connected ss = connected ss' := by
  have hends (ss : List (Segment ℝ)) : connected ss =
      (neighbours (ss.map fun s => (s.start, s.finish))).all fun e => e.1.2 == e.2.1 := by
    rw [connected, neighbours_map, List.all_map]
    rfl
  rw [hends ss, hends ss', h]

theorem classify_congr
    (h : ss.map (fun s => (s.start, s.finish)) = ss'.map fun s => (s.start, s.finish)) :
    classify ss = classify ss' := by
  have hends (ss : List (Segment ℝ)) : classify ss =
      ((ss.map fun s => (s.start, s.finish)).head?.bind fun first =>
        (ss.map fun s => (s.start, s.finish)).getLast?.map fun last =>
          if !connected ss then group else if last.2 == first.1 then closed else opened).getD
        empty := by
    rw [classify, List.head?_map, List.getLast?_map]
    cases ss.head? with
    | none => rfl
    | some first =>
      cases ss.getLast? with
      | none => rfl
      | some last => rfl
  rw [hends ss, hends ss', connected_congr h, h]

end Topology

namespace Quadrature

theorem gaussLegendre_zero (a b : ℝ) : gaussLegendre (fun _ => 0) a b = 0 := by
  simp [gaussLegendre_eq]

theorem adaptive_zero (a b : ℝ) : (adaptive (fun _ => 0) a b).value = 0 := by
  have htolerance : (0 : ℝ) ≤ tolerance := by norm_num [tolerance]
  change (bisect (fun _ => 0) (11 + 1) a b _ tolerance).value = _
  rw [bisect]
  dsimp only
  simp only [gaussLegendre_zero, add_zero, sub_zero, Scalar.abs_eq_abs, abs_zero, if_pos htolerance]

end Quadrature

namespace Piece

theorem arcLength_line_self (v : Point ℝ) : (line v v).arcLength.value = 0 := by
  have hspeed : (line v v).speed = fun _ => 0 := by
    funext t
    simp [speed, derivative, Cubic.derivative, line, Offset.norm, Scalar.sqrt]
  rw [arcLength, hspeed, Quadrature.adaptive_zero]

end Piece

theorem Moments.ofPiece_line_self (center v : Point ℝ) :
    ofPiece center (Piece.line v v) = zero := by
  simp [ofPiece, addPiece, zero, Piece.relativeTo, Piece.line, Piece.derivative, Cubic.derivative,
    Quadrature.gaussLegendre_zero]

namespace Line

/-- The line passes through the point, as far as the solver can tell: its equation is negligible
there beside the coordinates that it is made from. -/
def Hits (l : Line ℝ) (v : Point ℝ) : Prop :=
  |l.side v| ≤ 1e-12 * (l.direction.norm * max |v.x - l.point.x| |v.y - l.point.y|)

variable {l : Line ℝ} {v : Point ℝ}

theorem hits_of_side (h : l.side v = 0) : l.Hits v := by
  rw [Hits, h, abs_zero]
  have hnorm : 0 ≤ l.direction.norm := Real.sqrt_nonneg _
  positivity

theorem hits_iff_covers : l.Hits v ↔ l.Covers v v := by
  simp [Hits, Covers]

/-- A piece that stays at a point coincides with the lines through the point. -/
theorem crossings_line_self_of_hits (h : l.Hits v) :
    l.crossings (Piece.line v v) = .error .coincidentLines :=
  crossings_of_covers (hits_iff_covers.mp h)

theorem crossings_line_self (h : ¬ l.Hits v) : l.crossings (Piece.line v v) = .ok [] := by
  have hcovers : ¬ l.Covers v v := fun hc => h (hits_iff_covers.mpr hc)
  have hpos := magnitude_pos_of_not_covers hcovers
  have hflat : |l.side v - l.side v| < 1e-12 * max |l.side v| |l.side v - l.side v| := by
    rw [sub_self, abs_zero] at hpos ⊢
    positivity
  rw [crossings_of_not_covers hcovers]
  simp only [touches, linearAnswers, if_pos hflat]
  rfl

end Line

namespace Piece

variable {A B : List (Piece ℝ)} {p : Piece ℝ} {d : ℝ} {q : Point ℝ}

theorem totalLength_insert (h : p.arcLength.value = 0) :
    totalLength (A ++ p :: B) = totalLength (A ++ B) := by
  rw [totalLength_append, totalLength_append, totalLength_cons, h, zero_add]

/-- What lies at a distance still does when a piece without length is put in. -/
theorem Reach.insert (hp : p.arcLength.value = 0) (h : Reach (A ++ B) d q) :
    Reach (A ++ p :: B) d q := by
  obtain ⟨front, r, back, s, hsplit, hs, hd, hq⟩ := h
  rcases List.append_eq_append_iff.mp hsplit with ⟨mid, rfl, hB⟩ | ⟨mid, rfl, hback⟩
  · -- The piece that is reached comes after the new one.
    refine ⟨A ++ p :: mid, r, back, s, by rw [hB]; simp, hs, ?_, hq⟩
    rwa [totalLength_insert hp]
  · cases mid with
    | nil =>
      refine ⟨front ++ [p], r, back, s, by simp_all, hs, ?_, hq⟩
      rwa [totalLength_insert hp, List.append_nil]
    | cons r' mid =>
      obtain ⟨rfl, rfl⟩ := List.cons.inj hback
      exact ⟨front, r, mid ++ p :: B, s, by simp, hs, hd, hq⟩

end Piece

theorem Moments.ofPieces_insert {A B : List (Piece ℝ)} {p : Piece ℝ} {center : Point ℝ}
    (h : ofPiece center p = zero) : ofPieces (A ++ p :: B) center = ofPieces (A ++ B) center := by
  simp [ofPieces_eq_sum, h, zero]

namespace Path

/-- A vertex of a polyline of the first path is there twice in the second. -/
inductive Repeats (v : Point ℝ) : Path ℝ → Path ℝ → Prop
  | mk (front back : List (Segment ℝ)) (xs ys : List (Point ℝ)) (h : 2 ≤ (xs ++ v :: ys).length)
      (h' : 2 ≤ (xs ++ v :: v :: ys).length) :
      Repeats v ⟨front ++ .polyline (xs ++ v :: ys) h :: back⟩
        ⟨front ++ .polyline (xs ++ v :: v :: ys) h' :: back⟩

namespace Repeats

variable {v : Point ℝ} {p p' : Path ℝ}

theorem pieces (h : Repeats v p p') :
    ∃ A B, p.pieces = A ++ B ∧ p'.pieces = A ++ Piece.line v v :: B := by
  obtain ⟨front, back, xs, ys, -, -⟩ := h
  refine ⟨front.flatMap Segment.pieces ++
      (neighbours (xs ++ [v])).map fun e => Piece.line e.1 e.2,
    ((neighbours (v :: ys)).map fun e => Piece.line e.1 e.2) ++ back.flatMap Segment.pieces,
    ?_, ?_⟩
  · simp only [Path.pieces, Segment.pieces, List.flatMap_append, List.flatMap_cons,
      neighbours_append xs v ys, List.map_append, List.append_assoc]
  · simp only [Path.pieces, Segment.pieces, List.flatMap_append, List.flatMap_cons,
      neighbours_append xs v (v :: ys), List.map_append, List.append_assoc, neighbours,
      List.map_cons, List.cons_append]

theorem topology (h : Repeats v p p') : p'.topology = p.topology := by
  obtain ⟨front, back, xs, ys, h, h'⟩ := h
  refine Topology.classify_congr ?_
  have hstart : (Segment.polyline (xs ++ v :: v :: ys) h').start =
      (Segment.polyline (xs ++ v :: ys) h).start := by
    cases xs <;> rfl
  have hfinish : (Segment.polyline (xs ++ v :: v :: ys) h').finish =
      (Segment.polyline (xs ++ v :: ys) h).finish := by
    simp [Segment.finish]
  simp only [List.map_append, List.map_cons, hstart, hfinish]

theorem box (h : Repeats v p p') : p'.box = p.box := by
  have hmem : ∀ q, q ∈ p'.controlPoints ↔ q ∈ p.controlPoints := by
    obtain ⟨front, back, xs, ys, -, -⟩ := h
    intro q
    simp [controlPoints, Segment.controlPoints]
  exact (Box.ofPoints_mono fun q hq => (hmem q).mp hq).antisymm
    (Box.ofPoints_mono fun q hq => (hmem q).mpr hq)

theorem length (h : Repeats v p p') : p'.length = p.length := by
  obtain ⟨A, B, hp, hp'⟩ := h.pieces
  rw [length_eq_totalLength, length_eq_totalLength, hp, hp',
    Piece.totalLength_insert (Piece.arcLength_line_self v)]

theorem moments (h : Repeats v p p') : p'.moments = p.moments := by
  obtain ⟨A, B, hp, hp'⟩ := h.pieces
  rw [Path.moments, Path.moments, hp, hp', h.box,
    Moments.ofPieces_insert (Moments.ofPiece_line_self _ v)]

theorem area (h : Repeats v p p') : p'.area = p.area := by
  rw [Path.area, Path.area, isClosed, isClosed, h.topology, h.moments]

theorem centroid (h : Repeats v p p') : p'.centroid = p.centroid := by
  rw [Path.centroid, Path.centroid, h.topology, h.moments, h.box]

theorem isContinuous (h : Repeats v p p') : p'.isContinuous = p.isContinuous := by
  rw [Path.isContinuous, Path.isContinuous, h.topology]

/-- The point at a fraction lies at its distance on both paths, and only one does. -/
theorem pointAtFraction (h : Repeats v p p') (hrule : Quadrature.Positive)
    (hp : p.isContinuous = true) (t : ℝ) : p'.pointAtFraction t = p.pointAtFraction t := by
  have hp' : p'.isContinuous = true := h.isContinuous.trans hp
  have hne := segments_ne_nil_of_isContinuous hp
  have hne' := segments_ne_nil_of_isContinuous hp'
  by_cases ht : t ∈ Set.Icc (0 : ℝ) 1
  · obtain ⟨A, B, hpieces, hpieces'⟩ := h.pieces
    obtain ⟨a, b, -, -, hleads⟩ := leads hp'
    obtain ⟨q, hq, hreach⟩ := exists_reach hrule.toNonneg hne ht
    obtain ⟨q', hq', hreach'⟩ := exists_reach hrule.toNonneg hne' ht
    rw [hpieces] at hreach
    rw [hpieces', h.length] at hreach'
    rw [hpieces'] at hleads
    have hinsert := hreach.insert (Piece.arcLength_line_self v)
    rw [hq, hq', hleads.reach_unique hrule hinsert hreach']
  · rw [pointAtFraction_of_not_mem hne ht, pointAtFraction_of_not_mem hne' ht]

theorem pointAtLength (h : Repeats v p p') (hrule : Quadrature.Positive)
    (hp : p.isContinuous = true) (d : ℝ) : p'.pointAtLength d = p.pointAtLength d := by
  simp only [Path.pointAtLength, isEmpty, h.topology, h.length, h.pointAtFraction hrule hp]

variable {l : Line ℝ}

theorem mergeDistance (h : Repeats v p p') : p'.mergeDistance = p.mergeDistance := by
  rw [Path.mergeDistance, Path.mergeDistance, h.box]

theorem crossings (h : Repeats v p p') (hl : ¬ l.Hits v) : p'.crossings l = p.crossings l := by
  obtain ⟨A, B, hp, hp'⟩ := h.pieces
  simp only [Path.crossings, hp, hp', h.mergeDistance, List.foldlM_append, List.foldlM_cons,
    Line.crossings_line_self hl]
  rfl

/-- A line through the repeated vertex coincides with the new piece. -/
theorem crossings_of_hits (h : Repeats v p p') (hl : l.Hits v) :
    p'.crossings l = .error .coincidentLines := by
  obtain ⟨A, B, -, hp'⟩ := h.pieces
  cases hcross : p'.crossings l with
  | error e => rw [eq_coincidentLines_of_crossings hcross]
  | ok points =>
    rw [Path.crossings, hp', List.foldlM_append] at hcross
    obtain ⟨found, -, hrest⟩ := bind_eq_ok.mp hcross
    rw [List.foldlM_cons, Line.crossings_line_self_of_hits hl] at hrest
    cases hrest

end Repeats

end Path

end Drafting
