import Drafting.Proofs.Path.Moments
import Drafting.Proofs.Path.Traversal
import Drafting.Proofs.Box

/-!
# Reversed paths

A reversed path has the reversed pieces in the opposite order. A reversed piece runs through
the mirror image of its parameters, with the opposite tangents, so its length is the same and
its part of the area and the moments has the opposite sign.

A point lies at a distance from the start of the reversed path exactly when it lies at the rest
of the length from the start of the path. On connected pieces only one point lies at a distance,
although several pieces with parameters may: they are the end of a piece, pieces without length
after it, and the start of the next one.
-/

namespace Drafting

section

theorem neighbours_concat {α : Type} (l : List α) (a b : α) :
    neighbours (l ++ [a, b]) = neighbours (l ++ [a]) ++ [(a, b)] := by
  induction l with
  | nil => rfl
  | cons c l ih =>
    cases l with
    | nil => rfl
    | cons d l =>
      simp only [List.cons_append, neighbours] at ih ⊢
      rw [ih]

theorem neighbours_reverse {α : Type} (l : List α) :
    neighbours l.reverse = ((neighbours l).map Prod.swap).reverse := by
  fun_induction neighbours l with
  | case1 a b rest ih =>
    rw [List.map_cons, List.reverse_cons (a := Prod.swap (a, b)), ← ih, List.reverse_cons,
      List.reverse_cons, List.append_assoc, List.singleton_append, neighbours_concat]
    rfl
  | case2 l h =>
    rcases l with _ | ⟨a, _ | ⟨b, rest⟩⟩
    · rfl
    · rfl
    · exact absurd rfl (h a b rest)

variable [ExactTables]

namespace Cubic

/-- The polynomial of the mirrored parameter. -/
noncomputable def reverse (c : Cubic ℝ) : Cubic ℝ :=
  ⟨c.c0 + c.c1 + c.c2 + c.c3, -(c.c1 + 2 * c.c2 + 3 * c.c3), c.c2 + 3 * c.c3, -c.c3⟩

theorem eval_reverse (c : Cubic ℝ) (t : ℝ) : c.reverse.eval t = c.eval (1 - t) := by
  simp only [eval, reverse]
  ring

theorem derivative_reverse (c : Cubic ℝ) (t : ℝ) :
    c.reverse.derivative t = -c.derivative (1 - t) := by
  simp only [derivative, reverse]
  ring

end Cubic

namespace Piece

noncomputable def reverse (p : Piece ℝ) : Piece ℝ := ⟨p.x.reverse, p.y.reverse⟩

theorem eval_reverse (p : Piece ℝ) (t : ℝ) : p.reverse.eval t = p.eval (1 - t) := by
  simp only [eval, reverse, Cubic.eval_reverse]

theorem derivative_reverse (p : Piece ℝ) (t : ℝ) :
    p.reverse.derivative t = -p.derivative (1 - t) := by
  simp only [derivative, reverse, Cubic.derivative_reverse]
  rfl

theorem line_reverse (a b : Point ℝ) : line b a = (line a b).reverse := by
  ext <;> simp [line, reverse, Cubic.reverse]

theorem cubic_reverse (a b c d : Point ℝ) : cubic d c b a = (cubic a b c d).reverse := by
  simp only [cubic, bezier, reverse, Cubic.reverse]
  ext <;> ring

theorem relativeTo_reverse (p : Piece ℝ) (center : Point ℝ) :
    p.reverse.relativeTo center = (p.relativeTo center).reverse := by
  simp only [relativeTo, reverse, Cubic.reverse]
  ext <;> ring

theorem speed_reverse (p : Piece ℝ) (t : ℝ) : p.reverse.speed t = p.speed (1 - t) := by
  rw [speed, derivative_reverse]
  simp [speed, Offset.norm]

theorem arcLength_reverse (p : Piece ℝ) : p.reverse.arcLength = p.arcLength := by
  rw [arcLength, funext p.speed_reverse, Quadrature.adaptive_reflect, sub_self, sub_zero]
  rfl

end Piece

namespace Moments

theorem ofPiece_reverse (center : Point ℝ) (p : Piece ℝ) :
    ofPiece center p.reverse = ⟨-(ofPiece center p).area, -(ofPiece center p).mx,
      -(ofPiece center p).my⟩ := by
  -- Integrands that are linear in the tangent change their sign and are mirrored.
  have hrule (g : ℝ → ℝ) :
      Quadrature.gaussLegendre (fun t => -g (1 - t)) 0 1 = -Quadrature.gaussLegendre g 0 1 := by
    rw [Quadrature.gaussLegendre_neg, Quadrature.gaussLegendre_reflect, sub_self, sub_zero]
  simp only [ofPiece, addPiece, zero, Piece.relativeTo_reverse, Piece.eval_reverse,
    Piece.derivative_reverse, Offset.neg_dx, Offset.neg_dy, mul_neg, ← neg_add]
  generalize p.relativeTo center = q
  rw [hrule fun t => (q.eval t).y * (q.derivative t).dx + 2 * (q.eval t).x * (q.derivative t).dy,
    hrule fun t => (q.eval t).x * (q.eval t).x * (q.derivative t).dy,
    hrule fun t => (q.eval t).y * (q.eval t).y * (q.derivative t).dx]
  ext
  · simp
  · simp
    ring
  · simp
    ring

/-- The reversed pieces bound the region the other way round. -/
theorem ofPieces_reverse (ps : List (Piece ℝ)) (center : Point ℝ) :
    ofPieces (ps.map Piece.reverse).reverse center =
      ⟨-(ofPieces ps center).area, -(ofPieces ps center).mx, -(ofPieces ps center).my⟩ := by
  simp only [ofPieces_eq_sum, List.map_reverse, List.sum_reverse, List.map_map, Function.comp_def,
    ofPiece_reverse, List.sum_neg]

end Moments

theorem Box.ofPoints_reverse (ps : List (Point ℝ)) : ofPoints ps.reverse = ofPoints ps :=
  eq_of_within_iff fun d => by simp only [ofPoints_within_iff, List.mem_reverse]

namespace Segment

omit [ExactTables] in
theorem start_reverse (s : Segment ℝ) : s.reverse.start = s.finish := by
  cases s with
  | polyline points h => exact List.head_reverse _
  | cubic a b c d => rfl

omit [ExactTables] in
theorem finish_reverse (s : Segment ℝ) : s.reverse.finish = s.start := by
  cases s with
  | polyline points h => exact List.getLast_reverse _
  | cubic a b c d => rfl

omit [ExactTables] in
theorem controlPoints_reverse (s : Segment ℝ) :
    s.reverse.controlPoints = s.controlPoints.reverse := by
  cases s <;> rfl

theorem pieces_reverse (s : Segment ℝ) :
    s.reverse.pieces = (s.pieces.map Piece.reverse).reverse := by
  cases s with
  | polyline points h =>
    simp only [reverse, pieces, neighbours_reverse, List.map_reverse, List.map_map]
    congr 2
    funext e
    exact Piece.line_reverse e.1 e.2
  | cubic a b c d => exact congrArg (fun p => [p]) (Piece.cubic_reverse a b c d)

theorem meet_reverse (s t : Segment ℝ) :
    (t.reverse.finish == s.reverse.start) = (s.finish == t.start) := by
  rw [finish_reverse, start_reverse, Bool.eq_iff_iff, Point.beq_iff, Point.beq_iff, eq_comm]

end Segment

namespace Topology

theorem connected_reverse (segments : List (Segment ℝ)) :
    connected (segments.reverse.map Segment.reverse) = connected segments := by
  simp only [connected, neighbours_map, neighbours_reverse, List.all_map, List.all_reverse,
    Function.comp_def, Prod.fst_swap, Prod.snd_swap, Segment.meet_reverse]

theorem classify_reverse (segments : List (Segment ℝ)) :
    classify (segments.reverse.map Segment.reverse) = classify segments := by
  unfold classify
  rw [List.head?_map, List.getLast?_map, List.head?_reverse, List.getLast?_reverse,
    connected_reverse]
  cases segments.head? with
  | none => cases segments.getLast? <;> rfl
  | some first =>
    cases segments.getLast? with
    | none => rfl
    | some last => simp only [Option.map_some, Segment.meet_reverse]

end Topology

namespace Path

omit [ExactTables] in
theorem reverse_reverse (p : Path ℝ) : p.reverse.reverse = p := by
  ext
  simp [reverse]

theorem topology_reverse (p : Path ℝ) : p.reverse.topology = p.topology :=
  Topology.classify_reverse p.segments

omit [ExactTables] in
theorem controlPoints_reverse (p : Path ℝ) :
    p.reverse.controlPoints = p.controlPoints.reverse := by
  simp only [controlPoints, reverse, List.flatMap_map, List.reverse_flatMap, Function.comp_def,
    Segment.controlPoints_reverse]

theorem pieces_reverse (p : Path ℝ) : p.reverse.pieces = (p.pieces.map Piece.reverse).reverse := by
  simp only [pieces, reverse, List.flatMap_map, List.map_flatMap, List.reverse_flatMap,
    Function.comp_def, Segment.pieces_reverse]

theorem box_reverse (p : Path ℝ) : p.reverse.box = p.box := by
  rw [box, controlPoints_reverse, Box.ofPoints_reverse]
  rfl

theorem lengths_reverse (p : Path ℝ) :
    p.reverse.lengthTable.lengths = p.lengthTable.lengths.reverse := by
  simp only [lengths_eq, pieces_reverse, List.map_reverse, List.map_map, Function.comp_def,
    Piece.arcLength_reverse]

theorem length_reverse (p : Path ℝ) : p.reverse.length = p.length := by
  rw [length_eq, length_eq, lengths_reverse, List.sum_reverse]

theorem moments_reverse (p : Path ℝ) :
    p.reverse.moments = ⟨-p.moments.area, -p.moments.mx, -p.moments.my⟩ := by
  rw [moments, pieces_reverse, box_reverse, Moments.ofPieces_reverse]
  rfl

theorem isClosed_reverse (p : Path ℝ) : p.reverse.isClosed = p.isClosed := by
  rw [isClosed, topology_reverse]
  rfl

theorem area_reverse (p : Path ℝ) : p.reverse.area = p.area.map fun a => -a := by
  rw [area, area, isClosed_reverse, moments_reverse]
  split_ifs <;> rfl

/-- Both signs cancel in the quotients. -/
theorem centroid_reverse (p : Path ℝ) : p.reverse.centroid = p.centroid := by
  simp only [centroid, topology_reverse, moments_reverse, box_reverse, Scalar.abs_eq_abs, abs_neg,
    Moments.centroid, neg_div_neg_eq]

end Path

namespace Piece

noncomputable def totalLength (ps : List (Piece ℝ)) : ℝ := (ps.map fun p => p.arcLength.value).sum

theorem totalLength_append (ps qs : List (Piece ℝ)) :
    totalLength (ps ++ qs) = totalLength ps + totalLength qs := by
  simp [totalLength]

theorem totalLength_cons (p : Piece ℝ) (ps : List (Piece ℝ)) :
    totalLength (p :: ps) = p.arcLength.value + totalLength ps := by
  simp [totalLength]

theorem totalLength_nonneg (h : Quadrature.Nonneg) (ps : List (Piece ℝ)) : 0 ≤ totalLength ps :=
  List.sum_nonneg (List.forall_mem_map.mpr fun p _ => p.arcLength_nonneg h)

theorem totalLength_reverse (ps : List (Piece ℝ)) :
    totalLength (ps.map reverse).reverse = totalLength ps := by
  simp only [totalLength, List.map_reverse, List.map_map, Function.comp_def, arcLength_reverse,
    List.sum_reverse]

/-- The point is that of a piece at a parameter which divides the length of the piece so that
the distance from the start of the pieces is as given. -/
def Reach (ps : List (Piece ℝ)) (d : ℝ) (q : Point ℝ) : Prop :=
  ∃ front p back s, ps = front ++ p :: back ∧ s ∈ Set.Icc (0 : ℝ) 1 ∧
    totalLength front + s * p.arcLength.value = d ∧ p.eval s = q

variable {ps : List (Piece ℝ)} {a b q q' : Point ℝ} {d : ℝ}

/-- The rest of the length lies before the point on the reversed pieces. -/
theorem Reach.reverse (h : Reach ps d q) :
    Reach (ps.map Piece.reverse).reverse (totalLength ps - d) q := by
  obtain ⟨front, p, back, s, rfl, hs, rfl, rfl⟩ := h
  refine ⟨(back.map Piece.reverse).reverse, p.reverse, (front.map Piece.reverse).reverse, 1 - s,
    by simp, ⟨by linarith [hs.2], by linarith [hs.1]⟩, ?_, ?_⟩
  · rw [totalLength_reverse, arcLength_reverse, totalLength_append, totalLength_cons]
    ring
  · rw [eval_reverse, sub_sub_cancel]

theorem Leads.eq_of_totalLength (hrule : Quadrature.Positive) (h : Leads a ps b)
    (h0 : totalLength ps = 0) : a = b := by
  induction h with
  | nil => rfl
  | @cons a b p ps hstart _ ih =>
    rw [totalLength_cons] at h0
    obtain ⟨hp, hps⟩ := (add_eq_zero_iff_of_nonneg (p.arcLength_nonneg hrule.toNonneg)
      (totalLength_nonneg hrule.toNonneg ps)).mp h0
    rw [← hstart, p.eval_eq_of_arcLength hrule hp 0 1]
    exact ih hps

theorem Leads.of_append {qs : List (Piece ℝ)} (h : Leads a (ps ++ qs) b) :
    ∃ c, Leads a ps c ∧ Leads c qs b := by
  induction ps generalizing a with
  | nil => exact ⟨a, .nil a, h⟩
  | cons p ps ih =>
    obtain _ | ⟨hstart, hrest⟩ := h
    obtain ⟨c, hps, hqs⟩ := ih hrest
    exact ⟨c, .cons hstart hps, hqs⟩

/-- Parameters whose distances on a piece are the same have the same point. -/
theorem eval_eq_of_mul_arcLength (hrule : Quadrature.Positive) {p : Piece ℝ} {s t : ℝ}
    (h : s * p.arcLength.value = t * p.arcLength.value) : p.eval s = p.eval t := by
  rcases mul_eq_mul_right_iff.mp h with rfl | h0
  · rfl
  · exact p.eval_eq_of_arcLength hrule h0 s t

/-- Between a place and a later one with the same distance nothing has a length. -/
theorem Leads.eval_eq_of_later (hrule : Quadrature.Positive) {front mid back : List (Piece ℝ)}
    {p p' : Piece ℝ} {s s' : ℝ} (h : Leads a (front ++ p :: (mid ++ p' :: back)) b) (hs : s ≤ 1)
    (hs' : 0 ≤ s') (hd : totalLength front + s * p.arcLength.value =
      totalLength (front ++ p :: mid) + s' * p'.arcLength.value) : p.eval s = p'.eval s' := by
  obtain ⟨_, -, hpiece⟩ := h.of_append
  obtain _ | ⟨-, hrest⟩ := hpiece
  obtain ⟨c, hmid, hlater⟩ := hrest.of_append
  obtain _ | ⟨hstart, -⟩ := hlater
  rw [totalLength_append, totalLength_cons] at hd
  have hend : 0 ≤ (1 - s) * p.arcLength.value :=
    mul_nonneg (sub_nonneg.mpr hs) (p.arcLength_nonneg hrule.toNonneg)
  have hbegin : 0 ≤ s' * p'.arcLength.value := mul_nonneg hs' (p'.arcLength_nonneg hrule.toNonneg)
  have hbetween := totalLength_nonneg hrule.toNonneg mid
  calc p.eval s = p.eval 1 := eval_eq_of_mul_arcLength hrule (by linarith)
    _ = c := hmid.eq_of_totalLength hrule (by linarith)
    _ = p'.eval 0 := hstart.symm
    _ = p'.eval s' := eval_eq_of_mul_arcLength hrule (by linarith)

/-- Connected pieces have only one point at a distance. -/
theorem Leads.reach_unique (hrule : Quadrature.Positive) (h : Leads a ps b) (hq : Reach ps d q)
    (hq' : Reach ps d q') : q = q' := by
  obtain ⟨front, p, back, s, rfl, hs, hd, rfl⟩ := hq
  obtain ⟨front', p', back', s', hsplit, hs', hd', rfl⟩ := hq'
  rcases List.append_eq_append_iff.mp hsplit with ⟨mid, rfl, hmid⟩ | ⟨mid, rfl, hmid⟩
  · cases mid with
    | nil =>
      obtain ⟨rfl, -⟩ := List.cons.inj hmid
      rw [List.append_nil] at hd'
      exact eval_eq_of_mul_arcLength hrule (by linarith)
    | cons r mid =>
      obtain ⟨rfl, rfl⟩ := List.cons.inj hmid
      exact h.eval_eq_of_later hrule hs.2 hs'.1 (hd.trans hd'.symm)
  · cases mid with
    | nil =>
      obtain ⟨rfl, -⟩ := List.cons.inj hmid
      rw [List.append_nil] at hd
      exact eval_eq_of_mul_arcLength hrule (by linarith)
    | cons r mid =>
      obtain ⟨rfl, rfl⟩ := List.cons.inj hmid
      rw [hsplit] at h
      exact (h.eval_eq_of_later hrule hs'.2 hs.1 (hd'.trans hd.symm)).symm

end Piece

namespace Path

variable {p : Path ℝ}

theorem length_eq_totalLength (p : Path ℝ) : p.length = Piece.totalLength p.pieces := by
  rw [length_eq, lengths_eq]
  rfl

theorem LiesAt.reach {d s : ℝ} {i : ℕ} {q : Point ℝ} (h : p.LiesAt d i s q) :
    Piece.Reach p.pieces d q := by
  obtain ⟨⟨piece, hpiece, rfl⟩, hs, l, hl, hd⟩ := h
  obtain ⟨hi, rfl⟩ := List.getElem?_eq_some_iff.mp hpiece
  rw [lengths_eq, List.getElem?_map, hpiece, Option.map_some, Option.some.injEq] at hl
  refine ⟨p.pieces.take i, p.pieces[i], p.pieces.drop (i + 1), s, by simp, hs, ?_, rfl⟩
  rw [← hd, lengths_eq, ← List.map_take, ← hl]
  rfl

/-- A fraction is answered by a point at that part of the length, the end included. -/
theorem exists_reach (hrule : Quadrature.Nonneg) (hp : p.segments ≠ []) {t : ℝ}
    (ht : t ∈ Set.Icc (0 : ℝ) 1) :
    ∃ q, p.pointAtFraction t = .ok q ∧ Piece.Reach p.pieces (t * p.length) q := by
  rcases eq_or_ne t 1 with rfl | h1
  · obtain ⟨s, rest, hs⟩ := List.exists_cons_of_ne_nil hp
    have hfinish := finish_cons hs
    rw [one_mul]
    exact ⟨_, pointAtFraction_one hfinish, (liesAt_finish hfinish).reach⟩
  · obtain ⟨i, s, q, hq, hlies, -⟩ := exists_liesAt hrule hp ht h1
    exact ⟨q, hq, hlies.reach⟩

theorem pointAtFraction_reverse (hrule : Quadrature.Positive) (hp : p.isContinuous = true) {t : ℝ}
    (ht : t ∈ Set.Icc (0 : ℝ) 1) : p.reverse.pointAtFraction (1 - t) = p.pointAtFraction t := by
  have hne : p.segments ≠ [] := segments_ne_nil_of_isContinuous hp
  obtain ⟨a, b, -, -, hleads⟩ := leads hp
  obtain ⟨q, hq, hreach⟩ := exists_reach hrule.toNonneg hne ht
  obtain ⟨q', hq', hreach'⟩ := exists_reach (p := p.reverse) hrule.toNonneg
    (by simpa [reverse] using hne) (t := 1 - t) ⟨by linarith [ht.2], by linarith [ht.1]⟩
  -- The rest of the length before the point from the one end is what lies before it from the other.
  have hback : Piece.Reach p.pieces (t * p.length) q' := by
    have h := hreach'.reverse
    rw [← length_eq_totalLength, ← pieces_reverse, reverse_reverse, length_reverse] at h
    convert h using 1
    ring
  rw [hq, hq', hleads.reach_unique hrule hreach hback]

/-- Reversing a path twice gives the path. The reversed path connects in the same way, has the
same box, the same length with those of the pieces in the opposite order, the opposite area and
the same centroid. Where the path is connected, a fraction of it is answered as the rest of the
reversed one, also at places that several pieces share. -/
theorem reverse_mirrors (p : Path ℝ) :
    p.reverse.reverse = p ∧ p.reverse.topology = p.topology ∧ p.reverse.box = p.box ∧
      p.reverse.length = p.length ∧
      p.reverse.lengthTable.lengths = p.lengthTable.lengths.reverse ∧
      p.reverse.area = (p.area.map fun a => -a) ∧ p.reverse.centroid = p.centroid ∧
      (Quadrature.Positive → p.isContinuous = true → ∀ t ∈ Set.Icc (0 : ℝ) 1,
        p.reverse.pointAtFraction (1 - t) = p.pointAtFraction t) :=
  ⟨p.reverse_reverse, p.topology_reverse, p.box_reverse, p.length_reverse, p.lengths_reverse,
    p.area_reverse, p.centroid_reverse, fun hrule hp _ ht => pointAtFraction_reverse hrule hp ht⟩

end Path
end

/-- A closed path of a polyline that stays at a vertex and a curve back to the start. -/
theorem Path.reverse_mirrors_stationary :
    let _ : ExactTables := ⟨Scalar.legendreDigits, fun _ => ⟨false, 0, 0⟩⟩
    let p : Path ℝ := ⟨[.polyline [⟨0, 0⟩, ⟨2, 1⟩, ⟨2, 1⟩] (by simp),
      .cubic ⟨2, 1⟩ ⟨3, 3⟩ ⟨1, 4⟩ ⟨0, 0⟩]⟩
    Quadrature.Positive ∧ p.isContinuous = true ∧ p.reverse.topology = .closed ∧
      ∀ t ∈ Set.Icc (0 : ℝ) 1, p.reverse.pointAtFraction (1 - t) = p.pointAtFraction t := by
  intro _ p
  have hrule : Quadrature.Positive := Quadrature.positive_of_legendre rfl
  have htopology : p.topology = .closed := by
    rw [Path.topology_cons rfl]
    simp [Topology.connected, neighbours, Segment.finish, Segment.start, Point.beq_iff]
  have hp : p.isContinuous = true := by
    rw [Path.isContinuous, htopology]
    rfl
  obtain ⟨-, hsame, -, -, -, -, -, hpoints⟩ := reverse_mirrors p
  exact ⟨hrule, hp, hsame.trans htopology, hpoints hrule hp⟩

end Drafting
