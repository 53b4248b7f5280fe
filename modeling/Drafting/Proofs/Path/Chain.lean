import Mathlib.Algebra.BigOperators.Group.List.Basic
import Mathlib.Tactic.Ring
import Drafting.Path
import Drafting.Proofs.Exact

/-!
# Connected pieces

Pieces lead from one point to another when the first starts at the one, the last ends at the
other, and each starts where the one before it ends. The pieces of a segment lead from its
start to its finish. So those of a connected path do, and those of a closed path lead back to
where they start.

How segments connect is decided by equality of points. It stays when the points are replaced
and different ones stay different.
-/

namespace Drafting

section
variable {K : Type}

theorem Segment.start_mapPoints (f : Point K → Point K) (s : Segment K) :
    (s.mapPoints f).start = f s.start := by
  cases s with
  | polyline points h => simp [mapPoints, start]
  | cubic a b c d => rfl

theorem Segment.finish_mapPoints (f : Point K → Point K) (s : Segment K) :
    (s.mapPoints f).finish = f s.finish := by
  cases s with
  | polyline points h => simp [mapPoints, finish]
  | cubic a b c d => rfl

end

variable [ExactTables]

theorem Point.beq_iff {p q : Point ℝ} : (p == q) = true ↔ p = q := by
  have h : (p == q) = (p.x == q.x && p.y == q.y) := rfl
  simp [h, Point.ext_iff]

theorem Point.beq_map {f : Point ℝ → Point ℝ} (hf : Function.Injective f) (p q : Point ℝ) :
    (f p == f q) = (p == q) := by
  rw [Bool.eq_iff_iff, beq_iff, beq_iff, hf.eq_iff]

namespace Topology

variable {f : Point ℝ → Point ℝ}

theorem connected_map (hf : Function.Injective f) (segments : List (Segment ℝ)) :
    connected (segments.map (·.mapPoints f)) = connected segments := by
  simp only [connected, neighbours_map, List.all_map]
  congr 1
  funext e
  obtain ⟨s, t⟩ := e
  simp only [Function.comp, Segment.start_mapPoints, Segment.finish_mapPoints,
    Point.beq_map hf]

/-- Segments connect as before when different points stay different. -/
theorem classify_map (hf : Function.Injective f) (segments : List (Segment ℝ)) :
    classify (segments.map (·.mapPoints f)) = classify segments := by
  simp only [classify, List.head?_map, List.getLast?_map, connected_map hf]
  cases segments.head? with
  | none => rfl
  | some first =>
    cases segments.getLast? with
    | none => rfl
    | some last =>
      simp only [Option.map_some, Segment.start_mapPoints, Segment.finish_mapPoints,
        Point.beq_map hf]

end Topology

namespace Piece

variable {a b c : Point ℝ} {ps qs : List (Piece ℝ)}

theorem eval_line_zero (a b : Point ℝ) : (line a b).eval 0 = a := by
  ext <;> simp [line, eval, Cubic.eval]

theorem eval_line_one (a b : Point ℝ) : (line a b).eval 1 = b := by
  ext <;> simp [line, eval, Cubic.eval]

theorem eval_cubic_zero (a b c d : Point ℝ) : (cubic a b c d).eval 0 = a := by
  ext <;> simp [cubic, bezier, eval, Cubic.eval]

theorem eval_cubic_one (a b c d : Point ℝ) : (cubic a b c d).eval 1 = d := by
  ext
  · simp only [cubic, bezier, eval, Cubic.eval]
    ring
  · simp only [cubic, bezier, eval, Cubic.eval]
    ring

/-- The pieces lead from a point to a point, each from where the one before it ends. -/
inductive Leads : Point ℝ → List (Piece ℝ) → Point ℝ → Prop
  | nil (a : Point ℝ) : Leads a [] a
  | cons {a b : Point ℝ} {p : Piece ℝ} {ps : List (Piece ℝ)} :
    p.eval 0 = a → Leads (p.eval 1) ps b → Leads a (p :: ps) b

theorem Leads.append (h : Leads a ps b) (h' : Leads b qs c) : Leads a (ps ++ qs) c := by
  induction h with
  | nil => exact h'
  | cons h0 _ ih => exact .cons h0 (ih h')

theorem Leads.eval_head? (h : Leads a ps b) {p : Piece ℝ} (hp : ps.head? = some p) :
    p.eval 0 = a := by
  cases h with
  | nil => cases hp
  | cons h0 _ =>
    cases hp
    exact h0

theorem Leads.eval_getLast? (h : Leads a ps b) {p : Piece ℝ} (hp : ps.getLast? = some p) :
    p.eval 1 = b := by
  induction h with
  | nil => cases hp
  | @cons a b q qs _ h ih =>
    cases h with
    | nil =>
      cases hp
      rfl
    | cons => exact ih (by simpa using hp)

/-- The changes of a quantity along the pieces add up to its change between the ends. -/
theorem Leads.sum_sub (h : Leads a ps b) (F : Point ℝ → ℝ) :
    (ps.map fun p => F (p.eval 1) - F (p.eval 0)).sum = F b - F a := by
  induction h with
  | nil => simp
  | cons h0 _ ih =>
    rw [List.map_cons, List.sum_cons, ih, h0]
    ring

theorem Leads.sum_eq (h : Leads a ps a) {G H : Piece ℝ → ℝ} {F : Point ℝ → ℝ}
    (hF : ∀ p, G p = H p + (F (p.eval 1) - F (p.eval 0))) : (ps.map G).sum = (ps.map H).sum := by
  have hclosed := h.sum_sub F
  rw [sub_self] at hclosed
  rw [List.map_congr_left fun p _ => hF p, List.sum_map_add, hclosed, add_zero]

end Piece

namespace Segment

theorem leads_polyline (points : List (Point ℝ)) (h : points ≠ []) :
    Piece.Leads (points.head h) ((neighbours points).map fun (a, b) => Piece.line a b)
      (points.getLast h) := by
  fun_induction neighbours points with
  | case1 a b rest ih =>
    refine .cons (Piece.eval_line_zero a b) ?_
    rw [Piece.eval_line_one]
    exact ih (List.cons_ne_nil b rest)
  | case2 points hshort =>
    rcases points with _ | ⟨a, _ | ⟨b, rest⟩⟩
    · exact absurd rfl h
    · exact .nil a
    · exact absurd rfl (hshort a b rest)

theorem leads (s : Segment ℝ) : Piece.Leads s.start s.pieces s.finish := by
  cases s with
  | polyline points h => exact leads_polyline points _
  | cubic a b c d =>
    refine .cons (Piece.eval_cubic_zero a b c d) ?_
    rw [Piece.eval_cubic_one]
    exact .nil d

theorem pieces_ne_nil (s : Segment ℝ) : s.pieces ≠ [] := by
  cases s with
  | polyline points h =>
    rcases points with _ | ⟨a, _ | ⟨b, rest⟩⟩
    · simp at h
    · simp at h
    · simp [pieces, neighbours]
  | cubic a b c d => simp [pieces]

end Segment

namespace Path

variable {p : Path ℝ}

theorem pieces_ne_nil (hp : p.segments ≠ []) : p.pieces ≠ [] := by
  obtain ⟨s, rest, hs⟩ := List.exists_cons_of_ne_nil hp
  simp [pieces, hs, s.pieces_ne_nil]

theorem start_eq_head? (p : Path ℝ) : p.start = p.pieces.head?.map fun q => q.eval 0 := by
  cases hs : p.segments with
  | nil => simp [start, pieces, hs]
  | cons s rest =>
    obtain ⟨q, qs, hq⟩ := List.exists_cons_of_ne_nil s.pieces_ne_nil
    have h0 := s.leads.eval_head? (p := q) (by rw [hq]; rfl)
    simp [start, pieces, hs, hq, h0]

theorem finish_eq_getLast? (p : Path ℝ) :
    p.finish = p.pieces.getLast?.map fun q => q.eval 1 := by
  rcases List.eq_nil_or_concat p.segments with hs | ⟨front, s, hs⟩
  · simp [finish, pieces, hs]
  · obtain ⟨qs, q, hq⟩ := (List.eq_nil_or_concat s.pieces).resolve_left s.pieces_ne_nil
    have h1 := s.leads.eval_getLast? (p := q) (by simp [hq])
    simp [finish, pieces, hs, hq, h1]

theorem pointAtFraction_one {q : Point ℝ} (h : p.finish = some q) :
    p.pointAtFraction 1 = .ok q := by
  have hrange : Scalar.within (1 : ℝ) 0 1 = true := Scalar.within_iff.mpr ⟨zero_le_one, le_rfl⟩
  simp [pointAtFraction, h, hrange]

/-- By induction on the segments, each of which starts where the one before it ends. -/
theorem leads_of_connected (s : Segment ℝ) (rest : List (Segment ℝ))
    (h : Topology.connected (s :: rest) = true) :
    Piece.Leads s.start ((s :: rest).flatMap Segment.pieces)
      ((s :: rest).getLast (List.cons_ne_nil s rest)).finish := by
  induction rest generalizing s with
  | nil => simpa using s.leads
  | cons t rest ih =>
    simp only [Topology.connected, neighbours, List.all_cons, Bool.and_eq_true] at h
    refine s.leads.append ?_
    rw [Point.beq_iff.mp h.1]
    exact ih t h.2

section
variable {s : Segment ℝ} {rest : List (Segment ℝ)}

omit [ExactTables] in
theorem start_cons (hs : p.segments = s :: rest) : p.start = some s.start := by
  rw [start, hs]
  rfl

omit [ExactTables] in
theorem finish_cons (hs : p.segments = s :: rest) :
    p.finish = some ((s :: rest).getLast (List.cons_ne_nil s rest)).finish := by
  rw [finish, hs, List.getLast?_eq_some_getLast]
  rfl

theorem topology_cons (hs : p.segments = s :: rest) :
    p.topology =
      if !Topology.connected (s :: rest) then .group
      else if ((s :: rest).getLast (List.cons_ne_nil s rest)).finish == s.start then .closed
      else .opened := by
  rw [topology, hs, Topology.classify, List.head?_cons, List.getLast?_eq_some_getLast]

theorem topology_of_ne {t : Segment ℝ} (hs : p.segments = s :: t :: rest)
    (hne : s.finish ≠ t.start) : p.topology = .group := by
  have hends : (s.finish == t.start) = false := by
    rwa [Bool.eq_false_iff, ne_eq, Point.beq_iff]
  rw [topology_cons hs, if_pos (by simp [Topology.connected, neighbours, hends])]

end

theorem segments_ne_nil_of_topology (hp : p.topology ≠ .empty) : p.segments ≠ [] := by
  intro hs
  exact hp (by rw [topology, hs]; rfl)

theorem segments_ne_nil_of_isContinuous (h : p.isContinuous = true) : p.segments ≠ [] := by
  refine segments_ne_nil_of_topology fun he => ?_
  rw [isContinuous, he] at h
  cases h

theorem connected_of_isContinuous (h : p.isContinuous = true) :
    Topology.connected p.segments = true := by
  obtain ⟨s, rest, hs⟩ := List.exists_cons_of_ne_nil (segments_ne_nil_of_isContinuous h)
  rw [hs]
  by_contra hc
  rw [isContinuous, topology_cons hs, if_pos (by simpa using hc)] at h
  cases h

theorem leads (h : p.isContinuous = true) :
    ∃ a b, p.start = some a ∧ p.finish = some b ∧ Piece.Leads a p.pieces b := by
  obtain ⟨s, rest, hs⟩ := List.exists_cons_of_ne_nil (segments_ne_nil_of_isContinuous h)
  refine ⟨_, _, start_cons hs, finish_cons hs, ?_⟩
  rw [pieces, hs]
  exact leads_of_connected s rest (hs ▸ connected_of_isContinuous h)

theorem isContinuous_of_isClosed (h : p.isClosed = true) : p.isContinuous = true := by
  rw [isContinuous, beq_iff_eq.mp h]
  rfl

theorem finish_eq_start_of_isClosed (h : p.isClosed = true) : p.finish = p.start := by
  have ht : p.topology = .closed := beq_iff_eq.mp h
  obtain ⟨s, rest, hs⟩ := List.exists_cons_of_ne_nil
    (segments_ne_nil_of_topology (p := p) (by rw [ht]; decide))
  rw [finish_cons hs, start_cons hs]
  rw [topology_cons hs] at ht
  split_ifs at ht with _ hends
  exact congrArg some (Point.beq_iff.mp hends)

/-- The pieces of a closed path lead back to where they start. -/
theorem leads_of_isClosed (h : p.isClosed = true) : ∃ a, Piece.Leads a p.pieces a := by
  obtain ⟨a, b, hstart, hfinish, hleads⟩ := leads (isContinuous_of_isClosed h)
  rw [finish_eq_start_of_isClosed h, hstart, Option.some.injEq] at hfinish
  exact ⟨a, hfinish ▸ hleads⟩

end Path

end Drafting
