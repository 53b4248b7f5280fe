import Mathlib.Tactic.Choose
import Mathlib.Tactic.SplitIfs
import Drafting.Path
import Drafting.Proofs.Outcome

/-!
# Crossings of a path

The pieces of a path answer one after the other, each with its own points, and a point is
left out when it is close to one that was kept before. A piece that coincides with the line
ends the search, and nothing else does.

Closeness is not transitive, so the kept points do not stand for classes of close points.
They are apart from each other, and each point that was found is close to one of them. Both
hold after every point, whichever way it went, and in any arithmetic.
-/

namespace Drafting

variable {K : Type} [Scalar K]

/-- The only way to fail is that the line coincides with the piece. -/
theorem Line.eq_coincidentLines_of_crossings {l : Line K} {piece : Piece K} {e : IntersectionError}
    (h : l.crossings piece = .error e) : e = .coincidentLines := by
  unfold crossings parameters Cubic.roots at h
  dsimp only at h
  split_ifs at h
  · cases h
    rfl
  · cases h
    rfl
  · cases h

namespace Path

section
variable {m : K} {p : Point K} {points kept : List (Point K)}

theorem mergePoints_append (m : K) (found ps qs : List (Point K)) :
    mergePoints m found (ps ++ qs) = mergePoints m (mergePoints m found ps) qs :=
  List.foldl_append

theorem mergePoints_cons_of_close {found : List (Point K)} (h : ∃ q ∈ found, (q - p).length ≤ m)
    (ps : List (Point K)) : mergePoints m found (p :: ps) = mergePoints m found ps := by
  have hany : (found.any fun q => decide ((q - p).length ≤ m)) = true := by
    obtain ⟨q, hq, hle⟩ := h
    exact List.any_eq_true.mpr ⟨q, hq, decide_eq_true hle⟩
  rw [mergePoints, List.foldl_cons, if_pos hany]
  rfl

theorem mergePoints_cons_of_not_close {found : List (Point K)}
    (h : ¬ ∃ q ∈ found, (q - p).length ≤ m) (ps : List (Point K)) :
    mergePoints m found (p :: ps) = mergePoints m (found ++ [p]) ps := by
  have hany : ¬ (found.any fun q => decide ((q - p).length ≤ m)) = true := by
    intro hany
    obtain ⟨q, hq, hle⟩ := List.any_eq_true.mp hany
    exact h ⟨q, hq, of_decide_eq_true hle⟩
  rw [mergePoints, List.foldl_cons, if_neg hany]
  rfl

theorem prefix_mergePoints (m : K) (found ps : List (Point K)) :
    found <+: mergePoints m found ps := by
  induction ps generalizing found with
  | nil => exact List.prefix_rfl
  | cons p ps ih =>
    by_cases hclose : ∃ q ∈ found, (q - p).length ≤ m
    · rw [mergePoints_cons_of_close hclose]
      exact ih found
    · rw [mergePoints_cons_of_not_close hclose]
      exact (List.prefix_append found [p]).trans (ih (found ++ [p]))

theorem mergePoints_sublist (m : K) (found ps : List (Point K)) :
    (mergePoints m found ps).Sublist (found ++ ps) := by
  induction ps generalizing found with
  | nil =>
    rw [List.append_nil]
    exact List.Sublist.refl found
  | cons p ps ih =>
    by_cases hclose : ∃ q ∈ found, (q - p).length ≤ m
    · rw [mergePoints_cons_of_close hclose]
      exact (ih found).trans ((List.sublist_cons_self p ps).append_left found)
    · rw [mergePoints_cons_of_not_close hclose, List.append_cons found p ps]
      exact ih (found ++ [p])

theorem mem_of_mem_mergePoints {found ps : List (Point K)} {q : Point K}
    (h : q ∈ mergePoints m found ps) : q ∈ found ++ ps :=
  (mergePoints_sublist m found ps).subset h

/-- The kept points stand for all points: no two of them are close, and each point is one of
them or close to one. -/
structure Represents (m : K) (points kept : List (Point K)) : Prop where
  apart : kept.Pairwise fun q q' => ¬ (q - q').length ≤ m
  covers : ∀ p ∈ points, ∃ q ∈ kept, q = p ∨ (q - p).length ≤ m

namespace Represents

theorem nil (m : K) : Represents m [] [] where
  apart := List.Pairwise.nil
  covers := List.forall_mem_nil _

theorem skip (h : Represents m points kept) (hclose : ∃ q ∈ kept, (q - p).length ≤ m) :
    Represents m (points ++ [p]) kept where
  apart := h.apart
  covers := by
    rw [List.forall_mem_append, List.forall_mem_singleton]
    obtain ⟨q, hq, hle⟩ := hclose
    exact ⟨h.covers, q, hq, .inr hle⟩

theorem keep (h : Represents m points kept) (hclose : ¬ ∃ q ∈ kept, (q - p).length ≤ m) :
    Represents m (points ++ [p]) (kept ++ [p]) where
  apart := by
    rw [List.pairwise_append]
    refine ⟨h.apart, List.pairwise_singleton _ p, fun q hq p' hp' hle => hclose ⟨q, hq, ?_⟩⟩
    rwa [List.mem_singleton.mp hp'] at hle
  covers := by
    rw [List.forall_mem_append, List.forall_mem_singleton]
    constructor
    · intro p' hp'
      obtain ⟨q, hq, hcovers⟩ := h.covers p' hp'
      exact ⟨q, List.mem_append_left [p] hq, hcovers⟩
    · exact ⟨p, List.mem_append_right kept (List.mem_singleton_self p), .inl rfl⟩

/-- By induction on the points that are still to come, each of which is skipped or kept. -/
theorem merge (h : Represents m points kept) (ps : List (Point K)) :
    Represents m (points ++ ps) (mergePoints m kept ps) := by
  induction ps generalizing points kept with
  | nil =>
    rw [List.append_nil]
    exact h
  | cons p ps ih =>
    rw [List.append_cons]
    by_cases hclose : ∃ q ∈ kept, (q - p).length ≤ m
    · rw [mergePoints_cons_of_close hclose]
      exact ih (h.skip hclose)
    · rw [mergePoints_cons_of_not_close hclose]
      exact ih (h.keep hclose)

/-- A point that is close to itself is kept once, however often it was found. -/
theorem not_twice (h : Represents m points kept) (hself : (p - p).length ≤ m) :
    ¬ [p, p].Sublist kept := by
  intro htwice
  have hapart := List.rel_of_pairwise_cons (h.apart.sublist htwice) (List.mem_singleton_self p)
  exact hapart hself

end Represents

end

section
variable {p : Path K} {l : Line K}

/-- The crossings of a path are those of its pieces, one after the other, with close ones merged. -/
theorem crossings_of_ok {α : Type} {xs : List α} {piece : α → Piece K} {f : α → List (Point K)}
    (hp : p.pieces = xs.map piece) (h : ∀ a ∈ xs, l.crossings (piece a) = .ok (f a)) :
    p.crossings l = .ok (mergePoints p.mergeDistance [] (xs.flatMap f)) := by
  unfold crossings
  rw [hp]
  generalize p.mergeDistance = m
  generalize ([] : List (Point K)) = found
  clear hp
  induction xs generalizing found with
  | nil => rfl
  | cons a xs ih =>
    rw [List.map_cons, List.foldlM_cons, h a List.mem_cons_self, List.flatMap_cons,
      mergePoints_append]
    exact ih (fun b hb => h b (List.mem_cons_of_mem _ hb)) _

theorem exists_of_crossings_eq_error {e : IntersectionError} (h : p.crossings l = .error e) :
    e = .coincidentLines ∧ ∃ piece ∈ p.pieces, l.crossings piece = .error .coincidentLines := by
  obtain ⟨found, piece, hpiece, hstep⟩ := exists_of_foldlM_eq_error h
  have hcross : l.crossings piece = .error e := map_eq_error.mp hstep
  obtain rfl := Line.eq_coincidentLines_of_crossings hcross
  exact ⟨rfl, piece, hpiece, hcross⟩

theorem eq_coincidentLines_of_crossings {e : IntersectionError} (h : p.crossings l = .error e) :
    e = .coincidentLines :=
  (exists_of_crossings_eq_error h).1

theorem exists_of_crossings_eq_ok {ps : List (Point K)} (h : p.crossings l = .ok ps)
    {piece : Piece K} (hpiece : piece ∈ p.pieces) : ∃ qs, l.crossings piece = .ok qs := by
  obtain ⟨found, found', hstep⟩ := exists_of_foldlM_eq_ok h hpiece
  obtain ⟨qs, hcross, -⟩ := map_eq_ok.mp hstep
  exact ⟨qs, hcross⟩

/-- A piece that coincides with the line ends the search, wherever it stands. -/
theorem crossings_of_error {piece : Piece K} {e : IntersectionError} (hpiece : piece ∈ p.pieces)
    (h : l.crossings piece = .error e) : p.crossings l = .error .coincidentLines := by
  cases hcross : p.crossings l with
  | error e' => rw [eq_coincidentLines_of_crossings hcross]
  | ok ps =>
    obtain ⟨qs, hqs⟩ := exists_of_crossings_eq_ok hcross hpiece
    rw [h] at hqs
    cases hqs

theorem crossings_eq_error_iff {e : IntersectionError} : p.crossings l = .error e ↔
    e = .coincidentLines ∧ ∃ piece ∈ p.pieces, l.crossings piece = .error .coincidentLines := by
  constructor
  · exact exists_of_crossings_eq_error
  · rintro ⟨rfl, piece, hpiece, hcross⟩
    exact crossings_of_error hpiece hcross

theorem exists_found {ps : List (Point K)} (h : p.crossings l = .ok ps) :
    ∃ found : Piece K → List (Point K),
      (∀ piece ∈ p.pieces, l.crossings piece = .ok (found piece)) ∧
      ps.Sublist (p.pieces.flatMap found) ∧
      Represents p.mergeDistance (p.pieces.flatMap found) ps := by
  have hall : ∀ piece ∈ p.pieces, ∃ qs, l.crossings piece = .ok qs :=
    fun piece => exists_of_crossings_eq_ok h
  choose! found hfound using hall
  have hps := crossings_of_ok p.pieces.map_id.symm hfound
  rw [h] at hps
  cases hps
  exact ⟨found, hfound, mergePoints_sublist _ [] _, (Represents.nil _).merge _⟩

end

end Path

end Drafting
