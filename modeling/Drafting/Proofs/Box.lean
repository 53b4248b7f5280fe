import Drafting.Box
import Drafting.Proofs.Exact

/-!
# Boxes of points in range

A box starts with its corners at the sentinels, so it is the least box of its points
only when these lie between the sentinels. From the first such point on the sentinels
are gone, and the box moves along with its points.

Whether in range or not, the box of a list is the least one that is around both sentinels
and all points of the list. So neither the order of the points nor how they are collected
into smaller boxes first makes a difference.
-/

namespace Drafting

variable [ExactTables]

/-- Both coordinates lie between the sentinels. -/
def Point.InRange (p : Point ℝ) : Prop :=
  |p.x| ≤ Scalar.sentinel ∧ |p.y| ≤ Scalar.sentinel

namespace Box

def Proper (b : Box ℝ) : Prop := b.min.x ≤ b.max.x ∧ b.min.y ≤ b.max.y

/-- The box with both corners moved, also when it is empty. -/
noncomputable def shift (b : Box ℝ) (v : Offset ℝ) : Box ℝ := ⟨b.min + v, b.max + v⟩

theorem isEmpty_empty : (empty : Box ℝ).isEmpty = true := by
  have h : -(Scalar.sentinel : ℝ) < Scalar.sentinel := neg_lt_self Scalar.sentinel_pos
  simp [isEmpty, empty, h]

theorem Proper.isEmpty_eq_false {b : Box ℝ} (h : b.Proper) : b.isEmpty = false := by
  simp [isEmpty, h.1, h.2]

theorem insert_eq (b : Box ℝ) (p : Point ℝ) :
    b.insert p =
      ⟨⟨b.min.x ⊓ p.x, b.min.y ⊓ p.y⟩, ⟨b.max.x ⊔ p.x, b.max.y ⊔ p.y⟩⟩ := by
  simp only [insert, Scalar.lesser_eq_min, Scalar.greater_eq_max]

/-- The first point replaces both sentinels. -/
theorem insert_empty {p : Point ℝ} (h : p.InRange) : empty.insert p = ⟨p, p⟩ := by
  obtain ⟨hx, hy⟩ := h
  rw [abs_le] at hx hy
  rw [insert_eq]
  simp only [empty, min_eq_right hx.2, min_eq_right hy.2, max_eq_right hx.1, max_eq_right hy.1]

theorem ofPoints_cons {p : Point ℝ} (h : p.InRange) (ps : List (Point ℝ)) :
    ofPoints (p :: ps) = ps.foldl insert ⟨p, p⟩ := by
  rw [ofPoints, List.foldl_cons, insert_empty h]

theorem Proper.insert {b : Box ℝ} (h : b.Proper) (p : Point ℝ) : (b.insert p).Proper := by
  rw [insert_eq]
  exact ⟨min_le_of_left_le (le_max_of_le_left h.1), min_le_of_left_le (le_max_of_le_left h.2)⟩

theorem Proper.foldl_insert {b : Box ℝ} (h : b.Proper) (ps : List (Point ℝ)) :
    (ps.foldl Box.insert b).Proper := by
  induction ps generalizing b with
  | nil => exact h
  | cons p ps ih => exact ih (h.insert p)

theorem insert_shift (b : Box ℝ) (p : Point ℝ) (v : Offset ℝ) :
    (b.shift v).insert (p + v) = (b.insert p).shift v := by
  simp only [insert_eq, shift]
  ext <;> simp [min_add_add_right, max_add_add_right]

theorem foldl_insert_shift (b : Box ℝ) (ps : List (Point ℝ)) (v : Offset ℝ) :
    (ps.map fun p : Point ℝ => p + v).foldl insert (b.shift v) = (ps.foldl insert b).shift v := by
  induction ps generalizing b with
  | nil => rfl
  | cons p ps ih => rw [List.map_cons, List.foldl_cons, insert_shift, ih, List.foldl_cons]

theorem isEmpty_ofPoints_cons {p : Point ℝ} (h : p.InRange) (ps : List (Point ℝ)) :
    (ofPoints (p :: ps)).isEmpty = false := by
  have hproper : (⟨p, p⟩ : Box ℝ).Proper := ⟨le_rfl, le_rfl⟩
  rw [ofPoints_cons h]
  exact (hproper.foldl_insert ps).isEmpty_eq_false

/-- Each coordinate of a corner is a coordinate of some point, so what holds of those of
all points holds of it. -/
theorem corners_foldl_insert {X Y : ℝ → Prop} {b : Box ℝ} {ps : List (Point ℝ)}
    (hmin : X b.min.x ∧ Y b.min.y) (hmax : X b.max.x ∧ Y b.max.y)
    (h : ∀ p ∈ ps, X p.x ∧ Y p.y) :
    ∀ p ∈ (ps.foldl insert b).corners, X p.x ∧ Y p.y := by
  induction ps generalizing b with
  | nil => simp [corners, hmin, hmax]
  | cons p ps ih =>
    obtain ⟨hx, hy⟩ := h p List.mem_cons_self
    refine ih ?_ ?_ fun q hq => h q (List.mem_cons_of_mem p hq)
    · rw [insert_eq]
      exact ⟨inf_ind _ _ hmin.1 hx, inf_ind _ _ hmin.2 hy⟩
    · rw [insert_eq]
      exact ⟨sup_ind _ _ hmax.1 hx, sup_ind _ _ hmax.2 hy⟩

/-- The box of moved points is the moved box, when all points are in range before and
after. -/
theorem ofPoints_map_add {ps : List (Point ℝ)} {v : Offset ℝ} (h : ∀ p ∈ ps, p.InRange)
    (h' : ∀ p ∈ ps, (p + v).InRange) :
    ofPoints (ps.map fun p : Point ℝ => p + v) = (ofPoints ps).translate v := by
  cases ps with
  | nil => simp [translate, isEmpty_empty]
  | cons p ps =>
    have hp := h p List.mem_cons_self
    rw [translate, isEmpty_ofPoints_cons hp, List.map_cons, ofPoints_cons (h' p List.mem_cons_self),
      ofPoints_cons hp]
    exact foldl_insert_shift ⟨p, p⟩ ps v

structure Contains (b : Box ℝ) (p : Point ℝ) : Prop where
  min_x : b.min.x ≤ p.x
  min_y : b.min.y ≤ p.y
  max_x : p.x ≤ b.max.x
  max_y : p.y ≤ b.max.y

theorem contains_insert_self (b : Box ℝ) (p : Point ℝ) : (b.insert p).Contains p := by
  rw [insert_eq]
  exact ⟨inf_le_right, inf_le_right, le_sup_right, le_sup_right⟩

theorem Contains.insert {b : Box ℝ} {p : Point ℝ} (h : b.Contains p) (q : Point ℝ) :
    (b.insert q).Contains p := by
  rw [insert_eq]
  exact ⟨inf_le_left.trans h.min_x, inf_le_left.trans h.min_y, h.max_x.trans le_sup_left,
    h.max_y.trans le_sup_left⟩

/-- Whether in range or not, every point lies in the box of its list. -/
theorem contains_ofPoints {ps : List (Point ℝ)} {p : Point ℝ} (hp : p ∈ ps) :
    (ofPoints ps).Contains p := by
  unfold ofPoints
  generalize (empty : Box ℝ) = b
  have hkeep (qs : List (Point ℝ)) {b : Box ℝ} (h : b.Contains p) :
      (qs.foldl Box.insert b).Contains p := by
    induction qs generalizing b with
    | nil => exact h
    | cons q qs ih => exact ih (h.insert q)
  induction ps generalizing b with
  | nil => cases hp
  | cons q qs ih =>
    rcases List.mem_cons.mp hp with rfl | hp
    · exact hkeep qs (contains_insert_self b p)
    · exact ih hp (b.insert q)

theorem diagonalSq_translate (b : Box ℝ) (v : Offset ℝ) :
    (b.translate v).diagonalSq = b.diagonalSq := by
  unfold translate
  split_ifs
  · rfl
  · simp only [diagonalSq, width, height, Point.add_x, Point.add_y, add_sub_add_right_eq_sub]

/-- The other box reaches at least as far in all four directions. -/
structure Within (b c : Box ℝ) : Prop where
  min_x : c.min.x ≤ b.min.x
  min_y : c.min.y ≤ b.min.y
  max_x : b.max.x ≤ c.max.x
  max_y : b.max.y ≤ c.max.y

namespace Within

variable {b c d : Box ℝ}

omit [ExactTables] in
theorem refl (b : Box ℝ) : b.Within b := ⟨le_rfl, le_rfl, le_rfl, le_rfl⟩

omit [ExactTables] in
theorem trans (h : b.Within c) (h' : c.Within d) : b.Within d :=
  ⟨h'.min_x.trans h.min_x, h'.min_y.trans h.min_y, h.max_x.trans h'.max_x, h.max_y.trans h'.max_y⟩

omit [ExactTables] in
theorem antisymm (h : b.Within c) (h' : c.Within b) : b = c := by
  ext
  · exact le_antisymm h'.min_x h.min_x
  · exact le_antisymm h'.min_y h.min_y
  · exact le_antisymm h.max_x h'.max_x
  · exact le_antisymm h.max_y h'.max_y

end Within

omit [ExactTables] in
/-- A box is known from the boxes that are around it. -/
theorem eq_of_within_iff {b c : Box ℝ} (h : ∀ d, b.Within d ↔ c.Within d) : b = c :=
  ((h c).mpr (.refl c)).antisymm ((h b).mp (.refl b))

theorem insert_within_iff {b c : Box ℝ} {p : Point ℝ} :
    (b.insert p).Within c ↔ b.Within c ∧ c.Contains p := by
  rw [insert_eq]
  constructor
  · rintro ⟨h1, h2, h3, h4⟩
    rw [le_inf_iff] at h1 h2
    rw [sup_le_iff] at h3 h4
    exact ⟨⟨h1.1, h2.1, h3.1, h4.1⟩, h1.2, h2.2, h3.2, h4.2⟩
  · rintro ⟨⟨h1, h2, h3, h4⟩, hp1, hp2, hp3, hp4⟩
    exact ⟨le_inf h1 hp1, le_inf h2 hp2, sup_le h3 hp3, sup_le h4 hp4⟩

theorem foldl_insert_within_iff {b c : Box ℝ} {ps : List (Point ℝ)} :
    (ps.foldl insert b).Within c ↔ b.Within c ∧ ∀ p ∈ ps, c.Contains p := by
  induction ps generalizing b with
  | nil => simp
  | cons p ps ih => rw [List.foldl_cons, ih, insert_within_iff, List.forall_mem_cons, and_assoc]

theorem ofPoints_within_iff {c : Box ℝ} {ps : List (Point ℝ)} :
    (ofPoints ps).Within c ↔ empty.Within c ∧ ∀ p ∈ ps, c.Contains p :=
  foldl_insert_within_iff

theorem empty_within_ofPoints (ps : List (Point ℝ)) : empty.Within (ofPoints ps) :=
  (ofPoints_within_iff.mp (.refl (ofPoints ps))).1

theorem ofPoints_mono {ps qs : List (Point ℝ)} (h : ps ⊆ qs) :
    (ofPoints ps).Within (ofPoints qs) :=
  ofPoints_within_iff.mpr ⟨empty_within_ofPoints qs, fun _ hp => contains_ofPoints (h hp)⟩

theorem proper_ofPoints {ps : List (Point ℝ)} (h : ps ≠ []) : (ofPoints ps).Proper := by
  obtain ⟨p, ps, rfl⟩ := List.exists_cons_of_ne_nil h
  have hp : (ofPoints (p :: ps)).Contains p := contains_ofPoints List.mem_cons_self
  exact ⟨hp.min_x.trans hp.max_x, hp.min_y.trans hp.max_y⟩

/-- A box is empty exactly when it is the box of no points. -/
theorem isEmpty_ofPoints_iff {ps : List (Point ℝ)} : (ofPoints ps).isEmpty = true ↔ ps = [] := by
  constructor
  · intro h
    by_contra hne
    rw [(proper_ofPoints hne).isEmpty_eq_false] at h
    cases h
  · rintro rfl
    exact isEmpty_empty

theorem within_insert (b : Box ℝ) (p : Point ℝ) : b.Within (b.insert p) :=
  (insert_within_iff.mp (.refl (b.insert p))).1

theorem within_union (b c : Box ℝ) : b.Within (b.union c) := by
  unfold union
  split_ifs
  · exact .refl b
  · exact (within_insert b c.min).trans (within_insert _ c.max)

omit [ExactTables] in
theorem Proper.within_iff {b c : Box ℝ} (h : b.Proper) :
    b.Within c ↔ c.Contains b.min ∧ c.Contains b.max := by
  constructor
  · rintro ⟨h1, h2, h3, h4⟩
    exact ⟨⟨h1, h2, h.1.trans h3, h.2.trans h4⟩, h1.trans h.1, h2.trans h.2, h3, h4⟩
  · rintro ⟨hmin, hmax⟩
    exact ⟨hmin.min_x, hmin.min_y, hmax.max_x, hmax.max_y⟩

theorem ofPoints_union (ps qs : List (Point ℝ)) :
    (ofPoints ps).union (ofPoints qs) = ofPoints (ps ++ qs) := by
  by_cases hqs : qs = []
  · rw [hqs, List.append_nil, union, if_pos (isEmpty_ofPoints_iff.mpr rfl)]
  · have hproper := proper_ofPoints hqs
    refine eq_of_within_iff fun d => ?_
    rw [union, if_neg (by simp [hproper.isEmpty_eq_false]), insert_within_iff, insert_within_iff,
      and_assoc, ← hproper.within_iff, ofPoints_within_iff, ofPoints_within_iff,
      ofPoints_within_iff, List.forall_mem_append]
    tauto

end Box

end Drafting
