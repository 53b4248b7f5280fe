import Mathlib.Data.Prod.Lex
import Mathlib.Tactic.FieldSimp
import Mathlib.Tactic.LinearCombination
import Drafting.Proofs.Path.Chain
import Drafting.Proofs.Path.Quadrature

/-!
# Walking along a path

A fraction of the total length is looked up among the weights of the pieces. Whether the path
has a length or not, the weights are the running sums of shares, divided by their total: the
shares are the lengths, or all alike when no piece has a length. So the piece found is the
first whose running sum reaches the fraction of the total, and the parameter divides the
share of that piece. In particular the pieces and parameters found for growing distances come
in order, and pieces without length are passed over, except by a walk that has not begun.
-/

namespace Drafting

section

variable [ExactTables]

namespace LengthTable

variable {ls : List ℝ}

theorem getLast?_runningSums (acc : ℝ) (h : ls ≠ []) :
    (runningSums acc ls).getLast? = some (acc + ls.sum) := by
  induction ls generalizing acc with
  | nil => exact absurd rfl h
  | cons l ls ih =>
    cases ls with
    | nil => simp [runningSums]
    | cons l' ls =>
      rw [runningSums, runningSums, List.getLast?_cons_cons, ← runningSums,
        ih (acc + l) (List.cons_ne_nil l' ls), List.sum_cons (a := l), add_assoc]

theorem le_of_mem_runningSums (h : ∀ l ∈ ls, 0 ≤ l) {acc w : ℝ} (hw : w ∈ runningSums acc ls) :
    acc ≤ w ∧ w ≤ acc + ls.sum := by
  induction ls generalizing acc with
  | nil => cases hw
  | cons l ls ih =>
    obtain ⟨hl, hls⟩ := List.forall_mem_cons.mp h
    have hsum : 0 ≤ ls.sum := List.sum_nonneg hls
    rw [List.sum_cons]
    rcases List.mem_cons.mp hw with rfl | hw
    · constructor <;> linarith
    · obtain ⟨hlow, hhigh⟩ := ih hls hw
      constructor <;> linarith

theorem pairwise_runningSums (h : ∀ l ∈ ls, 0 ≤ l) (acc : ℝ) :
    (runningSums acc ls).Pairwise (· ≤ ·) := by
  induction ls generalizing acc with
  | nil => exact .nil
  | cons l ls ih =>
    obtain ⟨-, hls⟩ := List.forall_mem_cons.mp h
    exact .cons (fun w hw => (le_of_mem_runningSums hls hw).1) (ih hls (acc + l))

theorem getLast?_runningSums_div (hpos : 0 < ls.sum) :
    ((runningSums 0 ls).map (· / ls.sum)).getLast? = some 1 := by
  have h : ls ≠ [] := by
    rintro rfl
    simp at hpos
  rw [List.getLast?_map, getLast?_runningSums 0 h, Option.map_some, zero_add, div_self hpos.ne']

omit [ExactTables] in
theorem setLast_of_getLast? {l : List ℝ} {x : ℝ} (h : l.getLast? = some x) : setLast x l = l := by
  fun_induction setLast x l with
  | case1 => rfl
  | case2 a => simpa using h.symm
  | case3 a b rest ih => rw [ih (by simpa using h)]

noncomputable def shares (lengths : List ℝ) : List ℝ :=
  if 0 < lengths.sum then lengths else List.replicate lengths.length 1

theorem length_shares (lengths : List ℝ) : (shares lengths).length = lengths.length := by
  unfold shares
  split_ifs <;> simp

theorem shares_nonneg (h : ∀ l ∈ ls, 0 ≤ l) : ∀ l ∈ shares ls, 0 ≤ l := by
  unfold shares
  split_ifs
  · exact h
  · simp +contextual [List.mem_replicate]

theorem sum_shares_pos (h : ls ≠ []) : 0 < (shares ls).sum := by
  unfold shares
  split_ifs with hpos
  · exact hpos
  · simpa [List.length_pos_iff] using h

/-- The last weight is 1 before it is set. -/
theorem weightsOf_eq (h : ls ≠ []) :
    weightsOf ls ls.sum = (runningSums 0 (shares ls)).map (· / (shares ls).sum) := by
  have hraw : (if 0 < ls.sum then (runningSums 0 ls).map (· / ls.sum) else evenWeights ls.length) =
      (runningSums 0 (shares ls)).map (· / (shares ls).sum) := by
    unfold shares
    split_ifs
    · rfl
    · rw [evenWeights, Scalar.sum_eq_sum]
  rw [weightsOf, hraw, setLast_of_getLast? (getLast?_runningSums_div (sum_shares_pos h))]

/-- Of consecutive stretches with the given lengths the `i`-th one, of length `l`, is the first
that ends at the distance `d` or beyond, which is reached at the part `s` of it. -/
structure Finds (ls : List ℝ) (d : ℝ) (i : ℕ) (l s : ℝ) : Prop where
  get : ls[i]? = some l
  mem : s ∈ Set.Icc (0 : ℝ) 1
  sum : (ls.take i).sum + s * l = d
  first : ∀ j < i, (ls.take (j + 1)).sum < d
  start : l = 0 → s = 0

/-- The weights around a fraction, by induction on the lengths. -/
theorem bracket_runningSums {total d : ℝ} (htotal : 0 < total) (hls : ls ≠ []) (k : ℕ) (acc : ℝ)
    (hd : d ≤ acc + ls.sum) :
    ∃ i l, ls[i]? = some l ∧
      bracket (d / total) k (acc / total) ((runningSums acc ls).map (· / total)) =
        some (k + i, (acc + (ls.take i).sum) / total, (acc + (ls.take i).sum + l) / total) ∧
      d ≤ acc + (ls.take i).sum + l ∧ ∀ j < i, acc + (ls.take (j + 1)).sum < d := by
  induction ls generalizing k acc with
  | nil => exact absurd rfl hls
  | cons l ls ih =>
    rw [List.sum_cons] at hd
    cases ls with
    | nil =>
      refine ⟨0, l, rfl, ?_, ?_, nofun⟩
      · simp [runningSums, bracket]
      · simpa using hd
    | cons l' ls =>
      have hweights : (runningSums acc (l :: l' :: ls)).map (· / total) =
          (acc + l) / total :: (runningSums (acc + l) (l' :: ls)).map (· / total) := rfl
      rw [hweights]
      by_cases hhere : d ≤ acc + l
      · refine ⟨0, l, rfl, ?_, by simpa using hhere, nofun⟩
        simp [runningSums, bracket, div_le_div_iff_of_pos_right htotal, hhere]
      · obtain ⟨i, m, hget, hbracket, hle, hfirst⟩ :=
          ih (List.cons_ne_nil l' ls) (k + 1) (acc + l) (by linarith)
        have hstep : bracket (d / total) k (acc / total)
            ((acc + l) / total :: (runningSums (acc + l) (l' :: ls)).map (· / total)) =
              bracket (d / total) (k + 1) ((acc + l) / total)
                ((runningSums (acc + l) (l' :: ls)).map (· / total)) := by
          simp [runningSums, bracket, div_le_div_iff_of_pos_right htotal, hhere]
        refine ⟨i + 1, m, hget, ?_, ?_, fun j hj => ?_⟩
        · rw [hstep, hbracket, List.take_succ_cons, List.sum_cons, ← add_assoc acc l]
          congr 2
          omega
        · rw [List.take_succ_cons, List.sum_cons]
          linarith
        · rw [List.take_succ_cons, List.sum_cons, ← add_assoc]
          cases j with
          | zero => simpa using hhere
          | succ j => exact hfirst j (by omega)

/-- The piece found for a fraction of the shares is the first that reaches it. -/
theorem finds_locate {t : LengthTable ℝ} {ls : List ℝ} (hls : ∀ l ∈ ls, 0 ≤ l) (hpos : 0 < ls.sum)
    (hw : t.weights = (runningSums 0 ls).map (· / ls.sum)) {f : ℝ} (hf : f ∈ Set.Icc (0 : ℝ) 1) :
    ∃ i l s, t.locate f = some (i, s) ∧ Finds ls (f * ls.sum) i l s := by
  have hne : ls ≠ [] := by
    rintro rfl
    simp at hpos
  have hd : f * ls.sum ≤ 0 + ls.sum := by nlinarith [hf.2]
  obtain ⟨i, l, hget, hbracket, hle, hfirst⟩ := bracket_runningSums hpos hne 0 0 hd
  simp only [mul_div_cancel_right₀ f hpos.ne', zero_div, zero_add] at hbracket hle hfirst
  have hl : 0 ≤ l := hls l (List.mem_of_getElem? hget)
  -- What lies before the piece found does not go beyond the distance.
  have hlower : (ls.take i).sum ≤ f * ls.sum := by
    cases i with
    | zero => simpa using mul_nonneg hf.1 hpos.le
    | succ i => exact (hfirst i (Nat.lt_succ_self i)).le
  have hstep : (ls.take i).sum / ls.sum < ((ls.take i).sum + l) / ls.sum ↔ 0 < l := by
    rw [div_lt_div_iff_of_pos_right hpos, lt_add_iff_pos_right]
  simp only [locate, hw, hbracket, hstep]
  rcases hl.lt_or_eq with hl | rfl
  · have hratio : (f - (ls.take i).sum / ls.sum) /
        (((ls.take i).sum + l) / ls.sum - (ls.take i).sum / ls.sum) =
          (f * ls.sum - (ls.take i).sum) / l := by
      rw [← sub_div, add_sub_cancel_left]
      field_simp
    have hmem : (f * ls.sum - (ls.take i).sum) / l ∈ Set.Icc (0 : ℝ) 1 := by
      rw [Set.mem_Icc, div_le_one hl]
      exact ⟨div_nonneg (by linarith) hl.le, by linarith⟩
    rw [if_pos hl, hratio, Scalar.clamp_of_mem hmem]
    refine ⟨i, l, _, rfl, hget, hmem, ?_, hfirst, fun h0 => absurd h0 hl.ne'⟩
    rw [div_mul_cancel₀ _ hl.ne']
    ring
  · rw [if_neg (lt_irrefl 0), Scalar.clamp_of_mem ⟨le_rfl, zero_le_one⟩]
    exact ⟨i, 0, 0, rfl, hget, ⟨le_rfl, zero_le_one⟩, by linarith, hfirst, fun _ => rfl⟩

theorem Finds.le (hls : ∀ l ∈ ls, 0 ≤ l) {d d' : ℝ} {i i' : ℕ} {l l' s s' : ℝ}
    (h : Finds ls d i l s) (h' : Finds ls d' i' l' s') (hd : d ≤ d') :
    toLex (i, s) ≤ toLex (i', s') := by
  rw [Prod.Lex.toLex_le_toLex]
  rcases lt_trichotomy i i' with hi | rfl | hi
  · exact .inl hi
  · right
    have hll : l = l' := Option.some.inj (h.get.symm.trans h'.get)
    subst hll
    have hle : s * l ≤ s' * l := by linarith [h.sum, h'.sum]
    rcases (hls l (List.mem_of_getElem? h.get)).lt_or_eq with hl | hl
    · exact ⟨rfl, le_of_mul_le_mul_right hle hl⟩
    · rw [h.start hl.symm, h'.start hl.symm]
      exact ⟨rfl, le_rfl⟩
  · -- The piece that reaches `d'` would already reach `d`.
    have hreach : (ls.take (i' + 1)).sum = (ls.take i').sum + l' := by
      rw [List.take_add_one, h'.get, List.sum_append]
      simp
    have hl' := hls l' (List.mem_of_getElem? h'.get)
    nlinarith [h.first i' hi, h'.sum, h'.mem.2]

theorem Finds.eq_zero (hls : ∀ l ∈ ls, 0 ≤ l) {i : ℕ} {l s : ℝ} (h : Finds ls 0 i l s) :
    i = 0 ∧ s = 0 := by
  have hi : i = 0 := by
    by_contra hi
    have hsum : 0 ≤ (ls.take 1).sum := List.sum_nonneg fun l hl => hls l (List.mem_of_mem_take hl)
    exact (h.first 0 (Nat.pos_of_ne_zero hi)).not_ge hsum
  refine ⟨hi, ?_⟩
  have hsum := h.sum
  rw [hi, List.take_zero, List.sum_nil, zero_add, mul_eq_zero] at hsum
  exact hsum.elim id h.start

end LengthTable

/-- A cubic polynomial whose derivative has three roots is constant. -/
theorem Cubic.eval_eq_of_derivative {c : Cubic ℝ} {u v w : ℝ} (huv : u < v) (hvw : v < w)
    (hu : c.derivative u = 0) (hv : c.derivative v = 0) (hw : c.derivative w = 0) (s t : ℝ) :
    c.eval s = c.eval t := by
  unfold derivative at hu hv hw
  have h₁ : (v - u) * (3 * c.c3 * (u + v) + 2 * c.c2) = 0 := by linear_combination hv - hu
  have h₂ : (w - v) * (3 * c.c3 * (v + w) + 2 * c.c2) = 0 := by linear_combination hw - hv
  have hfirst := (mul_eq_zero.mp h₁).resolve_left (by linarith)
  have hsecond := (mul_eq_zero.mp h₂).resolve_left (by linarith)
  have h₃ : (w - u) * c.c3 = 0 := by linear_combination (hsecond - hfirst) / 3
  have hc3 := (mul_eq_zero.mp h₃).resolve_left (by linarith)
  have hc2 : c.c2 = 0 := by linear_combination hfirst / 2 - 3 / 2 * (u + v) * hc3
  have hc1 : c.c1 = 0 := by linear_combination hu - 3 * u ^ 2 * hc3 - 2 * u * hc2
  simp [eval, hc3, hc2, hc1]

namespace Piece

theorem speed_nonneg (p : Piece ℝ) (t : ℝ) : 0 ≤ p.speed t := Real.sqrt_nonneg _

theorem arcLength_nonneg (h : Quadrature.Nonneg) (p : Piece ℝ) : 0 ≤ p.arcLength.value :=
  h.adaptive_nonneg p.speed_nonneg zero_le_one

theorem derivative_eq_zero_of_speed {p : Piece ℝ} {t : ℝ} (h : p.speed t = 0) :
    p.x.derivative t = 0 ∧ p.y.derivative t = 0 := by
  have hsum : p.x.derivative t * p.x.derivative t + p.y.derivative t * p.y.derivative t = 0 :=
    (Real.sqrt_eq_zero (add_nonneg (mul_self_nonneg _) (mul_self_nonneg _))).mp h
  exact mul_self_add_mul_self_eq_zero.mp hsum

theorem eval_eq_of_arcLength (h : Quadrature.Positive) {p : Piece ℝ}
    (h0 : p.arcLength.value = 0) (s t : ℝ) : p.eval s = p.eval t := by
  obtain ⟨u, v, w, huv, hvw, hu, hv, hw⟩ := h.exists_zeros p.speed_nonneg zero_lt_one h0
  obtain ⟨hxu, hyu⟩ := derivative_eq_zero_of_speed hu
  obtain ⟨hxv, hyv⟩ := derivative_eq_zero_of_speed hv
  obtain ⟨hxw, hyw⟩ := derivative_eq_zero_of_speed hw
  exact Point.ext (Cubic.eval_eq_of_derivative huv hvw hxu hxv hxw s t)
    (Cubic.eval_eq_of_derivative huv hvw hyu hyv hyw s t)

end Piece

namespace Path

open LengthTable

variable {p : Path ℝ}

/-- The point `q` is that of the `i`-th piece at the parameter `s`, and it lies at the distance
`d` from the start, where the parameter divides the length of the piece. -/
structure LiesAt (p : Path ℝ) (d : ℝ) (i : ℕ) (s : ℝ) (q : Point ℝ) : Prop where
  point : ∃ piece, p.pieces[i]? = some piece ∧ q = piece.eval s
  mem : s ∈ Set.Icc (0 : ℝ) 1
  distance : ∃ l, p.lengthTable.lengths[i]? = some l ∧
    (p.lengthTable.lengths.take i).sum + s * l = d

theorem lengths_eq (p : Path ℝ) :
    p.lengthTable.lengths = p.pieces.map fun q => q.arcLength.value := by
  simp [lengthTable, ofPieces, ofEstimates]

theorem length_eq (p : Path ℝ) : p.length = p.lengthTable.lengths.sum :=
  Scalar.sum_eq_sum _

theorem weights_eq (p : Path ℝ) :
    p.lengthTable.weights = weightsOf p.lengthTable.lengths p.length := rfl

theorem lengths_ne_nil (hp : p.segments ≠ []) : p.lengthTable.lengths ≠ [] := by
  rw [lengths_eq]
  simpa using pieces_ne_nil hp

theorem lengths_nonneg (h : Quadrature.Nonneg) (p : Path ℝ) :
    ∀ l ∈ p.lengthTable.lengths, 0 ≤ l := by
  rw [lengths_eq, List.forall_mem_map]
  exact fun q _ => q.arcLength_nonneg h

theorem length_pos (h : Quadrature.Positive) {q : Piece ℝ} (hq : q ∈ p.pieces)
    (hmoves : q.eval 0 ≠ q.eval 1) : 0 < p.length := by
  have hnonneg := lengths_nonneg h.toNonneg p
  rw [length_eq]
  refine (List.sum_nonneg hnonneg).lt_of_ne fun hzero => hmoves ?_
  have hmem : q.arcLength.value ∈ p.lengthTable.lengths := by
    rw [lengths_eq]
    exact List.mem_map_of_mem hq
  exact Piece.eval_eq_of_arcLength h
    (List.all_zero_of_le_zero_le_of_sum_eq_zero hnonneg hzero.symm hmem) 0 1

theorem weights_eq_shares (hp : p.segments ≠ []) :
    p.lengthTable.weights = (runningSums 0 (shares p.lengthTable.lengths)).map
      (· / (shares p.lengthTable.lengths).sum) := by
  rw [weights_eq, length_eq, weightsOf_eq (lengths_ne_nil hp)]

theorem pairwise_weights (h : Quadrature.Nonneg) (hp : p.segments ≠ []) :
    p.lengthTable.weights.Pairwise (· ≤ ·) := by
  have hpos := sum_shares_pos (lengths_ne_nil hp)
  rw [weights_eq_shares hp]
  exact (pairwise_runningSums (shares_nonneg (lengths_nonneg h p)) 0).map _
    fun u v huv => div_le_div_of_nonneg_right huv hpos.le

theorem mem_Icc_of_mem_weights (h : Quadrature.Nonneg) (hp : p.segments ≠ []) :
    ∀ w ∈ p.lengthTable.weights, w ∈ Set.Icc (0 : ℝ) 1 := by
  have hpos := sum_shares_pos (lengths_ne_nil hp)
  rw [weights_eq_shares hp, List.forall_mem_map]
  intro w hw
  obtain ⟨hlow, hhigh⟩ := le_of_mem_runningSums (shares_nonneg (lengths_nonneg h p)) hw
  exact ⟨div_nonneg hlow hpos.le, (div_le_one hpos).mpr (by linarith)⟩

theorem getLast?_weights (hp : p.segments ≠ []) : p.lengthTable.weights.getLast? = some 1 := by
  rw [weights_eq_shares hp]
  exact getLast?_runningSums_div (sum_shares_pos (lengths_ne_nil hp))

theorem pointAtFraction_of_locate (hp : p.segments ≠ []) {t : ℝ} (ht : t ∈ Set.Icc (0 : ℝ) 1)
    (h1 : t ≠ 1) {i : ℕ} {s : ℝ} (hlocate : p.lengthTable.locate t = some (i, s)) {piece : Piece ℝ}
    (hpiece : p.pieces[i]? = some piece) : p.pointAtFraction t = .ok (piece.eval s) := by
  obtain ⟨first, rest, hs⟩ := List.exists_cons_of_ne_nil hp
  simp [pointAtFraction, finish_cons hs, Scalar.within_iff.mpr ht, h1, hlocate, hpiece]

/-- A fraction is answered by the point at that part of the length. Where the path has a
length, the place is the one found for the distance. -/
theorem exists_liesAt (h : Quadrature.Nonneg) (hp : p.segments ≠ []) {t : ℝ}
    (ht : t ∈ Set.Icc (0 : ℝ) 1) (h1 : t ≠ 1) :
    ∃ i s q, p.pointAtFraction t = .ok q ∧ p.LiesAt (t * p.length) i s q ∧
      (0 < p.length → ∃ l, Finds p.lengthTable.lengths (t * p.length) i l s) := by
  have hnonneg := lengths_nonneg h p
  obtain ⟨i, l, s, hlocate, hfinds⟩ := finds_locate (shares_nonneg hnonneg)
    (sum_shares_pos (lengths_ne_nil hp)) (weights_eq_shares hp) ht
  have hi : i < p.lengthTable.lengths.length := by
    rw [← length_shares]
    exact (List.getElem?_eq_some_iff.mp hfinds.get).1
  have hi' : i < p.pieces.length := by simpa [lengths_eq] using hi
  have hpiece := List.getElem?_eq_getElem hi'
  refine ⟨i, s, _, pointAtFraction_of_locate hp ht h1 hlocate hpiece,
    ⟨⟨_, hpiece, rfl⟩, hfinds.mem, _, List.getElem?_eq_getElem hi, ?_⟩, fun hpos => ?_⟩
  · rw [length_eq]
    by_cases hpos : 0 < p.lengthTable.lengths.sum
    · rw [shares, if_pos hpos] at hfinds
      rw [← hfinds.sum, ← Option.some.inj (hfinds.get.symm.trans (List.getElem?_eq_getElem hi))]
    · -- Without a length all pieces are without length.
      have hzero : p.lengthTable.lengths.sum = 0 :=
        le_antisymm (not_lt.mp hpos) (List.sum_nonneg hnonneg)
      have hall {l : ℝ} (hl : l ∈ p.lengthTable.lengths) : l = 0 :=
        List.all_zero_of_le_zero_le_of_sum_eq_zero hnonneg hzero hl
      rw [hzero, mul_zero, hall (List.getElem_mem hi), mul_zero, add_zero]
      exact List.sum_eq_zero fun l hl => hall (List.mem_of_mem_take hl)
  · rw [length_eq] at hpos ⊢
    rw [shares, if_pos hpos] at hfinds
    exact ⟨l, hfinds⟩

/-- The end of the path lies at the whole length. -/
theorem liesAt_finish {q : Point ℝ} (hq : p.finish = some q) :
    p.LiesAt p.length (p.pieces.length - 1) 1 q := by
  rw [finish_eq_getLast?] at hq
  obtain ⟨piece, hpiece, rfl⟩ := Option.map_eq_some_iff.mp hq
  obtain ⟨front, hfront⟩ := List.getLast?_eq_some_iff.mp hpiece
  refine ⟨⟨piece, by simp [hfront], rfl⟩, ⟨zero_le_one, le_rfl⟩, piece.arcLength.value, ?_, ?_⟩
  · simp [lengths_eq, hfront]
  · simp [length_eq, lengths_eq, hfront]

theorem LiesAt.index_lt {d s : ℝ} {i : ℕ} {q : Point ℝ} (h : p.LiesAt d i s q) :
    i < p.pieces.length := by
  obtain ⟨piece, hpiece, -⟩ := h.point
  exact (List.getElem?_eq_some_iff.mp hpiece).1

theorem isEmpty_eq_false (hp : p.segments ≠ []) : p.isEmpty = false := by
  obtain ⟨s, rest, hs⟩ := List.exists_cons_of_ne_nil hp
  rw [isEmpty, topology_cons hs]
  split_ifs <;> rfl

theorem pointAtLength_eq (hp : p.segments ≠ []) (hpos : 0 < p.length) {d : ℝ}
    (hd : d ∈ Set.Icc 0 p.length) : p.pointAtLength d = p.pointAtFraction (d / p.length) := by
  have hle : d / p.length ≤ 1 := (div_le_one hpos).mpr hd.2
  simp [pointAtLength, isEmpty_eq_false hp, Scalar.within_iff.mpr hd, hpos, Scalar.lesser_eq_min,
    min_eq_left hle]

/-- Each distance is answered at a place: the one found for it, or the end of the last piece. -/
theorem exists_place (h : Quadrature.Nonneg) (hp : p.segments ≠ []) (hpos : 0 < p.length) {d : ℝ}
    (hd : d ∈ Set.Icc 0 p.length) :
    ∃ i s, (∃ q, p.pointAtLength d = .ok q ∧ p.LiesAt d i s q) ∧
      (d ≠ p.length → ∃ l, Finds p.lengthTable.lengths d i l s) ∧
      (d = p.length → i = p.pieces.length - 1 ∧ s = 1) := by
  rw [pointAtLength_eq hp hpos hd]
  by_cases hend : d = p.length
  · obtain ⟨first, rest, hs⟩ := List.exists_cons_of_ne_nil hp
    have hfinish := finish_cons hs
    refine ⟨_, _, ⟨_, ?_, hend ▸ liesAt_finish hfinish⟩, absurd hend, fun _ => ⟨rfl, rfl⟩⟩
    rw [hend, div_self hpos.ne', pointAtFraction_one hfinish]
  · have hne : d / p.length ≠ 1 := by rwa [ne_eq, div_eq_one_iff_eq hpos.ne']
    obtain ⟨i, s, q, hq, hlies, hfinds⟩ := exists_liesAt h hp
      (t := d / p.length) ⟨div_nonneg hd.1 hpos.le, (div_le_one hpos).mpr hd.2⟩ hne
    rw [div_mul_cancel₀ d hpos.ne'] at hlies hfinds
    exact ⟨i, s, ⟨q, hq, hlies⟩, fun _ => hfinds hpos, fun h => absurd h hend⟩

/-- The places of growing distances come in order. -/
theorem exists_monotone_place (h : Quadrature.Nonneg) (hp : p.segments ≠ []) (hpos : 0 < p.length) :
    ∃ place : ℝ → ℕ ×ₗ ℝ, MonotoneOn place (Set.Icc 0 p.length) ∧
      ∀ d ∈ Set.Icc 0 p.length, ∃ q, p.pointAtLength d = .ok q ∧
        p.LiesAt d (ofLex (place d)).1 (ofLex (place d)).2 q := by
  choose! i s hpoint hfinds hend using fun d (hd : d ∈ Set.Icc 0 p.length) =>
    exists_place h hp hpos hd
  refine ⟨fun d => toLex (i d, s d), fun d hd d' hd' hle => ?_, hpoint⟩
  by_cases hlast : d' = p.length
  · obtain ⟨q, -, hlies⟩ := hpoint d hd
    obtain ⟨hi', hs'⟩ := hend d' hd' hlast
    rw [Prod.Lex.toLex_le_toLex, hi', hs']
    rcases (Nat.le_sub_one_of_lt hlies.index_lt).lt_or_eq with hi | hi
    · exact .inl hi
    · exact .inr ⟨hi, hlies.mem.2⟩
  · have hlt : d ≠ p.length := fun h => hlast (le_antisymm hd'.2 (h ▸ hle))
    obtain ⟨l, hl⟩ := hfinds d hd hlt
    obtain ⟨l', hl'⟩ := hfinds d' hd' hlast
    exact hl.le (lengths_nonneg h p) hl' hle

/-- The walk begins at the start, also when the first pieces have no length. -/
theorem pointAtLength_zero (h : Quadrature.Nonneg) (hp : p.segments ≠ []) (hpos : 0 < p.length)
    {a : Point ℝ} (ha : p.start = some a) : p.pointAtLength 0 = .ok a := by
  obtain ⟨i, s, ⟨q, hq, hlies⟩, hfinds, -⟩ := exists_place h hp hpos ⟨le_rfl, hpos.le⟩
  obtain ⟨l, hl⟩ := hfinds hpos.ne
  obtain ⟨rfl, rfl⟩ := hl.eq_zero (lengths_nonneg h p)
  obtain ⟨piece, hpiece, rfl⟩ := hlies.point
  rw [start_eq_head?, List.head?_eq_getElem?, hpiece, Option.map_some, Option.some.injEq] at ha
  rw [hq, ha]

/-- The lengths of the pieces, one for each, are not negative and add up to the length of the
path, and the weights, one for each piece too, grow from the range between 0 and 1 up to 1. On
a path with a length every distance up to it is answered at a piece and a parameter that lie
at the distance, and these come in order with the distance. A fraction of the length is
answered as the fraction, and the ends are the start and the finish of the path. -/
theorem pointAtLength_traverses (h : Quadrature.Nonneg) (p : Path ℝ) (hp : p.segments ≠ []) :
    let lengths := p.lengthTable.lengths
    let weights := p.lengthTable.weights
    (lengths.length = p.pieces.length ∧ weights.length = p.pieces.length) ∧
    ((∀ l ∈ lengths, 0 ≤ l) ∧ lengths.sum = p.length) ∧
    (weights.Pairwise (· ≤ ·) ∧ (∀ w ∈ weights, w ∈ Set.Icc (0 : ℝ) 1) ∧ weights.getLast? = some 1) ∧
    (0 < p.length →
      (∃ place : ℝ → ℕ ×ₗ ℝ, MonotoneOn place (Set.Icc 0 p.length) ∧
        ∀ d ∈ Set.Icc 0 p.length, ∃ q, p.pointAtLength d = .ok q ∧
          p.LiesAt d (ofLex (place d)).1 (ofLex (place d)).2 q) ∧
      (∀ f ∈ Set.Icc (0 : ℝ) 1, p.pointAtLength (f * p.length) = p.pointAtFraction f) ∧
      (∃ a, p.start = some a ∧ p.pointAtLength 0 = .ok a) ∧
      ∃ b, p.finish = some b ∧ p.pointAtLength p.length = .ok b) := by
  intro lengths weights
  have hcount : lengths.length = p.pieces.length := by simp [lengths, lengths_eq]
  have hweights : weights.length = p.pieces.length := by
    rw [← hcount]
    exact length_weightsOf lengths p.length
  obtain ⟨s, rest, hs⟩ := List.exists_cons_of_ne_nil hp
  refine ⟨⟨hcount, hweights⟩, ⟨lengths_nonneg h p, p.length_eq.symm⟩,
    ⟨pairwise_weights h hp, mem_Icc_of_mem_weights h hp, getLast?_weights hp⟩, fun hpos =>
    ⟨exists_monotone_place h hp hpos, fun f hf => ?_, ⟨s.start, start_cons hs,
      pointAtLength_zero h hp hpos (start_cons hs)⟩, ⟨_, finish_cons hs, ?_⟩⟩⟩
  · rw [pointAtLength_eq hp hpos ⟨mul_nonneg hf.1 hpos.le, mul_le_of_le_one_left hpos.le hf.2⟩,
      mul_div_cancel_right₀ f hpos.ne']
  · rw [pointAtLength_eq hp hpos ⟨hpos.le, le_rfl⟩, div_self hpos.ne',
      pointAtFraction_one (finish_cons hs)]

end Path

end

/-- A walk from a repeated vertex to a repeated vertex. -/
theorem Path.pointAtLength_traverses_repeated :
    let _ : ExactTables := ⟨Scalar.legendreDigits, fun _ => ⟨false, 0, 0⟩⟩
    let p : Path ℝ := ⟨[.polyline [⟨0, 0⟩, ⟨0, 0⟩, ⟨2, 1⟩, ⟨2, 1⟩] (by simp)]⟩
    Quadrature.Nonneg ∧ p.segments ≠ [] ∧ 0 < p.length ∧
      (∃ place : ℝ → ℕ ×ₗ ℝ, MonotoneOn place (Set.Icc 0 p.length) ∧
        ∀ d ∈ Set.Icc 0 p.length, ∃ q, p.pointAtLength d = .ok q ∧
          p.LiesAt d (ofLex (place d)).1 (ofLex (place d)).2 q) ∧
      p.pointAtLength 0 = .ok ⟨0, 0⟩ ∧ p.pointAtLength p.length = .ok ⟨2, 1⟩ := by
  intro _ p
  have hrule : Quadrature.Positive := Quadrature.positive_of_legendre rfl
  have hpos : 0 < p.length := by
    refine Path.length_pos hrule (q := Piece.line ⟨0, 0⟩ ⟨2, 1⟩) ?_ ?_
    · simp [p, Path.pieces, Segment.pieces, neighbours]
    · rw [Piece.eval_line_zero, Piece.eval_line_one]
      simp
  obtain ⟨-, -, -, hwalk⟩ := pointAtLength_traverses hrule.toNonneg p (by simp [p])
  obtain ⟨hplace, -, ⟨a, ha, hzero⟩, b, hb, hend⟩ := hwalk hpos
  cases ha
  cases hb
  exact ⟨hrule.toNonneg, by simp [p], hpos, hplace, hzero, hend⟩

end Drafting
