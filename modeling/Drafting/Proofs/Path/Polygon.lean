import Mathlib.Data.List.Perm.Subperm
import Mathlib.Tactic.Linarith
import Drafting.Path
import Drafting.Proofs.Box
import Drafting.Proofs.Path.Moments

/-!
# Convex polygons

A polygon is given by its vertices, and a polyline through them and back to the first
one traces it. It is strictly convex when every edge has all other vertices strictly on
one side, the left one when the vertices run counter-clockwise.

The centroid that a traced polygon is given is the mean, over the triangles between any
point and the edges, of the centroids of these triangles, weighted by their areas. With
a vertex as the point it follows that no affine function is more than three times as
great at a vertex as at the centroid when it is negative at no vertex. So the centroid
lies inside, and its distance to each edge is a third of the width of the polygon there.
-/

namespace Drafting

namespace Offset

variable [ExactTables] (v w : Offset ℝ)

theorem length_eq_sqrt : v.length = √(v.dx ^ 2 + v.dy ^ 2) := rfl

theorem length_nonneg : 0 ≤ v.length := Real.sqrt_nonneg _

theorem sq_length : v.length ^ 2 = v.dx ^ 2 + v.dy ^ 2 :=
  Real.sq_sqrt (add_nonneg (sq_nonneg _) (sq_nonneg _))

theorem abs_dx_le_length : |v.dx| ≤ v.length :=
  Real.abs_le_sqrt (le_add_of_nonneg_right (sq_nonneg _))

theorem abs_dy_le_length : |v.dy| ≤ v.length :=
  Real.abs_le_sqrt (le_add_of_nonneg_left (sq_nonneg _))

theorem length_le_of_abs_le {k : ℝ} (hx : |v.dx| ≤ k) (hy : |v.dy| ≤ k) : v.length ≤ 2 * k := by
  have hk : 0 ≤ k := (abs_nonneg _).trans hx
  refine Real.sqrt_le_iff.mpr ⟨by positivity, ?_⟩
  have hx' := sq_le_sq' (neg_le_of_abs_le hx) (le_of_abs_le hx)
  have hy' := sq_le_sq' (neg_le_of_abs_le hy) (le_of_abs_le hy)
  nlinarith [sq_nonneg k]

end Offset

namespace Point

variable [ExactTables]

theorem length_sub_self (p : Point ℝ) : (p - p).length = 0 := by
  simp [Offset.length_eq_sqrt]

theorem length_sub_le (p q o : Point ℝ) : (p - q).length ≤ (p - o).length + (q - o).length := by
  have hnorm (v : Offset ℝ) : v.length = ‖(⟨v.dx, v.dy⟩ : ℂ)‖ := by
    rw [Complex.norm_eq_sqrt_sq_add_sq, Offset.length_eq_sqrt]
  have hsub : (⟨(p - q).dx, (p - q).dy⟩ : ℂ) =
      ⟨(p - o).dx, (p - o).dy⟩ - ⟨(q - o).dx, (q - o).dy⟩ := by
    apply Complex.ext
    · simp
    · simp
  rw [hnorm, hnorm, hnorm, hsub]
  exact norm_sub_le _ _

end Point

section
variable {α : Type}

theorem sum_neighbours_sub (F : α → ℝ) (a b : α) (l : List α) :
    ((neighbours (a :: (l ++ [b]))).map fun e => F e.2 - F e.1).sum = F b - F a := by
  induction l generalizing a with
  | nil => simp [neighbours]
  | cons c l ih =>
    rw [List.cons_append, neighbours, List.map_cons, List.sum_cons, ih]
    exact sub_add_sub_cancel' (F c) (F a) (F b)

theorem mem_neighbours_append {e : α × α} {l : List α} (h : e ∈ neighbours l) (front : List α) :
    e ∈ neighbours (front ++ l) := by
  induction front with
  | nil => exact h
  | cons a front ih =>
    cases hf : front ++ l with
    | nil => simp [hf, neighbours] at ih
    | cons b rest =>
      rw [List.cons_append, hf, neighbours]
      exact List.mem_cons_of_mem _ (hf ▸ ih)

theorem forall_of_neighbours {P : α → Prop} {a : α} {l : List α}
    (h : ∀ e ∈ neighbours (a :: l), P e.1 → P e.2) (ha : P a) : ∀ b ∈ a :: l, P b := by
  induction l generalizing a with
  | nil => simpa using ha
  | cons c l ih =>
    rw [neighbours] at h
    have hc : P c := h (a, c) List.mem_cons_self ha
    intro b hb
    rcases List.mem_cons.mp hb with rfl | hb
    · exact ha
    · exact ih (fun e he => h e (List.mem_cons_of_mem _ he)) hc b hb

theorem mem_of_mem_neighbours {e : α × α} {l : List α} (h : e ∈ neighbours l) :
    e.1 ∈ l ∧ e.2 ∈ l := by
  fun_induction neighbours l with
  | case1 a b rest ih =>
    rcases List.mem_cons.mp h with rfl | h
    · simp
    · exact ⟨List.mem_cons_of_mem _ (ih h).1, List.mem_cons_of_mem _ (ih h).2⟩
  | case2 => simp at h

end

namespace Polygon

variable {α : Type} {vertices : List α}

def trace (vertices : List α) : List α := vertices ++ vertices.take 1

def edges (vertices : List α) : List (α × α) := neighbours (trace vertices)

theorem mem_of_mem_edges {e : α × α} (h : e ∈ edges vertices) :
    e.1 ∈ vertices ∧ e.2 ∈ vertices := by
  have hmem {v : α} (hv : v ∈ trace vertices) : v ∈ vertices := by
    rcases List.mem_append.mp hv with hv | hv
    · exact hv
    · exact List.mem_of_mem_take hv
  exact (mem_of_mem_neighbours h).imp hmem hmem

/-- Around a polygon every change is undone. -/
theorem sum_edges_sub (F : α → ℝ) (vertices : List α) :
    ((edges vertices).map fun e => F e.2 - F e.1).sum = 0 := by
  cases vertices with
  | nil => simp [edges, trace, neighbours]
  | cons v vertices =>
    have h := sum_neighbours_sub F v v vertices
    rwa [sub_self] at h

/-- Going around from a vertex with a property to one without, some edge loses it. -/
theorem exists_edge {P : α → Prop} (hp : ∃ v ∈ vertices, P v) (hn : ∃ v ∈ vertices, ¬ P v) :
    ∃ e ∈ edges vertices, P e.1 ∧ ¬ P e.2 := by
  by_contra hkeep
  push Not at hkeep
  obtain ⟨v, hv, hPv⟩ := hp
  obtain ⟨w, hw, hPw⟩ := hn
  obtain ⟨first, others, rfl⟩ := List.exists_cons_of_ne_nil (List.ne_nil_of_mem hv)
  -- From `v` the property reaches the end, which is the first vertex again, and from there `w`.
  obtain ⟨front, back, hsplit⟩ := List.append_of_mem hv
  have htrace : trace (first :: others) = front ++ v :: (back ++ [first]) := by
    change (first :: others) ++ [first] = _
    rw [hsplit, List.append_assoc, List.cons_append]
  have hfirst : P first := by
    refine forall_of_neighbours (l := back ++ [first]) (fun e he => hkeep e ?_) hPv first (by simp)
    rw [edges, htrace]
    exact mem_neighbours_append he front
  exact hPw (forall_of_neighbours (l := others ++ [first]) hkeep hfirst w
    (List.mem_append_left [first] hw))

end Polygon

/-- Twice the signed area of the triangle `a b p`, positive when `p` lies to the left on
the way from `a` to `b`. -/
noncomputable def turn (a b p : Point ℝ) : ℝ :=
  (b.x - a.x) * (p.y - a.y) - (b.y - a.y) * (p.x - a.x)

/-- The vertices of a strictly convex polygon, in the order of its outline. -/
structure ConvexPolygon where
  vertices : List (Point ℝ)
  three_le : 3 ≤ vertices.length
  nodup : vertices.Nodup
  /-- `1` for vertices that run counter-clockwise, else `-1`. -/
  sign : ℝ
  sign_eq : sign = 1 ∨ sign = -1
  convex : ∀ e ∈ Polygon.edges vertices, ∀ v ∈ vertices, v ≠ e.1 → v ≠ e.2 →
    0 < sign * turn e.1 e.2 v

/-- A function of the coordinates of degree one at most. -/
def IsAffineForm (f : Point ℝ → ℝ) : Prop := ∃ k m n, ∀ p, f p = k + m * p.x + n * p.y

theorem isAffineForm_turn (a b : Point ℝ) : IsAffineForm (turn a b) :=
  ⟨(b.y - a.y) * a.x - (b.x - a.x) * a.y, -(b.y - a.y), b.x - a.x, fun p => by
    unfold turn
    ring⟩

theorem IsAffineForm.const_mul {f : Point ℝ → ℝ} (hf : IsAffineForm f) (k : ℝ) :
    IsAffineForm fun p => k * f p := by
  obtain ⟨k', m, n, hf⟩ := hf
  exact ⟨k * k', k * m, k * n, fun p => by linear_combination k * hf p⟩

theorem IsAffineForm.eq_zero {f : Point ℝ → ℝ} (hf : IsAffineForm f) {a b p : Point ℝ}
    (hturn : turn a b p ≠ 0) (ha : f a = 0) (hb : f b = 0) (hp : f p = 0) (q : Point ℝ) :
    f q = 0 := by
  obtain ⟨k, m, n, hf⟩ := hf
  rw [hf] at ha hb hp ⊢
  have hm : m = 0 := by
    refine (mul_eq_zero.mp ?_).resolve_right hturn
    unfold turn
    linear_combination (p.y - a.y) * (hb - ha) - (b.y - a.y) * (hp - ha)
  have hn : n = 0 := by
    refine (mul_eq_zero.mp ?_).resolve_right hturn
    unfold turn
    linear_combination (b.x - a.x) * (hp - ha) - (p.x - a.x) * (hb - ha)
  subst hm hn
  linarith

namespace ConvexPolygon

variable [ExactTables] (P : ConvexPolygon)

def edges : List (Point ℝ × Point ℝ) := Polygon.edges P.vertices

def path : Path ℝ :=
  ⟨[.polyline (Polygon.trace P.vertices)
    ((Nat.le_of_succ_le P.three_le).trans (by simp [Polygon.trace]))]⟩

/-- The length of the diagonal of the box. -/
noncomputable def size : ℝ := √P.path.box.diagonalSq

def OnOutline (p : Point ℝ) : Prop :=
  ∃ e ∈ P.edges, ∃ t ∈ Set.Icc (0 : ℝ) 1, p = e.1 + (e.2 - e.1) * t

/-- The distance of a point from the line of an edge, times the length of the edge;
positive on the side of the polygon. -/
noncomputable def height (e : Point ℝ × Point ℝ) (p : Point ℝ) : ℝ := P.sign * turn e.1 e.2 p

theorem pieces_path : P.path.pieces = P.edges.map fun (a, b) => Piece.line a b := by
  simp [path, Path.pieces, Segment.pieces, edges, Polygon.edges]

omit [ExactTables] in
theorem controlPoints_path : P.path.controlPoints = Polygon.trace P.vertices := by
  simp [path, Path.controlPoints, Segment.controlPoints]

theorem topology_path : P.path.topology = .closed := by
  have hends {vertices : List (Point ℝ)} (h : Polygon.trace vertices ≠ []) :
      (Polygon.trace vertices).getLast h = (Polygon.trace vertices).head h := by
    cases vertices with
    | nil => exact absurd rfl h
    | cons v vertices => simp [Polygon.trace]
  simp [Path.topology, Topology.classify, path, Topology.connected, neighbours, Segment.start,
    Segment.finish, hends, BEq.beq]

theorem sign_ne_zero : P.sign ≠ 0 := by
  rcases P.sign_eq with h | h <;> norm_num [h]

theorem abs_sign : |P.sign| = 1 := by
  rcases P.sign_eq with h | h <;> simp [h]

omit [ExactTables] in
theorem exists_mem_edges : ∃ e, e ∈ P.edges := by
  have hlength := P.three_le
  unfold edges
  generalize P.vertices = vertices at hlength
  rcases vertices with _ | ⟨a, _ | ⟨b, rest⟩⟩
  · simp at hlength
  · simp at hlength
  · exact ⟨(a, b), List.mem_cons_self⟩

variable {P} {e : Point ℝ × Point ℝ}

omit [ExactTables] in
theorem isAffineForm_height (e : Point ℝ × Point ℝ) : IsAffineForm (P.height e) :=
  (isAffineForm_turn e.1 e.2).const_mul P.sign

theorem height_le_abs_turn (p : Point ℝ) : P.height e p ≤ |turn e.1 e.2 p| := by
  calc P.height e p ≤ |P.sign * turn e.1 e.2 p| := le_abs_self _
    _ = |turn e.1 e.2 p| := by rw [abs_mul, abs_sign, one_mul]

theorem height_nonneg (he : e ∈ P.edges) {v : Point ℝ} (hv : v ∈ P.vertices) :
    0 ≤ P.height e v := by
  by_cases h₁ : v = e.1
  · simp [height, turn, h₁]
  · by_cases h₂ : v = e.2
    · simp [height, turn, h₂, mul_comm]
    · exact (P.convex e he v hv h₁ h₂).le

theorem exists_height_pos (he : e ∈ P.edges) : ∃ v ∈ P.vertices, 0 < P.height e v := by
  by_contra hnone
  push Not at hnone
  have hsub : P.vertices ⊆ [e.1, e.2] := by
    intro v hv
    by_contra hends
    simp only [List.mem_cons, List.not_mem_nil, or_false, not_or] at hends
    exact (P.convex e he v hv hends.1 hends.2).not_ge (hnone v hv)
  have hlength := (List.subperm_of_subset P.nodup hsub).length_le
  exact absurd P.three_le (not_le.mpr (Nat.lt_succ_of_le hlength))

theorem height_eq_zero (e : Point ℝ × Point ℝ) (t : ℝ) :
    P.height e (e.1 + (e.2 - e.1) * t) = 0 := by
  simp only [height, turn, Point.add_x, Point.add_y, Offset.mul_dx, Offset.mul_dy, Point.sub_dx,
    Point.sub_dy]
  ring

theorem OnOutline.height_nonneg {p : Point ℝ} (hp : P.OnOutline p) (he : e ∈ P.edges) :
    0 ≤ P.height e p := by
  obtain ⟨e', he', t, ht, rfl⟩ := hp
  have hends := Polygon.mem_of_mem_edges he'
  have hfirst := ConvexPolygon.height_nonneg he hends.1
  have hsecond := ConvexPolygon.height_nonneg he hends.2
  have hmean : P.height e (e'.1 + (e'.2 - e'.1) * t) =
      (1 - t) * P.height e e'.1 + t * P.height e e'.2 := by
    simp only [height, turn, Point.add_x, Point.add_y, Offset.mul_dx, Offset.mul_dy, Point.sub_dx,
      Point.sub_dy]
    ring
  rw [hmean]
  exact add_nonneg (mul_nonneg (sub_nonneg.mpr ht.2) hfirst) (mul_nonneg ht.1 hsecond)

theorem height_along (e : Point ℝ × Point ℝ) (c : Point ℝ) (u : Offset ℝ) (s : ℝ) :
    P.height e (c + u * s) =
      P.height e c + s * (P.sign * ((e.2.x - e.1.x) * u.dy - (e.2.y - e.1.y) * u.dx)) := by
  simp only [height, turn, Point.add_x, Point.add_y, Offset.mul_dx, Offset.mul_dy]
  ring

/-- From an inner point a ray cannot go on beyond a point of the outline. -/
theorem le_of_onOutline {c : Point ℝ} {u : Offset ℝ} {s s' : ℝ}
    (hc : ∀ e ∈ P.edges, 0 < P.height e c) (hs : 0 < s) (h : P.OnOutline (c + u * s))
    (h' : P.OnOutline (c + u * s')) : s' ≤ s := by
  obtain ⟨e, he, t, -, ht⟩ := h
  have hnonneg := h'.height_nonneg he
  have hzero : P.height e (c + u * s) = 0 := by rw [ht, height_eq_zero]
  have hpos := hc e he
  rw [height_along] at hzero hnonneg
  by_contra hlt
  -- The height falls from a positive value at `c` to zero, and is negative farther on.
  nlinarith

/-- A ray from an inner point meets the outline once. -/
theorem eq_of_onOutline {c : Point ℝ} {u : Offset ℝ} {s s' : ℝ}
    (hc : ∀ e ∈ P.edges, 0 < P.height e c) (hs : 0 < s) (hs' : 0 < s')
    (h : P.OnOutline (c + u * s)) (h' : P.OnOutline (c + u * s')) : s = s' :=
  le_antisymm (le_of_onOutline hc hs' h' h) (le_of_onOutline hc hs h h')

theorem contains_box {v : Point ℝ} (hv : v ∈ P.vertices) : P.path.box.Contains v := by
  rw [Path.box, controlPoints_path]
  exact Box.contains_ofPoints (List.mem_append_left _ hv)

theorem length_le_size {p q : Point ℝ} (hp : P.path.box.Contains p)
    (hq : P.path.box.Contains q) : (p - q).length ≤ P.size := by
  have hx : |p.x - q.x| ≤ P.path.box.width :=
    abs_sub_le_of_le_of_le hp.min_x hp.max_x hq.min_x hq.max_x
  have hy : |p.y - q.y| ≤ P.path.box.height :=
    abs_sub_le_of_le_of_le hp.min_y hp.max_y hq.min_y hq.max_y
  refine Real.sqrt_le_sqrt ?_
  rw [Box.diagonalSq, ← sq, ← sq]
  exact add_le_add (sq_le_sq' (neg_le_of_abs_le hx) (le_of_abs_le hx))
    (sq_le_sq' (neg_le_of_abs_le hy) (le_of_abs_le hy))

theorem length_edge_le_size (he : e ∈ P.edges) : (e.2 - e.1).length ≤ P.size :=
  have hends := Polygon.mem_of_mem_edges he
  length_le_size (contains_box hends.2) (contains_box hends.1)

section
variable {c : Point ℝ}

/-- Around the polygon the triangles with a common corner `o` add up to the area, and an
affine function is at the centroid the mean of its values at their corners. -/
theorem sum_turn_mul (hrule : Quadrature.Exact) (hc : P.path.centroid = .ok c)
    {f : Point ℝ → ℝ} (hf : IsAffineForm f) (o : Point ℝ) :
    (P.edges.map fun e => turn e.1 e.2 o * (f e.1 + f e.2 + f o)).sum =
      6 * P.path.moments.area * f c := by
  obtain ⟨k, m, n, hf⟩ := hf
  obtain ⟨-, harea, hcenter⟩ := Path.eq_of_centroid hc
  have hmoments := Moments.ofPieces_lines hrule P.path.box.center P.edges
  rw [← pieces_path] at hmoments
  rw [Path.moments, hmoments] at harea hcenter ⊢
  generalize P.path.box.center = q at harea hcenter ⊢
  -- What the two sides differ by at an edge is undone around the polygon.
  let F (p : Point ℝ) : ℝ :=
    turn p o q * (f p + f o + f q) - 9 * f q * (p.x - q.x) * (p.y - q.y) -
      m * (p.x - q.x) ^ 2 * (p.y - q.y) + n * (p.x - q.x) * (p.y - q.y) ^ 2
  have hedge (e : Point ℝ × Point ℝ) : turn e.1 e.2 o * (f e.1 + f e.2 + f o) =
      6 * f q * (Moments.ofEdge q e.1 e.2).area + 6 * m * (Moments.ofEdge q e.1 e.2).mx +
        6 * n * (Moments.ofEdge q e.1 e.2).my + (F e.2 - F e.1) := by
    simp only [F, hf, turn, Moments.ofEdge, Point.sub_dx, Point.sub_dy]
    ring
  have hround : (P.edges.map fun e => F e.2 - F e.1).sum = 0 := Polygon.sum_edges_sub F P.vertices
  simp only [hedge, List.sum_map_add, List.sum_map_mul_left, hround]
  simp only [hcenter, hf, Moments.centroid, Point.add_x, Point.add_y]
  field_simp
  ring

/-- An affine function that is negative at no vertex is at most three times as great at a
vertex as at the centroid. -/
theorem le_three_mul (hrule : Quadrature.Exact) (hc : P.path.centroid = .ok c)
    {f : Point ℝ → ℝ} (hf : IsAffineForm f) (hnonneg : ∀ v ∈ P.vertices, 0 ≤ f v)
    {v : Point ℝ} (hv : v ∈ P.vertices) : f v ≤ 3 * f c := by
  -- The triangles between the edges and `v` are traced in the same sense as the polygon.
  have hweight : ∀ e ∈ P.edges, 0 ≤ P.height e v := fun e he => height_nonneg he hv
  have hone : IsAffineForm fun _ => 1 := ⟨1, 0, 0, fun p => by ring⟩
  have hsum := sum_turn_mul hrule hc hf v
  have harea := sum_turn_mul hrule hc hone v
  have hne : P.path.moments.area ≠ 0 := (Path.eq_of_centroid hc).2.1
  simp only [height] at hweight
  generalize P.path.moments.area = area at hne harea hsum
  have htwice : 2 * (P.sign * area) = (P.edges.map fun e => P.sign * turn e.1 e.2 v).sum := by
    rw [List.sum_map_mul_left]
    rw [List.sum_map_mul_right] at harea
    linear_combination -P.sign / 3 * harea
  have hpos : 0 < P.sign * area := by
    have hle : 0 ≤ (P.edges.map fun e => P.sign * turn e.1 e.2 v).sum :=
      List.sum_nonneg (List.forall_mem_map.mpr hweight)
    exact lt_of_le_of_ne (by linarith) (mul_ne_zero P.sign_ne_zero hne).symm
  have hterms : (P.edges.map fun e => P.sign * turn e.1 e.2 v * f v).sum ≤
      (P.edges.map fun e => P.sign * (turn e.1 e.2 v * (f e.1 + f e.2 + f v))).sum := by
    refine List.sum_le_sum fun e he => ?_
    have hends := Polygon.mem_of_mem_edges he
    have h := mul_nonneg (hweight e he)
      (add_nonneg (hnonneg e.1 hends.1) (hnonneg e.2 hends.2))
    linarith
  have hright : (P.edges.map fun e => P.sign * (turn e.1 e.2 v * (f e.1 + f e.2 + f v))).sum =
      P.sign * (6 * area * f c) := by rw [List.sum_map_mul_left, hsum]
  rw [List.sum_map_mul_right, hright, ← htwice] at hterms
  refine le_of_mul_le_mul_left ?_ hpos
  linarith

/-- The centroid is no closer to the line of an edge than a third of the way of any vertex. -/
theorem height_le_three_mul (hrule : Quadrature.Exact) (hc : P.path.centroid = .ok c)
    (he : e ∈ P.edges) {v : Point ℝ} (hv : v ∈ P.vertices) :
    P.height e v ≤ 3 * P.height e c :=
  le_three_mul hrule hc (isAffineForm_height e) (fun _ hw => height_nonneg he hw) hv

theorem height_centroid_pos (hrule : Quadrature.Exact) (hc : P.path.centroid = .ok c)
    (he : e ∈ P.edges) : 0 < P.height e c := by
  obtain ⟨v, hv, hpos⟩ := exists_height_pos he
  have h := height_le_three_mul hrule hc he hv
  linarith

theorem contains_centroid (hrule : Quadrature.Exact) (hc : P.path.centroid = .ok c) :
    P.path.box.Contains c := by
  obtain ⟨v, hv⟩ : ∃ v, v ∈ P.vertices :=
    List.exists_mem_of_length_pos (Nat.lt_of_lt_of_le (by decide) P.three_le)
  have hbox : ∀ w ∈ P.vertices, P.path.box.Contains w := fun w hw => contains_box hw
  generalize P.path.box = b at hbox
  -- The distances from the four sides of the box are affine.
  have hside (k m n : ℝ) (h : ∀ w ∈ P.vertices, 0 ≤ k + m * w.x + n * w.y) :
      0 ≤ k + m * c.x + n * c.y := by
    have hle := le_three_mul hrule hc ⟨k, m, n, fun _ => rfl⟩ h hv
    linarith [h v hv]
  refine ⟨?_, ?_, ?_, ?_⟩
  · linarith [hside (-b.min.x) 1 0 fun w hw => by linarith [(hbox w hw).min_x]]
  · linarith [hside (-b.min.y) 0 1 fun w hw => by linarith [(hbox w hw).min_y]]
  · linarith [hside b.max.x (-1) 0 fun w hw => by linarith [(hbox w hw).max_x]]
  · linarith [hside b.max.y 0 (-1) fun w hw => by linarith [(hbox w hw).max_y]]

/-- A line through the centroid is crossed from either side: an affine function that is
zero at the centroid, but not everywhere, changes from positive to not positive on some
edge. -/
theorem exists_falling_edge (hrule : Quadrature.Exact) (hc : P.path.centroid = .ok c)
    {f : Point ℝ → ℝ} (hf : IsAffineForm f) (hzero : f c = 0) {q : Point ℝ} (hq : f q ≠ 0) :
    ∃ e ∈ P.edges, 0 < f e.1 ∧ f e.2 ≤ 0 := by
  obtain ⟨v, hv⟩ : ∃ v, v ∈ P.vertices :=
    List.exists_mem_of_length_pos (Nat.lt_of_lt_of_le (by decide) P.three_le)
  have hpos : ∃ v ∈ P.vertices, 0 < f v := by
    by_contra hnone
    push Not at hnone
    have hf' := hf.const_mul (-1)
    have hvertices : ∀ w ∈ P.vertices, f w = 0 := by
      intro w hw
      have h := le_three_mul hrule hc hf' (fun u hu => by linarith [hnone u hu]) hw
      rw [hzero] at h
      linarith [hnone w hw]
    obtain ⟨e, he⟩ := P.exists_mem_edges
    obtain ⟨w, hw, hheight⟩ := exists_height_pos he
    have hends := Polygon.mem_of_mem_edges he
    exact hq (hf.eq_zero (right_ne_zero_of_mul hheight.ne') (hvertices _ hends.1)
      (hvertices _ hends.2) (hvertices w hw) q)
  have hnonpos : ∃ v ∈ P.vertices, ¬ 0 < f v := by
    by_contra hall
    push Not at hall
    have h := le_three_mul hrule hc hf (fun w hw => (hall w hw).le) hv
    linarith [hall v hv]
  obtain ⟨e, he, hfirst, hsecond⟩ := Polygon.exists_edge hpos hnonpos
  exact ⟨e, he, hfirst, not_lt.mp hsecond⟩

end

end ConvexPolygon

end Drafting
