import Drafting.Proofs.Context.Calls
import Mathlib.Data.List.Basic

/-!
# What a call draws

The calls that answer a node all work alike. They move to their positions in order,
build a node over the points, move it so that its placement anchor lies on the first
point, and register it. Here the parts of a call are named, and a call answers a node
exactly when they fit together.

On the way the current point is followed through the list of positions: each of them is
resolved from the point at which those before it have left the drawing.
-/

namespace Drafting

variable {K S : Type} [Scalar K]

namespace Call

def positions : Call K → List (Position K)
  | line positions _ | mark positions _ _ => positions
  | rect a b _ => [a, b]
  | circle center _ _ _ => [center]
  | bezier start finish controls _ => start :: finish :: controls
  | anchor _ position => [position]
  | _ => []

def placement? : Call K → Option String
  | line _ options | rect _ _ options | circle _ _ _ options | bezier _ _ _ options
  | mark _ _ options | draw _ _ options => options.anchor
  | _ => none

def unplaced : Call K → Call K
  | line positions options => line positions { options with anchor := none }
  | rect a b options => rect a b { options with anchor := none }
  | circle center rx ry options => circle center rx ry { options with anchor := none }
  | bezier start finish controls options =>
    bezier start finish controls { options with anchor := none }
  | mark positions m options => mark positions m { options with anchor := none }
  | draw kind segments options => draw kind segments { options with anchor := none }
  | k => k

/-- The node that a call builds over the points of its positions, before it is placed. -/
inductive Builds (c : Context K S) : Call K → List (Point K) → Node K → Prop
  | line {positions options points segment n} :
      Segment.line points = .ok segment → Action.build c "path" [segment] options = .ok n →
      Builds c (.line positions options) points n
  | rect {a b options p q n} :
      Action.build c "path" (Shape.rectangle p q) options = .ok n →
      Builds c (.rect a b options) [p, q] n
  | circle {center rx ry options p n} :
      Point.checked rx ry = .ok ⟨rx, ry⟩ →
      Action.build c "path" (Shape.ellipse p rx ry) options = .ok n →
      Builds c (.circle center rx ry options) [p] n
  | bezier {start finish controls options p q points segment m n} :
      Action.bezierSegment p q points = .ok segment →
      Action.build c "path" [segment] options = .ok m → Action.addControls m points = .ok n →
      Builds c (.bezier start finish controls options) (p :: q :: points) n
  | mark {positions m options points segments n} :
      Mark.stamp m points = .ok segments → Action.build c "mark" segments options = .ok n →
      Builds c (.mark positions m options) points n
  | anchor {name position p n} :
      Node.anchorPoint (some name) p = .ok n → Builds c (.anchor name position) [p] n
  | draw {kind segments options n} :
      Action.build c kind segments options = .ok n → Builds c (.draw kind segments options) [] n

omit [Scalar K] in
theorem positions_unplaced (k : Call K) : k.unplaced.positions = k.positions := by
  cases k <;> rfl

omit [Scalar K] in
theorem placement?_unplaced (k : Call K) : k.unplaced.placement? = none := by
  cases k <;> rfl

/-- What is built does not depend on where it is placed. -/
theorem Builds.unplaced {c : Context K S} {k : Call K} {points : List (Point K)} {n : Node K}
    (h : Builds c k points n) : Builds c k.unplaced points n := by
  cases h with
  | line hs hn => exact .line hs hn
  | rect hn => exact .rect hn
  | circle hr hn => exact .circle hr hn
  | bezier hs hm hn => exact .bezier hs hm hn
  | mark hs hn => exact .mark hs hn
  | anchor hn => exact .anchor hn
  | draw hn => exact .draw hn

/-- The point onto which a call puts its placement anchor: that of its first position,
or the current point when there is none. -/
def target (k : Call K) (c : Context K S) : Except (PositionError K) (Point K) :=
  match k.positions.head? with
  | some p => c.frame.resolve p.spec
  | none => .ok c.current

end Call

/-- The current point after positions have been visited, each given with its point: that
of the last one which asks for it, or the point of the start. -/
def Position.leftAt (start : Point K) (visited : List (Position K × Point K)) : Point K :=
  visited.foldl (fun current (p, q) => if p.update then q else current) start

theorem Point.eq_of_checked {x y : K} {p : Point K} (h : Point.checked x y = .ok p) :
    p = ⟨x, y⟩ := by
  have hfinite {a b : K} (h : Scalar.finite a = .ok b) : b = a := by
    unfold Scalar.finite at h
    split_ifs at h
    cases h
    rfl
  obtain ⟨a, ha, h⟩ := bind_eq_ok.mp h
  obtain ⟨b, hb, h⟩ := bind_eq_ok.mp h
  cases h
  rw [hfinite ha, hfinite hb]

namespace Action

section
variable {α : Type} {c c' : Context K S}

omit [Scalar K] in
theorem restoringCurrent_ok_iff {act : Action K S α} {a : α} :
    restoringCurrent act c = .ok a c' ↔ act c = .ok a c' := by
  unfold restoringCurrent
  cases act c <;> simp

omit [Scalar K] in
theorem ofExcept_ok_iff {ε : Type} {wrap : ε → DrawingError K} {x : Except ε α} {a : α} :
    (ofExcept wrap x : Action K S α) c = .ok a c' ↔ x = .ok a ∧ c' = c := by
  cases x with
  | error e => exact ⟨nofun, nofun⟩
  | ok b =>
    constructor
    · intro h
      cases h
      exact ⟨rfl, rfl⟩
    · rintro ⟨h, rfl⟩
      cases h
      rfl

/-- Moving to a position resolves it, and the current point follows when the position
asks for it. -/
theorem moveTo_ok_iff {p : Position K} {q : Point K} :
    moveTo p c = .ok q c' ↔ c.frame.resolve p.spec = .ok q ∧
      c' = { c with current := if p.update then q else c.current } := by
  have hget : (get : Action K S (Context K S)) c = .ok c c := rfl
  unfold moveTo resolvePosition
  rw [bind_of_ok hget, bind_ok_iff]
  constructor
  · rintro ⟨q', d, hq, h⟩
    obtain ⟨hq, rfl⟩ := ofExcept_ok_iff.mp hq
    rw [Bool.true_and] at h
    split_ifs at h with hu
    · cases h
      exact ⟨hq, by rw [if_pos hu]⟩
    · cases h
      exact ⟨hq, by rw [if_neg hu]⟩
  · rintro ⟨hq, rfl⟩
    refine ⟨q, c, ofExcept_ok_iff.mpr ⟨hq, rfl⟩, ?_⟩
    rw [Bool.true_and]
    split_ifs <;> rfl

omit [Scalar K] in
theorem pure_ok_iff {a b : α} : (pure a : Action K S α) c = .ok b c' ↔ b = a ∧ c' = c := by
  constructor
  · intro h
    cases h
    exact ⟨rfl, rfl⟩
  · rintro ⟨rfl, rfl⟩
    rfl

omit [Scalar K] in
theorem get_bind {f : Context K S → Action K S α} : (get >>= f) c = f c c := rfl

theorem resolveEach_nil_ok_iff {points : List (Point K)} :
    (resolveEach [] : Action K S _) c = .ok points c' ↔ points = [] ∧ c' = c :=
  pure_ok_iff

theorem resolveEach_cons_ok_iff {p : Position K} {ps : List (Position K)}
    {points : List (Point K)} :
    resolveEach (p :: ps) c = .ok points c' ↔
      ∃ q qs d, moveTo p c = .ok q d ∧ resolveEach ps d = .ok qs c' ∧ points = q :: qs := by
  have hcons : (resolveEach (p :: ps) : Action K S (List (Point K))) =
      moveTo p >>= fun q => (q :: ·) <$> resolveEach ps := rfl
  rw [hcons, bind_ok_iff]
  constructor
  · rintro ⟨q, d, hq, h⟩
    obtain ⟨qs, hqs, rfl⟩ := map_ok_iff.mp h
    exact ⟨q, qs, d, hq, hqs, rfl⟩
  · rintro ⟨q, qs, d, hq, hqs, rfl⟩
    exact ⟨q, d, hq, map_ok_iff.mpr ⟨qs, hqs, rfl⟩⟩

theorem resolveEach_cons_cons_ok_iff {p : Position K} {ps : List (Position K)} {q : Point K}
    {qs : List (Point K)} :
    resolveEach (p :: ps) c = .ok (q :: qs) c' ↔
      ∃ d, moveTo p c = .ok q d ∧ resolveEach ps d = .ok qs c' := by
  rw [resolveEach_cons_ok_iff]
  constructor
  · rintro ⟨q', qs', d, hq, hqs, h⟩
    cases h
    exact ⟨d, hq, hqs⟩
  · rintro ⟨d, hq, hqs⟩
    exact ⟨q, qs, d, hq, hqs, rfl⟩

/-- Moving to positions in order, without going back when one of them fails. -/
theorem resolveEach_eq_mapM (ps : List (Position K)) :
    (resolveEach ps : Action K S (List (Point K))) = ps.mapM moveTo := by
  induction ps with
  | nil => rfl
  | cons p ps ih =>
    rw [List.mapM_cons, resolveEach, ih]

/-- By induction on the positions: each is resolved from the point at which those before
it have left the context, and nothing but the current point changes. -/
theorem follows_of_resolveEach {ps : List (Position K)} {points : List (Point K)}
    (h : resolveEach ps c = .ok points c') :
    points.length = ps.length ∧
      c' = { c with current := Position.leftAt c.current (ps.zip points) } ∧
      ∀ i p q, (ps.zip points)[i]? = some (p, q) →
        ({ c with current := Position.leftAt c.current ((ps.zip points).take i) } :
          Context K S).frame.resolve p.spec = .ok q := by
  induction ps generalizing c points with
  | nil =>
    obtain ⟨rfl, rfl⟩ := resolveEach_nil_ok_iff.mp h
    exact ⟨rfl, rfl, nofun⟩
  | cons p ps ih =>
    obtain ⟨q, qs, d, hmove, hqs, rfl⟩ := resolveEach_cons_ok_iff.mp h
    obtain ⟨hq, rfl⟩ := moveTo_ok_iff.mp hmove
    obtain ⟨hlength, hc, hrest⟩ := ih hqs
    refine ⟨by simp [hlength], hc, fun i => ?_⟩
    cases i with
    | zero =>
      intro p' q' hp
      cases hp
      exact hq
    | succ i => exact hrest i

theorem target_of_resolveEach {k : Call K} {points : List (Point K)}
    (h : resolveEach k.positions c = .ok points c') :
    k.target c = .ok (points.head?.getD c'.current) := by
  unfold Call.target
  cases hp : k.positions with
  | nil =>
    rw [hp] at h
    obtain ⟨rfl, rfl⟩ := resolveEach_nil_ok_iff.mp h
    rfl
  | cons p ps =>
    rw [hp] at h
    obtain ⟨q, qs, d, hq, -, rfl⟩ := resolveEach_cons_ok_iff.mp h
    exact (moveTo_ok_iff.mp hq).1

variable [Sink K S]

theorem place_ok_iff {node : Except (DrawingError K) (Node K)} {target saved : Point K}
    {options : DrawOptions} {n : Node K} :
    place node target options saved c = .ok n c' ↔
      (∃ m, node = .ok m ∧ placed m target options.anchor = .ok n) ∧ c' = c.addNode n := by
  have hplace : place node target options saved c = .ok n c' ↔
      (node >>= fun m => (placed m target options.anchor).mapError .anchor) = .ok n ∧
        c' = c.addNode n := by
    change _ ↔ (node.bind fun m => (placed m target options.anchor).mapError .anchor) = .ok n ∧ _
    unfold place
    cases node.bind fun m => (placed m target options.anchor).mapError .anchor with
    | error e => exact ⟨nofun, nofun⟩
    | ok n' =>
      constructor
      · intro h
        cases h
        exact ⟨rfl, rfl⟩
      · rintro ⟨h, rfl⟩
        cases h
        rfl
  rw [hplace]
  simp only [bind_eq_ok, mapError_eq_ok]

end

end Action

variable [Sink K S]

inductive Call.Draws (c : Context K S) (k : Call K) : Node K → Context K S → Prop
  | mk {points : List (Point K)} {d : Context K S} {m n : Node K} :
      Action.resolveEach k.positions c = .ok points d → Builds d k points m →
      Action.placed m (points.head?.getD d.current) k.placement? = .ok n →
      Draws c k n (d.addNode n)

namespace Action

variable {c c' : Context K S} {n : Node K} {options : DrawOptions}

theorem line_ok_iff {positions : List (Position K)} :
    line positions options c = .ok n c' ↔ Call.Draws c (.line positions options) n c' := by
  simp only [line, resolveAll, get_bind, bind_ok_iff, restoringCurrent_ok_iff, place_ok_iff]
  constructor
  · rintro ⟨points, d, hpoints, ⟨m, hm, hn⟩, rfl⟩
    obtain ⟨segment, hs, hm⟩ := bind_eq_ok.mp hm
    exact .mk hpoints (.line (mapError_eq_ok.mp hs) hm) hn
  · rintro ⟨hpoints, hm, hn⟩
    cases hm with
    | line hs hm =>
      exact ⟨_, _, hpoints, ⟨_, bind_eq_ok.mpr ⟨_, mapError_eq_ok.mpr hs, hm⟩, hn⟩, rfl⟩

omit [Sink K S] in
theorem resolveEach_singleton_ok_iff {p : Position K} {q : Point K} :
    resolveEach [p] c = .ok [q] c' ↔ moveTo p c = .ok q c' := by
  simp only [resolveEach_cons_cons_ok_iff, resolveEach_nil_ok_iff, true_and]
  constructor
  · rintro ⟨d, hq, rfl⟩
    exact hq
  · intro hq
    exact ⟨c', hq, rfl⟩

omit [Sink K S] in
theorem resolvePair_ok_iff {a b : Position K} {p q : Point K} :
    resolvePair a b c = .ok (p, q) c' ↔ resolveEach [a, b] c = .ok [p, q] c' := by
  simp only [resolvePair, restoringCurrent_ok_iff, bind_ok_iff, pure_ok_iff, Prod.mk.injEq]
  rw [resolveEach_cons_cons_ok_iff]
  simp only [resolveEach_singleton_ok_iff]
  constructor
  · rintro ⟨_, d, hp, _, _, hq, ⟨rfl, rfl⟩, rfl⟩
    exact ⟨d, hp, hq⟩
  · rintro ⟨d, hp, hq⟩
    exact ⟨p, d, hp, q, c', hq, ⟨rfl, rfl⟩, rfl⟩

omit [Sink K S] in
theorem resolveCurve_ok_iff {start finish : Position K} {controls : List (Position K)}
    {p q : Point K} {points : List (Point K)} :
    resolveCurve start finish controls c = .ok (p, q, points) c' ↔
      resolveEach (start :: finish :: controls) c = .ok (p :: q :: points) c' := by
  simp only [resolveCurve, restoringCurrent_ok_iff, bind_ok_iff, pure_ok_iff, Prod.mk.injEq,
    resolveEach_cons_cons_ok_iff]
  constructor
  · rintro ⟨_, d, hp, _, d', hq, _, _, hpoints, ⟨rfl, rfl, rfl⟩, rfl⟩
    exact ⟨d, hp, d', hq, hpoints⟩
  · rintro ⟨d, hp, d', hq, hpoints⟩
    exact ⟨p, d, hp, q, d', hq, points, c', hpoints, ⟨rfl, rfl, rfl⟩, rfl⟩

theorem rect_ok_iff {a b : Position K} :
    rect a b options c = .ok n c' ↔ Call.Draws c (.rect a b options) n c' := by
  simp only [rect, get_bind, bind_ok_iff, place_ok_iff]
  constructor
  · rintro ⟨⟨p, q⟩, d, hpoints, ⟨m, hm, hn⟩, rfl⟩
    exact .mk (resolvePair_ok_iff.mp hpoints) (.rect hm) hn
  · rintro ⟨hpoints, hm, hn⟩
    cases hm with
    | rect hm => exact ⟨(_, _), _, resolvePair_ok_iff.mpr hpoints, ⟨_, hm, hn⟩, rfl⟩

theorem circle_ok_iff {center : Position K} {rx ry : K} :
    circle center rx ry options c = .ok n c' ↔
      Call.Draws c (.circle center rx ry options) n c' := by
  simp only [circle, get_bind, bind_ok_iff, ofExcept_ok_iff, restoringCurrent_ok_iff, place_ok_iff]
  constructor
  · rintro ⟨radii, _, ⟨hr, rfl⟩, p, d, hp, ⟨m, hm, hn⟩, rfl⟩
    obtain rfl := Point.eq_of_checked hr
    exact .mk (resolveEach_singleton_ok_iff.mpr hp) (.circle hr hm) hn
  · rintro ⟨hpoints, hm, hn⟩
    cases hm with
    | circle hr hm =>
      exact ⟨_, c, ⟨hr, rfl⟩, _, _, resolveEach_singleton_ok_iff.mp hpoints, ⟨_, hm, hn⟩, rfl⟩

theorem mark_ok_iff {positions : List (Position K)} {m : Mark K} :
    mark positions m options c = .ok n c' ↔ Call.Draws c (.mark positions m options) n c' := by
  simp only [mark, resolveAll, get_bind, bind_ok_iff, restoringCurrent_ok_iff, place_ok_iff]
  constructor
  · rintro ⟨points, d, hpoints, ⟨m, hm, hn⟩, rfl⟩
    obtain ⟨segments, hs, hm⟩ := bind_eq_ok.mp hm
    exact .mk hpoints (.mark (mapError_eq_ok.mp hs) hm) hn
  · rintro ⟨hpoints, hm, hn⟩
    cases hm with
    | mark hs hm =>
      exact ⟨_, _, hpoints, ⟨_, bind_eq_ok.mpr ⟨_, mapError_eq_ok.mpr hs, hm⟩, hn⟩, rfl⟩

theorem bezier_ok_iff {start finish : Position K} {controls : List (Position K)} :
    bezier start finish controls options c = .ok n c' ↔
      Call.Draws c (.bezier start finish controls options) n c' := by
  simp only [bezier, get_bind, bind_ok_iff]
  constructor
  · rintro ⟨⟨p, q, points⟩, d, hpoints, h⟩
    dsimp only at h
    cases hs : bezierSegment p q points with
    | error e =>
      rw [hs] at h
      cases h
    | ok segment =>
      rw [hs] at h
      obtain ⟨⟨m, hm, hn⟩, rfl⟩ := place_ok_iff.mp h
      obtain ⟨m', hm', hm⟩ := bind_eq_ok.mp hm
      exact .mk (resolveCurve_ok_iff.mp hpoints) (.bezier hs hm' (mapError_eq_ok.mp hm)) hn
  · rintro ⟨hpoints, hm, hn⟩
    cases hm with
    | bezier hs hm' hm =>
      refine ⟨(_, _, _), _, resolveCurve_ok_iff.mpr hpoints, ?_⟩
      dsimp only
      rw [hs]
      exact place_ok_iff.mpr ⟨⟨_, bind_eq_ok.mpr ⟨_, hm', mapError_eq_ok.mpr hm⟩, hn⟩, rfl⟩

theorem anchor_ok_iff {name : String} {position : Position K} :
    anchor name position c = .ok n c' ↔ Call.Draws c (.anchor name position) n c' := by
  simp only [anchor, get_bind, bind_ok_iff, restoringCurrent_ok_iff]
  constructor
  · rintro ⟨p, d, hp, h⟩
    cases hm : (Node.anchorPoint (some name) p : Except (AnchorError K) (Node K)) with
    | error e =>
      rw [hm] at h
      cases h
    | ok m =>
      rw [hm] at h
      cases h
      exact .mk (resolveEach_singleton_ok_iff.mpr hp) (.anchor hm) rfl
  · rintro ⟨hpoints, hm, hn⟩
    cases hm with
    | anchor hm =>
      refine ⟨_, _, resolveEach_singleton_ok_iff.mp hpoints, ?_⟩
      cases hn
      rw [hm]
      rfl

theorem draw_ok_iff {kind : String} {segments : List (Segment K)} :
    draw kind segments options c = .ok n c' ↔
      Call.Draws c (.draw kind segments options) n c' := by
  simp only [draw, get_bind, place_ok_iff]
  constructor
  · rintro ⟨⟨m, hm, hn⟩, rfl⟩
    exact .mk (resolveEach_nil_ok_iff.mpr ⟨rfl, rfl⟩) (.draw hm) hn
  · rintro ⟨hpoints, hm, hn⟩
    obtain ⟨rfl, rfl⟩ := resolveEach_nil_ok_iff.mp hpoints
    cases hm with
    | draw hm => exact ⟨⟨_, hm, hn⟩, rfl⟩

end Action

theorem Call.act_eq_node_iff {k : Call K} {c c' : Context K S} {n : Node K} :
    k.act c = .ok (.node n) c' ↔ Draws c k n c' := by
  have hnode {act : Action K S (Node K)} :
      (Answer.node <$> act) c = .ok (.node n) c' ↔ act c = .ok n c' := by
    rw [Action.map_ok_iff]
    constructor
    · rintro ⟨m, hm, h⟩
      cases h
      exact hm
    · intro h
      exact ⟨n, h, rfl⟩
  -- The other calls answer no node and build none.
  have hother {k : Call K} {α : Type} {act : Action K S α} {f : α → Answer K}
      (hf : ∀ a, f a ≠ .node n) (hk : ∀ (d : Context K S) points m, ¬ Builds d k points m) :
      (f <$> act) c = .ok (.node n) c' ↔ Draws c k n c' := by
    refine iff_of_false ?_ ?_
    · rw [Action.map_ok_iff]
      rintro ⟨a, -, ha⟩
      exact hf a ha
    · rintro ⟨-, hm, -⟩
      exact hk _ _ _ hm
  cases k with
  | transform op => exact hother nofun nofun
  | resolvePosition p update => exact hother nofun nofun
  | moveTo p => exact hother nofun nofun
  | line positions options => exact hnode.trans Action.line_ok_iff
  | rect a b options => exact hnode.trans Action.rect_ok_iff
  | circle center rx ry options => exact hnode.trans Action.circle_ok_iff
  | bezier start finish controls options => exact hnode.trans Action.bezier_ok_iff
  | mark positions m options => exact hnode.trans Action.mark_ok_iff
  | anchor name position => exact hnode.trans Action.anchor_ok_iff
  | draw kind segments options => exact hnode.trans Action.draw_ok_iff

end Drafting
