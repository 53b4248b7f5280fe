import Drafting.Proofs.Context.Drawing

/-!
# Shapes step by step

A line, a rectangle, an ellipse or a mark that is drawn without a placement anchor is
what moving to its positions one after the other and then drawing its segments leads to:
the same node in the same context. A curve is, too, except that its node also carries the
control points as explicit anchors.

So the positions of a call are resolved each from the point left by those before it, and
the flags of positions inside other positions are never looked at.
-/

namespace Drafting

variable {K S : Type} [Scalar K]

/-- The form of a position with the wishes of all inner positions dropped. -/
def PositionSpec.unflagged : PositionSpec K → PositionSpec K
  | relativeTo rel base _ => relativeTo rel base.unflagged false
  | spec => spec

def Position.unflagged (p : Position K) : Position K := ⟨p.spec.unflagged, p.update⟩

def Call.unflagged : Call K → Call K
  | resolvePosition p update => resolvePosition p.unflagged update
  | moveTo p => moveTo p.unflagged
  | line positions options => line (positions.map (·.unflagged)) options
  | rect a b options => rect a.unflagged b.unflagged options
  | circle center rx ry options => circle center.unflagged rx ry options
  | bezier start finish controls options =>
    bezier start.unflagged finish.unflagged (controls.map (·.unflagged)) options
  | mark positions m options => mark (positions.map (·.unflagged)) m options
  | anchor name position => anchor name position.unflagged
  | k => k

/-- By induction on the position: the base of a relative one is resolved without a look
at its flag. -/
theorem Frame.resolve_unflagged (f : Frame K) (spec : PositionSpec K) :
    f.resolve spec.unflagged = f.resolve spec := by
  induction spec with
  | relativeTo rel base update ih => simp only [PositionSpec.unflagged, resolve, ih]
  | _ => rfl

namespace Action

theorem resolvePosition_unflagged (p : Position K) (update : Bool) :
    (resolvePosition p.unflagged update : Action K S (Point K)) = resolvePosition p update := by
  have hspec (f : Frame K) : f.resolve p.unflagged.spec = f.resolve p.spec :=
    f.resolve_unflagged p.spec
  simp only [resolvePosition, hspec]
  rfl

theorem moveTo_unflagged (p : Position K) :
    (moveTo p.unflagged : Action K S (Point K)) = moveTo p :=
  resolvePosition_unflagged p true

theorem resolveEach_unflagged (ps : List (Position K)) :
    (resolveEach (ps.map (·.unflagged)) : Action K S (List (Point K))) = resolveEach ps := by
  induction ps with
  | nil => rfl
  | cons p ps ih => simp only [List.map_cons, resolveEach, moveTo_unflagged, ih]

end Action

theorem Call.act_unflagged [Sink K S] (k : Call K) :
    (k.unflagged.act : Action K S (Answer K)) = k.act := by
  cases k with
  | transform op => rfl
  | resolvePosition p update => simp only [unflagged, act, Action.resolvePosition_unflagged]
  | moveTo p => simp only [unflagged, act, Action.moveTo_unflagged]
  | line positions options =>
    simp only [unflagged, act, Action.line, Action.resolveAll, Action.resolveEach_unflagged]
  | rect a b options =>
    simp only [unflagged, act, Action.rect, Action.resolvePair, Action.moveTo_unflagged]
  | circle center rx ry options =>
    simp only [unflagged, act, Action.circle, Action.moveTo_unflagged]
  | bezier start finish controls options =>
    simp only [unflagged, act, Action.bezier, Action.resolveCurve, Action.moveTo_unflagged,
      Action.resolveEach_unflagged]
  | mark positions m options =>
    simp only [unflagged, act, Action.mark, Action.resolveAll, Action.resolveEach_unflagged]
  | anchor name position => simp only [unflagged, act, Action.anchor, Action.moveTo_unflagged]
  | draw kind segments options => rfl

variable [Sink K S]

theorem Call.Draws.of_not_placed {c c' : Context K S} {k : Call K} {n : Node K}
    (h : Draws c k n c') (hk : k.placement? = none) :
    ∃ points d, Action.resolveEach k.positions c = .ok points d ∧ Builds d k points n ∧
      c' = d.addNode n := by
  obtain ⟨hpoints, hm, hn⟩ := h
  rw [hk] at hn
  cases hn
  exact ⟨_, _, hpoints, hm, rfl⟩

def Node.controlAnchors (points : List (Point K)) : NameMap (Point K) :=
  points.zipIdx.foldl (fun anchors (p, i) => anchors.insert ("ctrl-" ++ toString i) p) ∅

namespace Action

variable {c c' d : Context K S} {n m : Node K} {options : DrawOptions}

omit [Scalar K] [Sink K S] in
/-- By induction on the control points: each adds its anchor and changes nothing else. -/
theorem eq_of_addControls {points : List (Point K)} (hm : m.anchors = ∅)
    (h : addControls m points = .ok n) :
    n = { m with anchors := Node.controlAnchors points } := by
  unfold addControls at h
  unfold Node.controlAnchors
  rw [← hm]
  clear hm
  generalize points.zipIdx = l at h ⊢
  induction l generalizing m with
  | nil =>
    cases h
    rfl
  | cons a l ih =>
    obtain ⟨m', hm', h⟩ := bind_eq_ok.mp h
    obtain ⟨-, -, rfl⟩ := Node.eq_of_addAnchor hm'
    exact ih h

omit [Sink K S] in
theorem anchors_of_build {kind : String} {segments : List (Segment K)}
    (h : build d kind segments options = .ok m) : m.anchors = ∅ := by
  obtain ⟨drawable, -, h⟩ := bind_eq_ok.mp h
  obtain ⟨name, -, h⟩ := bind_eq_ok.mp (mapError_eq_ok.mp h)
  cases h
  rfl

theorem draw_of_build (ho : options.anchor = none) {kind : String} {segments : List (Segment K)}
    (h : build d kind segments options = .ok n) :
    draw kind segments options d = .ok n (d.addNode n) := by
  refine draw_ok_iff.mpr (.mk (resolveEach_nil_ok_iff.mpr ⟨rfl, rfl⟩) (.draw h) ?_)
  simp only [Call.placement?, ho, placed]

theorem line_after_moves (ho : options.anchor = none) {positions : List (Position K)}
    (h : line positions options c = .ok n c') :
    (do
      let points ← positions.mapM moveTo
      let segment ← ofExcept .path (Segment.line points)
      draw "path" [segment] options) c = .ok n c' := by
  obtain ⟨points, d, hpoints, hn, rfl⟩ := (line_ok_iff.mp h).of_not_placed ho
  cases hn with
  | line hs hn =>
    rw [Call.positions, resolveEach_eq_mapM] at hpoints
    rw [bind_of_ok hpoints, bind_of_ok (ofExcept_ok_iff.mpr ⟨hs, rfl⟩)]
    exact draw_of_build ho hn

theorem rect_after_moves (ho : options.anchor = none) {a b : Position K}
    (h : rect a b options c = .ok n c') :
    (do
      let p ← moveTo a
      let q ← moveTo b
      draw "path" (Shape.rectangle p q) options) c = .ok n c' := by
  obtain ⟨points, d, hpoints, hn, rfl⟩ := (rect_ok_iff.mp h).of_not_placed ho
  cases hn with
  | rect hn =>
    obtain ⟨e, hp, hq⟩ := resolveEach_cons_cons_ok_iff.mp hpoints
    rw [bind_of_ok hp, bind_of_ok (resolveEach_singleton_ok_iff.mp hq)]
    exact draw_of_build ho hn

theorem circle_after_moves (ho : options.anchor = none) {center : Position K} {rx ry : K}
    (h : circle center rx ry options c = .ok n c') :
    (do
      let p ← moveTo center
      draw "path" (Shape.ellipse p rx ry) options) c = .ok n c' := by
  obtain ⟨points, d, hpoints, hn, rfl⟩ := (circle_ok_iff.mp h).of_not_placed ho
  cases hn with
  | circle _ hn =>
    rw [bind_of_ok (resolveEach_singleton_ok_iff.mp hpoints)]
    exact draw_of_build ho hn

theorem mark_after_moves (ho : options.anchor = none) {positions : List (Position K)}
    {symbol : Mark K} (h : mark positions symbol options c = .ok n c') :
    (do
      let points ← positions.mapM moveTo
      let segments ← ofExcept .transform (symbol.stamp points)
      draw "mark" segments options) c = .ok n c' := by
  obtain ⟨points, d, hpoints, hn, rfl⟩ := (mark_ok_iff.mp h).of_not_placed ho
  cases hn with
  | mark hs hn =>
    rw [Call.positions, resolveEach_eq_mapM] at hpoints
    rw [bind_of_ok hpoints, bind_of_ok (ofExcept_ok_iff.mpr ⟨hs, rfl⟩)]
    exact draw_of_build ho hn

/-- The node drawn in the end is that of the curve without its explicit anchors. -/
theorem bezier_after_moves (ho : options.anchor = none) {start finish : Position K}
    {controls : List (Position K)} (h : bezier start finish controls options c = .ok n c') :
    ∃ (points : List (Point K)) (m : Node K) (d : Context K S),
      (do
        let p ← moveTo start
        let q ← moveTo finish
        let points ← controls.mapM moveTo
        let segment ← ofExcept .position (bezierSegment p q points)
        return (points, ← draw "path" [segment] options)) c = .ok (points, m) (d.addNode m) ∧
      n = { m with anchors := Node.controlAnchors points } ∧ c' = d.addNode n := by
  obtain ⟨points, d, hpoints, hn, rfl⟩ := (bezier_ok_iff.mp h).of_not_placed ho
  cases hn with
  | @bezier _ _ _ _ p q points segment m _ hs hm hn =>
    obtain ⟨e, hp, hrest⟩ := resolveEach_cons_cons_ok_iff.mp hpoints
    obtain ⟨e', hq, hcontrols⟩ := resolveEach_cons_cons_ok_iff.mp hrest
    rw [resolveEach_eq_mapM] at hcontrols
    refine ⟨points, m, d, ?_, eq_of_addControls (anchors_of_build hm) hn, rfl⟩
    rw [bind_of_ok hp, bind_of_ok hq, bind_of_ok hcontrols,
      bind_of_ok (ofExcept_ok_iff.mpr ⟨hs, rfl⟩), bind_of_ok (draw_of_build ho hm)]
    rfl

/-- A call visits its positions one after the other and builds its node over their points,
at the place where the last of them has left the current point. -/
theorem follows_of_act {k : Call K} (h : k.act c = .ok (.node n) c') :
    ∃ (points : List (Point K)) (m : Node K),
      let visited := k.positions.zip points
      let d : Context K S := { c with current := Position.leftAt c.current visited }
      points.length = k.positions.length ∧
      (∀ i p q, visited[i]? = some (p, q) →
        ({ c with current := Position.leftAt c.current (visited.take i) } :
          Context K S).frame.resolve p.spec = .ok q) ∧
      k.Builds d points m ∧ placed m (points.head?.getD d.current) k.placement? = .ok n ∧
      c' = d.addNode n := by
  obtain ⟨hpoints, hm, hn⟩ := Call.act_eq_node_iff.mp h
  obtain ⟨hlength, rfl, hfollows⟩ := follows_of_resolveEach hpoints
  exact ⟨_, _, hlength, hfollows, hm, hn, rfl⟩

/-- Without a placement anchor, shapes are drawn by moving to their positions in order and
drawing their segments; a curve gains its explicit anchors besides. Every call resolves
each of its positions from the point left by those before it, and calls that differ in the
flags of inner positions only are the same. -/
theorem shapes_after_moves (ho : options.anchor = none) (c c' : Context K S) (n : Node K) :
    (∀ positions, line positions options c = .ok n c' →
      (do
        let points ← positions.mapM moveTo
        let segment ← ofExcept .path (Segment.line points)
        draw "path" [segment] options) c = .ok n c') ∧
    (∀ a b, rect a b options c = .ok n c' →
      (do
        let p ← moveTo a
        let q ← moveTo b
        draw "path" (Shape.rectangle p q) options) c = .ok n c') ∧
    (∀ center rx ry, circle center rx ry options c = .ok n c' →
      (do
        let p ← moveTo center
        draw "path" (Shape.ellipse p rx ry) options) c = .ok n c') ∧
    (∀ positions symbol, mark positions symbol options c = .ok n c' →
      (do
        let points ← positions.mapM moveTo
        let segments ← ofExcept .transform (symbol.stamp points)
        draw "mark" segments options) c = .ok n c') ∧
    (∀ start finish controls, bezier start finish controls options c = .ok n c' →
      ∃ (points : List (Point K)) (m : Node K) (d : Context K S),
        (do
          let p ← moveTo start
          let q ← moveTo finish
          let points ← controls.mapM moveTo
          let segment ← ofExcept .position (bezierSegment p q points)
          return (points, ← draw "path" [segment] options)) c = .ok (points, m) (d.addNode m) ∧
        n = { m with anchors := Node.controlAnchors points } ∧ c' = d.addNode n) ∧
    (∀ k : Call K, k.act c = .ok (.node n) c' →
      ∃ (points : List (Point K)) (m : Node K),
        let visited := k.positions.zip points
        let d : Context K S := { c with current := Position.leftAt c.current visited }
        points.length = k.positions.length ∧
        (∀ i p q, visited[i]? = some (p, q) →
          ({ c with current := Position.leftAt c.current (visited.take i) } :
            Context K S).frame.resolve p.spec = .ok q) ∧
        k.Builds d points m ∧ placed m (points.head?.getD d.current) k.placement? = .ok n ∧
        c' = d.addNode n) ∧
    ∀ k k' : Call K, k.unflagged = k'.unflagged → (k.act : Action K S (Answer K)) = k'.act := by
  refine ⟨fun _ => line_after_moves ho, fun _ _ => rect_after_moves ho,
    fun _ _ _ => circle_after_moves ho, fun _ _ => mark_after_moves ho,
    fun _ _ _ => bezier_after_moves ho, fun _ => follows_of_act, fun k k' h => ?_⟩
  rw [← k.act_unflagged, h, k'.act_unflagged]

set_option maxRecDepth 4000 in
/-- A line whose first position leaves the current point where it is, and whose last one
is relative to a position that would move it. -/
theorem shapes_after_moves_relative :
    let options : DrawOptions := ⟨some "stroke", none, Style.empty⟩
    let positions : List (Position Float) :=
      [⟨.cartesian 4 4, false⟩, ⟨.relative (.cartesian 1 1), true⟩,
        ⟨.relativeTo (.cartesian 0 2) (.cartesian 5 5) true, true⟩]
    let c : Context Float (Recording Float) := Context.start Recording.empty 15 Style.empty
    options.anchor = none ∧ ∃ n c', line positions options c = .ok n c' ∧
      (do
        let points ← positions.mapM moveTo
        let segment ← ofExcept .path (Segment.line points)
        draw "path" [segment] options) c = .ok n c' :=
  have h : line _ _ _ = .ok _ _ := rfl
  ⟨rfl, _, _, h, (shapes_after_moves rfl _ _ _).1 _ h⟩

end Action

end Drafting
