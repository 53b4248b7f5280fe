import Drafting.Binary64
import Drafting.Context.Run
import Drafting.Proofs.Node.Built

/-!
# What a call can do

A call has one of four outcomes: it fails and leaves the context as it was, it moves
the current point, it puts a transform in force, or it moves the current point and
registers one built node. The parts of a draw call are followed one by one. Those
that resolve positions change nothing but the current point, also when they fail in
the middle of a list; those that build the node read the context only; and the last
one either registers the node or puts the current point back.
-/

namespace Drafting

variable {K S α β : Type}

namespace Action

theorem bind_of_ok {act : Action K S α} {f : α → Action K S β} {c c' : Context K S} {a : α}
    (h : act c = .ok a c') : (act >>= f) c = f a c' := by
  change EStateM.bind act f c = f a c'
  simp only [EStateM.bind, h]

theorem bind_of_error {act : Action K S α} {f : α → Action K S β} {c c' : Context K S}
    {e : DrawingError K} (h : act c = .error e c') : (act >>= f) c = .error e c' := by
  change EStateM.bind act f c = .error e c'
  simp only [EStateM.bind, h]

theorem bind_ok_iff {act : Action K S α} {f : α → Action K S β} {c c' : Context K S} {b : β} :
    (act >>= f) c = .ok b c' ↔ ∃ a d, act c = .ok a d ∧ f a d = .ok b c' := by
  constructor
  · intro h
    cases ha : act c with
    | ok a d =>
      rw [bind_of_ok ha] at h
      exact ⟨a, d, rfl, h⟩
    | error e d =>
      rw [bind_of_error ha] at h
      cases h
  · rintro ⟨a, d, ha, hf⟩
    rw [bind_of_ok ha, hf]

theorem map_ok_iff {act : Action K S α} {f : α → β} {c c' : Context K S} {b : β} :
    (f <$> act) c = .ok b c' ↔ ∃ a, act c = .ok a c' ∧ f a = b := by
  have hmap : f <$> act = act >>= fun a => pure (f a) := rfl
  rw [hmap, bind_ok_iff]
  constructor
  · rintro ⟨a, d, ha, hb⟩
    cases hb
    exact ⟨a, ha, rfl⟩
  · rintro ⟨a, ha, rfl⟩
    exact ⟨a, c', ha, rfl⟩

/-- The action changes nothing but the current point, also when it fails. -/
def OnlyMoves (act : Action K S α) : Prop :=
  ∀ c, (∃ a q, act c = .ok a { c with current := q }) ∨
    ∃ e q, act c = .error e { c with current := q }

/-- The action changes nothing but the current point, and nothing when it fails. -/
def MovesOrFails (act : Action K S α) : Prop :=
  ∀ c, (∃ a q, act c = .ok a { c with current := q }) ∨ ∃ e, act c = .error e c

/-- The action registers a built node, or fails with the current point at `saved` and
nothing else changed. -/
def RegistersOrReturns [Scalar K] [Sink K S] (saved : Point K) (act : Action K S (Node K)) :
    Prop :=
  ∀ c, (∃ n, n.Built ∧ act c = .ok n (c.addNode n)) ∨
    ∃ e, act c = .error e { c with current := saved }

/-- The action moves the current point and registers a built node, or fails and
changes nothing. -/
def DrawsOrFails [Scalar K] [Sink K S] (act : Action K S (Node K)) : Prop :=
  ∀ c, (∃ n q, n.Built ∧ act c = .ok n (({ c with current := q } : Context K S).addNode n)) ∨
    ∃ e, act c = .error e c

theorem MovesOrFails.onlyMoves {act : Action K S α} (h : MovesOrFails act) : OnlyMoves act := by
  intro c
  rcases h c with h | ⟨e, he⟩
  · exact .inl h
  · exact .inr ⟨e, c.current, he⟩

theorem onlyMoves_pure (a : α) : OnlyMoves (pure a : Action K S α) :=
  fun c => .inl ⟨a, c.current, rfl⟩

theorem OnlyMoves.bind {act : Action K S α} {f : α → Action K S β} (h : OnlyMoves act)
    (hf : ∀ a, OnlyMoves (f a)) : OnlyMoves (act >>= f) := by
  intro c
  rcases h c with ⟨a, q, ha⟩ | ⟨e, q, he⟩
  · rw [bind_of_ok ha]
    exact hf a { c with current := q }
  · exact .inr ⟨e, q, bind_of_error he⟩

/-- Putting the current point back undoes all that such an action has changed. -/
theorem OnlyMoves.restoringCurrent {act : Action K S α} (h : OnlyMoves act) :
    MovesOrFails (restoringCurrent act) := by
  intro c
  rcases h c with ⟨a, q, ha⟩ | ⟨e, q, he⟩
  · exact .inl ⟨a, q, by simp only [Action.restoringCurrent, ha]⟩
  · exact .inr ⟨e, by simp only [Action.restoringCurrent, he]⟩

/-- A draw call resolves its positions first. When that succeeds, the rest either
registers a node or returns to the point from which the call started. -/
theorem MovesOrFails.bind_registers [Scalar K] [Sink K S] {act : Action K S α}
    {f : α → Action K S (Node K)} (h : MovesOrFails act) (c : Context K S)
    (hf : ∀ a, RegistersOrReturns c.current (f a)) :
    (∃ n q, n.Built ∧
      (act >>= f) c = .ok n (({ c with current := q } : Context K S).addNode n)) ∨
    ∃ e, (act >>= f) c = .error e c := by
  rcases h c with ⟨a, q, ha⟩ | ⟨e, he⟩
  · rw [bind_of_ok ha]
    rcases hf a { c with current := q } with ⟨n, hn, hr⟩ | ⟨e, hr⟩
    · exact .inl ⟨n, q, hn, hr⟩
    · exact .inr ⟨e, hr⟩
  · exact .inr ⟨e, bind_of_error he⟩

variable [Scalar K]

theorem resolvePosition_movesOrFails (p : Position K) (update : Bool) :
    MovesOrFails (resolvePosition p update : Action K S (Point K)) := by
  intro c
  change (∃ a q, EStateM.bind (ofExcept _ (c.frame.resolve p.spec)) _ c = _) ∨
    ∃ e, EStateM.bind (ofExcept _ (c.frame.resolve p.spec)) _ c = _
  cases c.frame.resolve p.spec with
  | error e => exact .inr ⟨.position e, rfl⟩
  | ok point =>
    cases update && p.update with
    | true => exact .inl ⟨point, point, rfl⟩
    | false => exact .inl ⟨point, c.current, rfl⟩

theorem moveTo_movesOrFails (p : Position K) :
    MovesOrFails (moveTo p : Action K S (Point K)) :=
  resolvePosition_movesOrFails p true

/-- By induction on the list: the positions before a failing one have moved the
current point and nothing else. -/
theorem resolveEach_onlyMoves (ps : List (Position K)) :
    OnlyMoves (resolveEach ps : Action K S (List (Point K))) := by
  induction ps with
  | nil => exact onlyMoves_pure []
  | cons p ps ih =>
    exact (moveTo_movesOrFails p).onlyMoves.bind fun a =>
      ih.bind fun as => onlyMoves_pure (a :: as)

theorem resolveAll_movesOrFails (ps : List (Position K)) :
    MovesOrFails (resolveAll ps : Action K S (List (Point K))) :=
  (resolveEach_onlyMoves ps).restoringCurrent

theorem resolvePair_movesOrFails (p q : Position K) :
    MovesOrFails (resolvePair p q : Action K S (Point K × Point K)) :=
  ((moveTo_movesOrFails p).onlyMoves.bind fun a =>
    (moveTo_movesOrFails q).onlyMoves.bind fun b => onlyMoves_pure (a, b)).restoringCurrent

theorem resolveCurve_movesOrFails (start finish : Position K) (controls : List (Position K)) :
    MovesOrFails (resolveCurve start finish controls :
      Action K S (Point K × Point K × List (Point K))) :=
  ((moveTo_movesOrFails start).onlyMoves.bind fun p =>
    (moveTo_movesOrFails finish).onlyMoves.bind fun q =>
      (resolveEach_onlyMoves controls).bind fun cs => onlyMoves_pure (p, q, cs)).restoringCurrent

theorem changeTransform_cases (op : TransformOp K) (c : Context K S) :
    (∃ t, changeTransform op c = .ok () (c.replaceTransform t)) ∨
      ∃ e, changeTransform op c = .error e c := by
  change (∃ t, EStateM.bind (ofExcept _ (op.run c.transform)) _ c = _) ∨
    ∃ e, EStateM.bind (ofExcept _ (op.run c.transform)) _ c = _
  cases op.run c.transform with
  | error e => exact .inr ⟨.transform e, rfl⟩
  | ok t => exact .inl ⟨t, rfl⟩

theorem built_of_build {c : Context K S} {kind : String} {segments : List (Segment K)}
    {options : DrawOptions} {n : Node K} (h : build c kind segments options = .ok n) :
    n.Built := by
  obtain ⟨d, -, hn⟩ := bind_eq_ok.mp h
  exact .ofDrawables (mapError_eq_ok.mp hn)

omit [Scalar K] in
/-- The control points become anchors one after the other, so what adding an anchor keeps is
kept. -/
theorem addControls_induction {P : Node K → Prop} {n n' : Node K} {cs : List (Point K)}
    (hadd : ∀ (n n' : Node K) (name : String) (point : Point K), P n →
      n.addAnchor name point = .ok n' → P n')
    (hn : P n) (h : addControls n cs = .ok n') : P n' :=
  of_foldlM_eq_ok (fun n hn _ _ n' => hadd n n' _ _ hn) hn h

theorem built_of_addControls {n n' : Node K} {cs : List (Point K)} (hn : n.Built)
    (h : addControls n cs = .ok n') : n'.Built :=
  addControls_induction (fun _ _ _ _ => .addAnchor) hn h

theorem built_of_placed {n n' : Node K} {target : Point K} {anchor : Option String} (hn : n.Built)
    (h : placed n target anchor = .ok n') : n'.Built := by
  cases anchor with
  | none =>
    cases h
    exact hn
  | some key =>
    obtain ⟨p, -, h⟩ := bind_eq_ok.mp h
    cases h
    exact .translate _ hn

variable [Sink K S]

theorem failAt_registersOrReturns (saved : Point K) (e : DrawingError K) :
    RegistersOrReturns saved (failAt saved e : Action K S (Node K)) :=
  fun _ => .inr ⟨e, rfl⟩

theorem place_registersOrReturns {node : Except (DrawingError K) (Node K)} (target : Point K)
    (options : DrawOptions) (saved : Point K) (hn : ∀ n, node = .ok n → n.Built) :
    RegistersOrReturns saved (place node target options saved : Action K S (Node K)) := by
  intro c
  unfold place
  cases h : node.bind fun n => (placed n target options.anchor).mapError .anchor with
  | error e => exact failAt_registersOrReturns saved e c
  | ok n' =>
    obtain ⟨n, hnode, hplaced⟩ := bind_eq_ok.mp h
    exact .inl ⟨n', built_of_placed (hn n hnode) (mapError_eq_ok.mp hplaced), rfl⟩

theorem draw_drawsOrFails (kind : String) (segments : List (Segment K)) (options : DrawOptions) :
    DrawsOrFails (draw kind segments options : Action K S (Node K)) := by
  intro c
  have hb : ∀ n, build c kind segments options = .ok n → n.Built := fun n => built_of_build
  rcases place_registersOrReturns c.current options c.current hb c with ⟨n, hn, h⟩ | h
  · exact .inl ⟨n, c.current, hn, h⟩
  · exact .inr h

theorem line_drawsOrFails (positions : List (Position K)) (options : DrawOptions) :
    DrawsOrFails (line positions options : Action K S (Node K)) := by
  intro c
  refine (resolveAll_movesOrFails positions).bind_registers c fun points c' => ?_
  refine place_registersOrReturns _ options c.current (fun n hn => ?_) c'
  obtain ⟨segment, -, hn⟩ := bind_eq_ok.mp hn
  exact built_of_build hn

theorem rect_drawsOrFails (a b : Position K) (options : DrawOptions) :
    DrawsOrFails (rect a b options : Action K S (Node K)) := by
  intro c
  refine (resolvePair_movesOrFails a b).bind_registers c fun corners c' => ?_
  exact place_registersOrReturns _ options c.current (fun n => built_of_build) c'

theorem circle_drawsOrFails (center : Position K) (rx ry : K) (options : DrawOptions) :
    DrawsOrFails (circle center rx ry options : Action K S (Node K)) := by
  intro c
  cases h : Point.checked rx ry with
  | error e =>
    have hr : ofExcept DrawingError.numeric (Point.checked rx ry) c =
        .error (.numeric e) c := by rw [h]; rfl
    exact .inr ⟨.numeric e, bind_of_error hr⟩
  | ok radii =>
    have hr : ofExcept DrawingError.numeric (Point.checked rx ry) c = .ok radii c := by
      rw [h]; rfl
    unfold circle
    rw [bind_of_ok hr]
    refine (moveTo_movesOrFails center).onlyMoves.restoringCurrent.bind_registers c fun p c' => ?_
    exact place_registersOrReturns _ options c.current (fun n => built_of_build) c'

theorem bezier_drawsOrFails (start finish : Position K) (controls : List (Position K))
    (options : DrawOptions) :
    DrawsOrFails (bezier start finish controls options : Action K S (Node K)) := by
  intro c
  refine (resolveCurve_movesOrFails start finish controls).bind_registers c fun points => ?_
  obtain ⟨p, q, cs⟩ := points
  dsimp only
  cases bezierSegment p q cs with
  | error e => exact failAt_registersOrReturns _ _
  | ok segment =>
    intro c'
    refine place_registersOrReturns _ options c.current (fun n hn => ?_) c'
    obtain ⟨m, hm, hn⟩ := bind_eq_ok.mp hn
    exact built_of_addControls (built_of_build hm) (mapError_eq_ok.mp hn)

theorem mark_drawsOrFails (positions : List (Position K)) (m : Mark K) (options : DrawOptions) :
    DrawsOrFails (mark positions m options : Action K S (Node K)) := by
  intro c
  refine (resolveAll_movesOrFails positions).bind_registers c fun points c' => ?_
  refine place_registersOrReturns _ options c.current (fun n hn => ?_) c'
  obtain ⟨segments, -, hn⟩ := bind_eq_ok.mp hn
  exact built_of_build hn

theorem anchor_drawsOrFails (name : String) (position : Position K) :
    DrawsOrFails (anchor name position : Action K S (Node K)) := by
  intro c
  refine (moveTo_movesOrFails position).onlyMoves.restoringCurrent.bind_registers c fun p => ?_
  cases h : (Node.anchorPoint (some name) p : Except (AnchorError K) (Node K)) with
  | error e => exact failAt_registersOrReturns c.current (.anchor e)
  | ok n => exact fun c' => .inl ⟨n, .anchorPoint h, rfl⟩

end Action

variable [Scalar K] [Sink K S]

inductive Call.Outcome (c : Context K S) :
    EStateM.Result (DrawingError K) (Context K S) (Answer K) → Prop
  | failed (e : DrawingError K) : Outcome c (.error e c)
  | moved (p q : Point K) : Outcome c (.ok (.point p) { c with current := q })
  | transformed (t : Transform K) : Outcome c (.ok .done (c.replaceTransform t))
  | drawn (n : Node K) (q : Point K) (hn : n.Built) :
      Outcome c (.ok (.node n) (({ c with current := q } : Context K S).addNode n))

namespace Call

theorem outcome_of_moves {act : Action K S (Point K)} (h : Action.MovesOrFails act)
    (c : Context K S) : Outcome c ((Answer.point <$> act) c) := by
  change Outcome c (EStateM.map Answer.point act c)
  unfold EStateM.map
  rcases h c with ⟨p, q, hp⟩ | ⟨e, he⟩
  · rw [hp]
    exact .moved p q
  · rw [he]
    exact .failed e

theorem outcome_of_draws {act : Action K S (Node K)} (h : Action.DrawsOrFails act)
    (c : Context K S) : Outcome c ((Answer.node <$> act) c) := by
  change Outcome c (EStateM.map Answer.node act c)
  unfold EStateM.map
  rcases h c with ⟨n, q, hn, hr⟩ | ⟨e, he⟩
  · rw [hr]
    exact .drawn n q hn
  · rw [he]
    exact .failed e

/-- Every call has one of the four outcomes, in every context. -/
theorem outcome (k : Call K) (c : Context K S) : Outcome c (k.act c) := by
  cases k with
  | transform op =>
    change Outcome c (EStateM.map (fun _ => Answer.done) (Action.changeTransform op) c)
    unfold EStateM.map
    rcases Action.changeTransform_cases op c with ⟨t, ht⟩ | ⟨e, he⟩
    · rw [ht]
      exact .transformed t
    · rw [he]
      exact .failed e
  | resolvePosition p update =>
    exact outcome_of_moves (Action.resolvePosition_movesOrFails p update) c
  | moveTo p => exact outcome_of_moves (Action.moveTo_movesOrFails p) c
  | line positions options => exact outcome_of_draws (Action.line_drawsOrFails positions options) c
  | rect a b options => exact outcome_of_draws (Action.rect_drawsOrFails a b options) c
  | circle center rx ry options =>
    exact outcome_of_draws (Action.circle_drawsOrFails center rx ry options) c
  | bezier start finish controls options =>
    exact outcome_of_draws (Action.bezier_drawsOrFails start finish controls options) c
  | mark positions m options =>
    exact outcome_of_draws (Action.mark_drawsOrFails positions m options) c
  | anchor name position => exact outcome_of_draws (Action.anchor_drawsOrFails name position) c
  | draw kind segments options =>
    exact outcome_of_draws (Action.draw_drawsOrFails kind segments options) c

/-- A call that fails leaves the whole context as it was. -/
theorem state_eq_of_error {k : Call K} {c c' : Context K S} {e : DrawingError K}
    (h : k.act c = .error e c') : c' = c := by
  have hk := k.outcome c
  rw [h] at hk
  cases hk
  rfl

/-- A line to an unknown node fails although its first position has moved the current
point by then. -/
theorem state_eq_of_unknown_node :
    let c : Context Float (Recording Float) := Context.start Recording.empty 15 Style.empty
    let k : Call Float :=
      .line [⟨.cartesian 3 3, true⟩, ⟨.anchor "ghost" .center, true⟩] ⟨none, none, Style.empty⟩
    ∃ c', k.act c = .error (.position (.unknownNode "ghost")) c' ∧ c' = c :=
  have h : Call.act _ _ = .error (.position (.unknownNode "ghost")) _ := rfl
  ⟨_, h, state_eq_of_error h⟩

end Call

end Drafting
