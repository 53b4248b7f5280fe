import Drafting.Context

/-!
# Drawing operations

The operations of a context that can fail. They are actions on the context, and an
action that fails leaves a context behind like one that succeeds. Positions are
resolved one by one and move the current point as they go, so an operation may
fail when the current point has moved already. It is put back at each place where
that can happen: when a later position fails, when the control points of a curve
are of the wrong number, when a named point has no valid name, and in `place`,
which is handed the outcome of everything that builds the node.

Every draw call resolves its positions, builds segments from the points, makes a
drawable of a registered kind and a node of it, moves the node so that its
placement anchor lies on the first point, and registers it.
-/

namespace Drafting

variable {K S : Type} [Scalar K] [Sink K S]

/-- What a draw call is asked beside its shape. -/
structure DrawOptions where
  /-- The name to register the node under. -/
  name : Option String
  /-- The anchor that is to lie on the first position. -/
  anchor : Option String
  /-- Attributes written over the default style. -/
  style : Style

abbrev Action (K S : Type) := EStateM (DrawingError K) (Context K S)

namespace Action

/-- A result, or the error that stands in its place. -/
def ofExcept {ε α : Type} (wrap : ε → DrawingError K) : Except ε α → Action K S α
  | .ok a => pure a
  | .error e => throw (wrap e)

/-- The operation, with the current point put back when it fails. -/
def restoringCurrent {α : Type} (act : Action K S α) : Action K S α := fun before =>
  match act before with
  | .ok a after => .ok a after
  | .error e after => .error e { after with current := before.current }

/-- Put the current point where it was, and fail. -/
def failAt {α : Type} (saved : Point K) (e : DrawingError K) : Action K S α := do
  modify fun c => { c with current := saved }
  throw e

def changeTransform (op : TransformOp K) : Action K S Unit := do
  let t ← ofExcept .transform (op.run (← get).transform)
  modify (·.replaceTransform t)

/-- The absolute point of a position. The current point follows when both the call
and the position ask for it. -/
def resolvePosition (p : Position K) (update : Bool) : Action K S (Point K) := do
  let point ← ofExcept .position ((← get).frame.resolve p.spec)
  if update && p.update then modify fun c => { c with current := point }
  return point

def moveTo (p : Position K) : Action K S (Point K) := resolvePosition p true

/-- The points of positions, each resolved against the current point that those
before it have left. -/
def resolveEach : List (Position K) → Action K S (List (Point K))
  | [] => pure []
  | p :: ps => do
    let point ← moveTo p
    return point :: (← resolveEach ps)

/-- The points of positions, with the current point put back when one of them fails. -/
def resolveAll (ps : List (Position K)) : Action K S (List (Point K)) :=
  restoringCurrent (resolveEach ps)

def resolvePair (p q : Position K) : Action K S (Point K × Point K) :=
  restoringCurrent do
    let a ← moveTo p
    return (a, ← moveTo q)

def build (c : Context K S) (kind : String) (segments : List (Segment K)) (options : DrawOptions) :
    Except (DrawingError K) (Node K) := do
  let drawable ← c.registry.build kind segments (c.style.overlay options.style)
  (Node.ofDrawables [drawable] options.name).mapError .anchor

/-- The node moved so that the placement anchor, if there is one, lies on a point. -/
def placed (node : Node K) (target : Point K) (anchor : Option String) :
    Except (AnchorError K) (Node K) :=
  match anchor with
  | none => .ok node
  | some key => do
    let point ← node.anchor key
    return node.translate (target - point)

/-- Place a node that may have failed to be built, and register it. When there is
nothing to register the current point goes back to where it was. -/
def place (node : Except (DrawingError K) (Node K)) (target : Point K) (options : DrawOptions)
    (saved : Point K) : Action K S (Node K) :=
  match node.bind fun n => (placed n target options.anchor).mapError .anchor with
  | .ok n => do
    modify (·.addNode n)
    return n
  | .error e => failAt saved e

/-- Draw segments under a registered kind. The placement anchor comes to lie on the
current point. -/
def draw (kind : String) (segments : List (Segment K)) (options : DrawOptions) :
    Action K S (Node K) := do
  let c ← get
  place (build c kind segments options) c.current options c.current

def line (positions : List (Position K)) (options : DrawOptions) : Action K S (Node K) := do
  let saved := (← get).current
  let points ← resolveAll positions
  let c ← get
  let node := do
    let segment ← (Segment.line points).mapError .path
    build c "path" [segment] options
  place node (points.head?.getD c.current) options saved

/-- An axis-parallel rectangle with two opposite corners. -/
def rect (a b : Position K) (options : DrawOptions) : Action K S (Node K) := do
  let saved := (← get).current
  let (p, q) ← resolvePair a b
  place (build (← get) "path" (Shape.rectangle p q) options) p options saved

/-- An ellipse. The radii are absolute, and are checked before the centre. -/
def circle (center : Position K) (rx ry : K) (options : DrawOptions) : Action K S (Node K) := do
  let radii ← ofExcept .numeric (Point.checked rx ry)
  let saved := (← get).current
  let p ← restoringCurrent (moveTo center)
  place (build (← get) "path" (Shape.ellipse p radii.x radii.y) options) p options saved

def bezierSegment (start finish : Point K) (controls : List (Point K)) :
    Except (PositionError K) (Segment K) :=
  match controls with
  | [c] => .ok (.quadratic start c finish)
  | [c1, c2] => .ok (.cubic start c1 c2 finish)
  | _ =>
    .error (.malformed
      ("a bezier needs one or two control points, got " ++ toString controls.length))

/-- The node with each control point as an explicit anchor `ctrl-0`, `ctrl-1`. -/
def addControls (node : Node K) (controls : List (Point K)) : Except (AnchorError K) (Node K) :=
  controls.zipIdx.foldlM (fun n (p, i) => n.addAnchor ("ctrl-" ++ toString i) p) node

/-- The points of a curve: its two ends, then its control points. -/
def resolveCurve (start finish : Position K) (controls : List (Position K)) :
    Action K S (Point K × Point K × List (Point K)) :=
  restoringCurrent do
    let p ← moveTo start
    let q ← moveTo finish
    return (p, q, ← resolveEach controls)

def bezier (start finish : Position K) (controls : List (Position K)) (options : DrawOptions) :
    Action K S (Node K) := do
  let saved := (← get).current
  let (p, q, cs) ← resolveCurve start finish controls
  match bezierSegment p q cs with
  | .error e => failAt saved (.position e)
  | .ok segment =>
    let c ← get
    let node := do
      let n ← build c "path" [segment] options
      (addControls n cs).mapError .anchor
    place node p options saved

def mark (positions : List (Position K)) (m : Mark K) (options : DrawOptions) :
    Action K S (Node K) := do
  let saved := (← get).current
  let points ← resolveAll positions
  let c ← get
  let node := do
    let segments ← (m.stamp points).mapError .transform
    build c "mark" segments options
  place node (points.head?.getD c.current) options saved

def anchor (name : String) (position : Position K) : Action K S (Node K) := do
  let saved := (← get).current
  let point ← restoringCurrent (moveTo position)
  match Node.anchorPoint (some name) point with
  | .ok node => do
    modify (·.addNode node)
    return node
  | .error e => failAt saved (.anchor e)

end Action

end Drafting
