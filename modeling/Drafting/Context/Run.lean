import Drafting.Context.Draw

/-!
# Runs of a drawing

The operations of a context as data. A call is an operation that can fail, with its
arguments; an operation is a call or one of those that cannot fail. A drawing is
then a list of operations, and running it ignores what the calls answer: a failed
call is followed by the next operation.

The sink is reached through the context only, as every operation here does.
-/

namespace Drafting

variable {K S : Type} [Scalar K] [Sink K S]

/-- The operations that can fail, with their arguments. -/
inductive Call (K : Type)
  | transform (op : TransformOp K)
  | resolvePosition (p : Position K) (update : Bool)
  | moveTo (p : Position K)
  | line (positions : List (Position K)) (options : DrawOptions)
  | rect (a b : Position K) (options : DrawOptions)
  | circle (center : Position K) (rx ry : K) (options : DrawOptions)
  | bezier (start finish : Position K) (controls : List (Position K)) (options : DrawOptions)
  | mark (positions : List (Position K)) (m : Mark K) (options : DrawOptions)
  | anchor (name : String) (position : Position K)
  | draw (kind : String) (segments : List (Segment K)) (options : DrawOptions)

inductive Answer (K : Type)
  | done
  | point (p : Point K)
  | node (n : Node K)

def Call.act : Call K → Action K S (Answer K)
  | transform op => (fun _ => .done) <$> Action.changeTransform op
  | resolvePosition p update => .point <$> Action.resolvePosition p update
  | moveTo p => .point <$> Action.moveTo p
  | line positions options => .node <$> Action.line positions options
  | rect a b options => .node <$> Action.rect a b options
  | circle center rx ry options => .node <$> Action.circle center rx ry options
  | bezier start finish controls options => .node <$> Action.bezier start finish controls options
  | mark positions m options => .node <$> Action.mark positions m options
  | anchor name position => .node <$> Action.anchor name position
  | draw kind segments options => .node <$> Action.draw kind segments options

inductive Operation (K : Type)
  | call (k : Call K)
  | addNode (node : Node K)
  | removeNode (name : String)
  | restoreTransform
  | resetTransform
  | setStyle (style : Style)
  | registerKind (kind : String) (builder : DrawableBuilder K)

namespace Operation

/-- The context after an operation, whether it succeeded or failed. -/
def apply : Operation K → Context K S → Context K S
  | call k, c =>
    match k.act c with
    | .ok _ c' => c'
    | .error _ c' => c'
  | addNode node, c => c.addNode node
  | removeNode name, c => (c.removeNode name).2
  | restoreTransform, c => c.restoreTransform.2
  | resetTransform, c => c.resetTransform
  | setStyle style, c => c.setStyle style
  | registerKind kind builder, c => c.registerKind kind builder

/-- How many drawables an operation hands to the sink. -/
def registrations : Operation K → Context K S → Nat
  | call k, c =>
    match k.act c with
    | .ok (.node n) _ => n.drawables.length
    | _ => 0
  | addNode node, _ => node.drawables.length
  | _, _ => 0

end Operation

namespace Context

def run (c : Context K S) (ops : List (Operation K)) : Context K S :=
  ops.foldl (fun c op => op.apply c) c

def registrations : Context K S → List (Operation K) → Nat
  | _, [] => 0
  | c, op :: ops => op.registrations c + registrations (op.apply c) ops

@[simp] theorem run_nil (c : Context K S) : c.run [] = c := rfl

@[simp] theorem run_cons (c : Context K S) (op : Operation K) (ops : List (Operation K)) :
    c.run (op :: ops) = (op.apply c).run ops := rfl

end Context

end Drafting
