import Drafting.Binary64
import Drafting.Position.Keys
import Drafting.Context.Draw
import Drafting.Context.Run
import Drafting.Proofs.Node.Anchors
import Drafting.Proofs.Node.Translate
import Drafting.Proofs.Node.Angle
import Drafting.Proofs.Transform.Inverse
import Drafting.Proofs.Context.Consistency
import Drafting.Proofs.Context.Image
import Drafting.Proofs.Context.Placement
import Drafting.Proofs.Context.Reference
import Drafting.Proofs.Context.History
import Drafting.Proofs.Context.Shapes
import Drafting.Proofs.Checked
import Drafting.Proofs.Path.Roots
import Drafting.Proofs.Context.Bounds
import Drafting.Proofs.Context.Stability
import Drafting.Proofs.Path.Parameters
import Drafting.Proofs.Path.Legendre
import Drafting.Proofs.Path.Chain
import Drafting.Proofs.Path.Traversal
import Drafting.Proofs.Path.Reverse
import Drafting.Proofs.Path.Green
import Drafting.Proofs.Path.Shoelace
import Drafting.Proofs.Path.Transform
import Drafting.Proofs.Node.Group
import Drafting.Proofs.Node.Answers
import Drafting.Proofs.Node.Enclosure
import Drafting.Proofs.Text.KeyLanguage
import Drafting.Proofs.Position.Sugar
import Drafting.Proofs.Node.Rebuild
import Drafting.Proofs.Node.Repeat
import Drafting.Proofs.Node.Recut
import Drafting.Proofs.Mark
import Drafting.Proofs.Text.ReadBack
import Drafting.Proofs.Node.Ellipse
import Drafting.Proofs.Path.Bisection
import Drafting.Proofs.Node.Ambiguity
