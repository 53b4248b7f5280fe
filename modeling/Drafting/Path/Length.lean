import Drafting.Path.Piece
import Drafting.Path.Quadrature

/-!
# Arc length

The length of a piece is the integral of its speed. A length table lists the
lengths of a sequence of pieces and the fraction of the total length that is
reached at the end of each. It turns a fraction of the total length into a piece
and a parameter on that piece, in proportion to the lengths.
-/

namespace Drafting

variable {K : Type} [Scalar K]

/-- The length of a piece with its error estimate. -/
def Piece.arcLength (p : Piece K) : Quadrature.Estimate K := Quadrature.adaptive p.speed 0 1

structure LengthTable (K : Type) where
  lengths : List K
  total : K
  /-- The fraction of the total length reached at the end of each piece. -/
  weights : List K
  /-- The sum of the error estimates. -/
  error : K

namespace LengthTable

/-- The running sums of a list, the start excluded. -/
def runningSums : K → List K → List K
  | _, [] => []
  | acc, a :: as => (acc + a) :: runningSums (acc + a) as

def setLast (last : K) : List K → List K
  | [] => []
  | [_] => [last]
  | a :: b :: rest => a :: setLast last (b :: rest)

/-- The fractions `1/n, 2/n, …, n/n`. -/
def evenWeights (n : Nat) : List K :=
  let one : K := 1
  let counts := runningSums 0 (List.replicate n one)
  counts.map (· / Scalar.sum (List.replicate n one))

/-- The fraction of the total reached at the end of each piece. Pieces without
length share the total evenly when there is none; the last fraction is exactly 1. -/
def weightsOf (lengths : List K) (total : K) : List K :=
  setLast 1 <|
    if 0 < total then (runningSums 0 lengths).map (· / total) else evenWeights lengths.length

def ofEstimates (es : List (Quadrature.Estimate K)) : LengthTable K :=
  let lengths := es.map (·.value)
  let total := Scalar.sum lengths
  ⟨lengths, total, weightsOf lengths total, Scalar.sum (es.map (·.error))⟩

def ofPieces (ps : List (Piece K)) : LengthTable K := ofEstimates (ps.map Piece.arcLength)

/-- The first index whose weight reaches the fraction, else the last index, with
the weights at both ends of that piece. -/
def bracket (fraction : K) : (index : Nat) → (lower : K) → List K → Option (Nat × K × K)
  | _, _, [] => none
  | index, lower, [w] => some (index, lower, w)
  | index, lower, w :: next :: rest =>
    if fraction ≤ w then some (index, lower, w) else bracket fraction (index + 1) w (next :: rest)

/-- The piece, by its index, and the parameter on it that lie at a fraction of the
total length. A piece without weight is entered at its start. -/
def locate (t : LengthTable K) (fraction : K) : Option (Nat × K) :=
  match bracket fraction 0 0 t.weights with
  | none => none
  | some (index, lower, upper) =>
    let along := if lower < upper then (fraction - lower) / (upper - lower) else 0
    some (index, Scalar.clamp along 0 1)

@[simp] theorem length_runningSums (acc : K) (l : List K) :
    (runningSums acc l).length = l.length := by
  induction l generalizing acc with
  | nil => rfl
  | cons a l ih => simp [runningSums, ih]

omit [Scalar K] in
@[simp] theorem length_setLast (last : K) (l : List K) : (setLast last l).length = l.length := by
  fun_induction setLast last l <;> simp_all

@[simp] theorem length_weightsOf (lengths : List K) (total : K) :
    (weightsOf lengths total).length = lengths.length := by
  simp only [weightsOf, length_setLast]
  split <;> simp [evenWeights]

end LengthTable

end Drafting
