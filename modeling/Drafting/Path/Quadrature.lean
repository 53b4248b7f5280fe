import Drafting.Scalar

/-!
# Quadrature

Integrals are approximated by the Gauss-Legendre rule with eight nodes. The
adaptive form compares the rule over an interval with the sum over its halves, and
bisects until the two agree within the tolerance, which is halved at each level,
or the depth is used up. The differences that remain add up to an error estimate.
-/

namespace Drafting
namespace Quadrature

variable {K : Type} [Scalar K]

/-- The eight-point rule over the interval from `a` to `b`. Its nodes lie in pairs
around the middle, and each entry of the table stands for one pair. -/
def gaussLegendre (f : K → K) (a b : K) : K :=
  let half := (b - a) / 2
  let mid := (a + b) / 2
  let pairs := Scalar.legendre.map fun (x, w) => w * (f (mid - half * x) + f (mid + half * x))
  Scalar.sum pairs * half

structure Estimate (K : Type) where
  value : K
  error : K

/-- Bisection with a number of levels left, for an interval over which the rule
gives `whole`. -/
def bisect (f : K → K) : Nat → (a b whole tolerance : K) → Estimate K
  | levels, a, b, whole, tolerance =>
    let mid := (a + b) / 2
    let left := gaussLegendre f a mid
    let right := gaussLegendre f mid b
    let error := Scalar.abs (left + right - whole)
    match levels with
    | 0 => ⟨left + right, error⟩
    | levels + 1 =>
      if error ≤ tolerance then ⟨left + right, error⟩
      else
        let l := bisect f levels a mid left (tolerance / 2)
        let r := bisect f levels mid b right (tolerance / 2)
        ⟨l.value + r.value, l.error + r.error⟩

/-- The error allowed over the whole interval. -/
def tolerance : K := 1e-10

/-- How often an interval may be halved. -/
def maxDepth : Nat := 12

def adaptive (f : K → K) (a b : K) : Estimate K :=
  bisect f maxDepth a b (gaussLegendre f a b) tolerance

end Quadrature
end Drafting
