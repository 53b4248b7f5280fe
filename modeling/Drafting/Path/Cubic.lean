import Drafting.Error

/-!
# Cubic polynomials and their real roots

Each coordinate of a curve is a polynomial of degree at most three in the curve
parameter, kept by its coefficients. Roots are found in closed form.

`Cubic.roots` first drops the coefficients that are negligible beside the largest
one, which decides the degree, then solves by degree, and at last drops roots that
are not numbers, merges close ones and sorts the rest. The zero polynomial has no
list of roots.

In every branch a discriminant counts as zero when it is negligible beside the
terms it is the sum of. Then two roots coincide, and the formula for a double root
is used in place of one that would cancel.
-/

namespace Drafting

variable {K : Type} [Scalar K]

/-- The polynomial `c0 + c1 t + c2 t² + c3 t³`. -/
@[ext] structure Cubic (K : Type) where
  c0 : K
  c1 : K
  c2 : K
  c3 : K

namespace Cubic

/-- The value at a parameter, by Horner's rule. -/
def eval (p : Cubic K) (t : K) : K := ((p.c3 * t + p.c2) * t + p.c1) * t + p.c0

/-- The derivative at a parameter, by Horner's rule. -/
def derivative (p : Cubic K) (t : K) : K := (3 * p.c3 * t + 2 * p.c2) * t + p.c1

def coefficients (p : Cubic K) : List K := [p.c0, p.c1, p.c2, p.c3]

def map (f : K → K) (p : Cubic K) : Cubic K := ⟨f p.c0, f p.c1, f p.c2, f p.c3⟩

def magnitude (p : Cubic K) : K := Scalar.magnitude p.coefficients

/-- Coefficients below this part of the largest one count as zero. -/
def coefficientEpsilon : K := 1e-12

/-- Discriminants up to this part of their greatest term count as zero. -/
def discriminantEpsilon : K := 1e-12

/-- The polynomial without its negligible coefficients. -/
def flush (p : Cubic K) : Cubic K :=
  let floor := coefficientEpsilon * p.magnitude
  p.map fun c => if Scalar.abs c < floor then 0 else c

/-- The roots of `a t² + b t + c` for nonzero `a`. -/
def quadraticRoots (a b c : K) : List K :=
  let disc := b * b - 4 * a * c
  let scale := Scalar.greater (b * b) (Scalar.abs (4 * a * c))
  if Scalar.abs disc ≤ discriminantEpsilon * scale then [-b / (2 * a)]
  else if disc < 0 then []
  else
    let sign : K := if 0 ≤ b then 1 else -1
    let q := -0.5 * (b + sign * Scalar.sqrt disc)
    [q / a, c / q]

/-- The roots of `s³ + p s + q`, each shifted. -/
def depressedRoots (p q shift : K) : List K :=
  let halfQSq := (q / 2) * (q / 2)
  let thirdPCube := (p / 3) * (p / 3) * (p / 3)
  let disc := halfQSq + thirdPCube
  let scale := Scalar.greater halfQSq (Scalar.abs thirdPCube)
  if scale == 0 then [shift]
  else if Scalar.abs disc ≤ discriminantEpsilon * scale then
    let u := Scalar.cbrt (-q / 2)
    [2 * u + shift, -u + shift]
  else if 0 < disc then
    let sq := Scalar.sqrt disc
    [Scalar.cbrt (-q / 2 + sq) + Scalar.cbrt (-q / 2 - sq) + shift]
  else
    -- three real roots, and `p < 0`
    let r := 2 * Scalar.sqrt (-p / 3)
    let phi := Scalar.acos
      (Scalar.clamp ((3 * q) / (2 * p) * Scalar.sqrt (-3 / p)) (-1) 1)
    let root (k : K) : K := r * Scalar.cos (phi / 3 - Scalar.tau * k / 3) + shift
    [root 0, root 1, root 2]

/-- The roots of `a t³ + b t² + c t + d` for nonzero `a`: substituting
`t = s - b / (3 a)` removes the quadratic term. -/
def cubicRoots (a b c d : K) : List K :=
  let b := b / a
  let c := c / a
  let d := d / a
  depressedRoots (c - b * b / 3) (2 * b * b * b / 27 - b * c / 3 + d) (-b / 3)

/-- The roots of a polynomial whose negligible coefficients are zero, by degree. -/
def rootsByDegree (p : Cubic K) : List K :=
  if !(p.c3 == 0) then cubicRoots p.c3 p.c2 p.c1 p.c0
  else if !(p.c2 == 0) then quadraticRoots p.c2 p.c1 p.c0
  else if !(p.c1 == 0) then [-p.c0 / p.c1]
  else []

/-- The list without the entries that are close to an earlier kept one. -/
def mergeClose (rs : List K) : List K :=
  rs.foldl (fun kept r => if kept.any (Scalar.approxEq r) then kept else kept ++ [r]) []

/-- The real roots in ascending order, close ones reported once. -/
def roots (p : Cubic K) : Except IntersectionError (List K) :=
  if p.magnitude == 0 then .error .coincidentLines
  else
    let found := p.flush.rootsByDegree.filter Scalar.isFinite
    .ok ((mergeClose found).mergeSort fun a b => decide (a ≤ b))

end Cubic

end Drafting
