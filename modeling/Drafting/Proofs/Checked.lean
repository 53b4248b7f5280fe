import Mathlib.Tactic.Linarith
import Drafting.Proofs.Exact

/-!
# Exact arithmetic that notices undefined operations

The real numbers give every quotient and every root some value, also where there is none.
Here a number is a real number or undefined: a division by zero, the square root of a
negative number and the arc cosine of a number outside -1 to 1 are undefined, and so is
every operation on something undefined.

A computation that answers the same over these numbers as over the real numbers never
meets an undefined operation on its way.
-/

namespace Drafting

/-- A real number, or the outcome of an undefined operation. -/
inductive Checked
  | undefined
  | number (a : ℝ)

namespace Checked

def map (f : ℝ → Checked) : Checked → Checked
  | undefined => undefined
  | number a => f a

def map₂ (f : ℝ → ℝ → Checked) : Checked → Checked → Checked
  | number a, number b => f a b
  | _, _ => undefined

/-- A relation of real numbers, which nothing undefined stands in. -/
def Rel (r : ℝ → ℝ → Prop) : Checked → Checked → Prop
  | number a, number b => r a b
  | _, _ => False

open Classical in
noncomputable def guard (p : Prop) (a : ℝ) : Checked := if p then number a else undefined

theorem guard_of {p : Prop} (h : p) (a : ℝ) : guard p a = number a := if_pos h

end Checked

open Checked Classical in
noncomputable instance [ExactTables] : Scalar Checked where
  add := map₂ fun a b => number (a + b)
  sub := map₂ fun a b => number (a - b)
  mul := map₂ fun a b => number (a * b)
  div := map₂ fun a b => guard (b ≠ 0) (a / b)
  neg := map fun a => number (-a)
  lt := Rel (· < ·)
  le := Rel (· ≤ ·)
  beq a b := decide (Rel (· = ·) a b)
  ofScientific m s e := number (OfScientific.ofScientific m s e)
  ofNat n := ⟨number (Exact.ofNat n).ofNat⟩
  decLt _ _ := propDecidable _
  decLe _ _ := propDecidable _
  isNaN
    | undefined => true
    | number _ => false
  isFinite
    | undefined => false
    | number _ => true
  pi := number Scalar.pi
  legendre := Scalar.legendre.map fun (x, w) => (number x, number w)
  sqrt := map fun a => guard (0 ≤ a) (Scalar.sqrt a)
  cbrt := map fun a => number (Scalar.cbrt a)
  sin := map fun a => number (Scalar.sin a)
  cos := map fun a => number (Scalar.cos a)
  acos := map fun a => guard (-1 ≤ a ∧ a ≤ 1) (Scalar.acos a)
  atan2 := map₂ fun b a => number (Scalar.atan2 b a)
  hypot := map₂ fun a b => number (Scalar.hypot a b)
  round := map fun a => number (Scalar.round a)
  ofDecimal d := number (Scalar.ofDecimal d)
  toDecimal
    | undefined => Scalar.toDecimal (0 : ℝ)
    | number a => Scalar.toDecimal a

namespace Checked

variable [ExactTables]

@[simp] theorem number_add (a b : ℝ) : number a + number b = number (a + b) := rfl
@[simp] theorem number_sub (a b : ℝ) : number a - number b = number (a - b) := rfl
@[simp] theorem number_mul (a b : ℝ) : number a * number b = number (a * b) := rfl
@[simp] theorem number_neg (a : ℝ) : -number a = number (-a) := rfl
@[simp] theorem number_lt (a b : ℝ) : number a < number b ↔ a < b := Iff.rfl
@[simp] theorem number_le (a b : ℝ) : number a ≤ number b ↔ a ≤ b := Iff.rfl
@[simp] theorem isNaN_number (a : ℝ) : Scalar.isNaN (number a) = false := rfl
@[simp] theorem pi_eq : (Scalar.pi : Checked) = number Scalar.pi := rfl
@[simp] theorem cbrt_number (a : ℝ) : Scalar.cbrt (number a) = number (Scalar.cbrt a) := rfl

@[simp] theorem ofNat_eq (n : ℕ) :
    (@OfNat.ofNat Checked n (Scalar.ofNat n)) = number (@OfNat.ofNat ℝ n (Scalar.ofNat n)) := rfl

@[simp] theorem ofScientific_eq (m : ℕ) (s : Bool) (e : ℕ) :
    (OfScientific.ofScientific m s e : Checked) = number (OfScientific.ofScientific m s e) := rfl

@[simp] theorem number_beq (a b : ℝ) : (number a == number b) = (a == b) := by
  change decide (a = b) = decide (a = b)
  congr

theorem number_div (a : ℝ) {b : ℝ} (h : b ≠ 0) : number a / number b = number (a / b) :=
  guard_of h _

theorem sqrt_number {a : ℝ} (h : 0 ≤ a) : Scalar.sqrt (number a) = number (Scalar.sqrt a) :=
  guard_of h _

theorem acos_number {a : ℝ} (h : -1 ≤ a ∧ a ≤ 1) :
    Scalar.acos (number a) = number (Scalar.acos a) :=
  guard_of h _

omit [ExactTables] in
theorem number_ite (p : Prop) [Decidable p] (a b : ℝ) :
    (if p then number a else number b) = number (if p then a else b) :=
  (apply_ite number p a b).symm

@[simp] theorem abs_number (a : ℝ) : Scalar.abs (number a) = number (Scalar.abs a) := by
  simp only [Scalar.abs, ofNat_eq, number_lt, number_neg, number_ite]

@[simp] theorem greater_number (a b : ℝ) :
    Scalar.greater (number a) (number b) = number (Scalar.greater a b) := by
  simp only [Scalar.greater, isNaN_number, number_lt, number_ite]
  rfl

@[simp] theorem clamp_number (a low high : ℝ) :
    Scalar.clamp (number a) (number low) (number high) = number (Scalar.clamp a low high) := by
  simp only [Scalar.clamp, number_lt, number_ite]

theorem approxEq_number (a b : ℝ) :
    Scalar.approxEq (number a) (number b) = Scalar.approxEq a b := by
  simp only [Scalar.approxEq, Scalar.absoluteTolerance, Scalar.relativeTolerance, ofScientific_eq,
    number_sub, abs_number, number_mul, number_add, number_le]
  congr

end Checked

end Drafting
