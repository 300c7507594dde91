import Mathlib
import Smoothing.Proofs.Scalar.Exact

/-!
# Rational scalars

The rational numbers with one more element, for what is no rational number: a quotient by zero, a
root of a number that is no square, a sine. They are exact scalars, not all of which are numbers,
and problems over them can be computed.
-/

namespace Smoothing

/-- A rational number, or none. -/
inductive Rational where
  | number (x : ℚ)
  | undefined
deriving DecidableEq

namespace Rational

/-- An operation on numbers. -/
def lift (f : ℚ → ℚ → ℚ) : Rational → Rational → Rational
  | number x, number y => number (f x y)
  | _, _ => undefined

/-- A comparison of numbers; what is no number is not compared. -/
def compare (r : ℚ → ℚ → Bool) : Rational → Rational → Bool
  | number x, number y => r x y
  | _, _ => false

/-- The quotient of two elements. -/
def divide (a b : Rational) : Rational := if b = number 0 then undefined else lift (· / ·) a b

/-- A function of a number. -/
def apply (f : ℚ → Rational) : Rational → Rational
  | number x => f x
  | undefined => undefined

/-- The square root of a square. -/
def root (x : ℚ) : Rational := if x.sqrt * x.sqrt = x then number x.sqrt else undefined

instance : Scalar Rational where
  zero := number 0
  one := number 1
  add := lift (· + ·)
  sub := lift (· - ·)
  mul := lift (· * ·)
  div := divide
  neg := apply fun x => number (-x)
  lt a b := compare (· < ·) a b = true
  le a b := compare (· ≤ ·) a b = true
  beq := compare (· == ·)
  ofScientific m s e := number (OfScientific.ofScientific m s e)
  natCast n := number n
  decLT _ _ := inferInstanceAs (Decidable (_ = true))
  decLE _ _ := inferInstanceAs (Decidable (_ = true))
  abs := apply fun x => number |x|
  sqrt := apply root
  hypot a b := apply root (lift (fun x y => x * x + y * y) a b)
  sin := apply fun x => if x = 0 then number 0 else undefined
  cos := apply fun x => if x = 0 then number 1 else undefined
  atan2 := fun
    | number y, number x => if y = 0 ∧ 0 ≤ x then number 0 else undefined
    | _, _ => undefined
  isFinite := fun
    | number _ => true
    | undefined => false
  infinity := undefined
  totalLE a b := compare (· ≤ ·) a b || decide (b = undefined)

theorem isFinite_eq (a : Rational) : Scalar.isFinite a = true ↔ ∃ x, number x = a := by
  cases a with
  | number x => exact ⟨fun _ => ⟨x, rfl⟩, fun _ => rfl⟩
  | undefined => exact ⟨fun h => absurd h Bool.false_ne_true, fun ⟨_, h⟩ => nomatch h⟩

theorem isFinite_of_lift {f : ℚ → ℚ → ℚ} {a b : Rational}
    (h : Scalar.isFinite (lift f a b) = true) :
    Scalar.isFinite a = true ∧ Scalar.isFinite b = true := by
  cases a <;> cases b <;> first | exact ⟨rfl, rfl⟩ | exact absurd h Bool.false_ne_true

instance : ExactScalar ℚ Rational where
  number := number
  isFinite_iff := isFinite_eq
  number_zero := rfl
  number_one := rfl
  number_add _ _ := rfl
  number_sub _ _ := rfl
  number_mul _ _ := rfl
  number_div x y hy := by
    change _ = divide (number x) (number y)
    rw [divide, if_neg (by simpa using hy)]
    rfl
  number_natCast _ := rfl
  number_ofScientific _ _ _ := rfl
  number_le _ _ := decide_eq_true_iff
  number_lt _ _ := decide_eq_true_iff
  beq_number a x := by
    cases a with
    | number y =>
      change (y == x) = true ↔ number y = number x
      rw [beq_iff_eq, number.injEq]
    | undefined => exact ⟨fun h => absurd h Bool.false_ne_true, fun h => nomatch h⟩
  isFinite_of_between a _ _ hx _ := by
    cases a with
    | number y => rfl
    | undefined => exact absurd hx Bool.false_ne_true
  isFinite_of_add _ _ := isFinite_of_lift
  isFinite_of_mul _ _ := isFinite_of_lift
  infinity_nonneg h := absurd h Bool.false_ne_true

end Rational

end Smoothing
