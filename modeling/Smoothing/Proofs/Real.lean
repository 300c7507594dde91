import Mathlib
import Smoothing.Vec

/-!
# Real scalars

The library read over the real numbers. Every real number is finite and the order is total, so the
scalar functions are the usual ones: `Scalar.max_real`, `Scalar.sum_real`, `Scalar.total_real` and
`Scalar.strandSum_real` (a sum in strands is the sum). `Scalar.atan2` inverts sine and cosine: on
the unit circle it gives the angle of a point (`Scalar.cos_atan2`, `Scalar.sin_atan2`), and every
angle in `(-π, π]` is found again (`Scalar.atan2_sin_cos`).
-/

namespace Smoothing

/-- The real numbers as scalars. There is no infinite one; zero stands in for it. -/
noncomputable instance Scalar.instReal : Scalar ℝ where
  toZero := inferInstance
  toOne := inferInstance
  toAdd := inferInstance
  toSub := inferInstance
  toMul := inferInstance
  toDiv := inferInstance
  toNeg := inferInstance
  toLT := inferInstance
  toLE := inferInstance
  toBEq := inferInstance
  toOfScientific := inferInstance
  toNatCast := inferInstance
  decLT := inferInstance
  decLE := inferInstance
  abs x := |x|
  sqrt := Real.sqrt
  hypot x y := Real.sqrt (x ^ 2 + y ^ 2)
  sin := Real.sin
  cos := Real.cos
  atan2 y x := Complex.arg ⟨x, y⟩
  isFinite _ := true
  infinity := 0
  totalLE x y := decide (x ≤ y)

namespace Scalar

@[simp] theorem abs_real (x : ℝ) : Scalar.abs x = |x| := rfl

@[simp] theorem sqrt_real (x : ℝ) : Scalar.sqrt x = Real.sqrt x := rfl

@[simp] theorem sin_real (θ : ℝ) : Scalar.sin θ = Real.sin θ := rfl

@[simp] theorem cos_real (θ : ℝ) : Scalar.cos θ = Real.cos θ := rfl

@[simp] theorem isFinite_real (x : ℝ) : Scalar.isFinite x = true := rfl

theorem two_real : (Scalar.two : ℝ) = 2 := by
  change (1 : ℝ) + 1 = 2
  norm_num

theorem epsilon_real : (Scalar.epsilon : ℝ) = 1 / 4503599627370496 := by
  unfold Scalar.epsilon
  norm_num

theorem epsilon_pos : 0 < (Scalar.epsilon : ℝ) := by
  rw [epsilon_real]
  norm_num

theorem max_real (a b : ℝ) : Scalar.max a b = Max.max a b := by
  unfold Scalar.max
  split_ifs with h h'
  · exact (max_eq_right h.le).symm
  · exact (max_eq_left h').symm
  · exact absurd (not_lt.mp h) h'
  · exact absurd (not_lt.mp h) h'

theorem signum_real (a : ℝ) : Scalar.signum a = if a < 0 then -1 else 1 := by
  unfold Scalar.signum
  split_ifs with h h'
  · rfl
  · rfl
  · exact absurd (not_lt.mp h) h'

theorem foldl_add_real (l : List ℝ) (a : ℝ) : l.foldl (· + ·) a = a + l.sum := by
  induction l generalizing a with
  | nil => simp
  | cons x l ih => rw [List.foldl_cons, ih, List.sum_cons, add_assoc]

theorem sum_real (l : List ℝ) : Scalar.sum l = l.sum := by
  unfold Scalar.sum
  rw [foldl_add_real]
  exact zero_add _

theorem total_real : ∀ l : List ℝ, Scalar.total l = l.sum
  | [] => rfl
  | a :: l => by rw [Scalar.total, foldl_add_real, List.sum_cons]

theorem strandSum_real (a b c d e f g h : ℝ) (l : List ℝ) :
    Scalar.strandSum a b c d e f g h l = a + b + c + d + e + f + g + h + l.sum := by
  fun_induction Scalar.strandSum a b c d e f g h l with
  | case1 a b c d e f g h p q r s t u v w rest ih =>
    rw [ih]
    simp only [List.sum_cons]
    ring
  | case2 a b c d e f g h rest _ =>
    rw [foldl_add_real]
    ring

/-! ### The angle of a point -/

theorem atan2_mem (y x : ℝ) : Scalar.atan2 y x ∈ Set.Ioc (-Real.pi) Real.pi := Complex.arg_mem_Ioc _

theorem atan2_sin_cos {θ : ℝ} (h : θ ∈ Set.Ioc (-Real.pi) Real.pi) :
    Scalar.atan2 (Real.sin θ) (Real.cos θ) = θ := by
  have hz : (⟨Real.cos θ, Real.sin θ⟩ : ℂ) = Complex.cos θ + Complex.sin θ * Complex.I := by
    apply Complex.ext <;> simp [Complex.cos_ofReal_re, Complex.sin_ofReal_re]
  change Complex.arg ⟨Real.cos θ, Real.sin θ⟩ = θ
  rw [hz, Complex.arg_cos_add_sin_mul_I h]

theorem norm_point {x y : ℝ} (h : x * x + y * y = 1) : ‖(⟨x, y⟩ : ℂ)‖ = 1 := by
  rw [Complex.norm_def, Complex.normSq_mk, h, Real.sqrt_one]

theorem cos_atan2 {x y : ℝ} (h : x * x + y * y = 1) : Real.cos (Scalar.atan2 y x) = x := by
  have h0 : (⟨x, y⟩ : ℂ) ≠ 0 := norm_pos_iff.mp (by rw [norm_point h]; exact one_pos)
  change Real.cos (Complex.arg ⟨x, y⟩) = x
  rw [Complex.cos_arg h0, norm_point h, div_one]

theorem sin_atan2 {x y : ℝ} (h : x * x + y * y = 1) : Real.sin (Scalar.atan2 y x) = y := by
  change Real.sin (Complex.arg ⟨x, y⟩) = y
  rw [Complex.sin_arg, norm_point h, div_one]

theorem atan2_neg {y x : ℝ} (h : 0 < x) : Scalar.atan2 (-y) x = -Scalar.atan2 y x := by
  have hne : Complex.arg ⟨x, y⟩ ≠ Real.pi := fun hpi => by
    have hneg : x < 0 := (Complex.arg_eq_pi_iff.mp hpi).1
    exact hneg.not_gt h
  have hconj : (⟨x, -y⟩ : ℂ) = (starRingEnd ℂ) ⟨x, y⟩ := rfl
  change Complex.arg ⟨x, -y⟩ = -Complex.arg ⟨x, y⟩
  rw [hconj, Complex.arg_conj, if_neg hne]

end Scalar

end Smoothing
