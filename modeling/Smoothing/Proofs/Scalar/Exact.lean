import Mathlib
import Smoothing.Proofs.Real

/-!
# Exact scalars

Scalars whose ordinary numbers are the elements of an ordered field (`ExactScalar`). There may be
further elements, which are no numbers and never lead back to one in a sum, a difference or a
product. The real numbers are such scalars.

A cost (`IsCost`) is an element that is not negative unless it is no number. Squares are costs, and
so are sums of costs (`IsCost.sum`, `IsCost.normSq`).
-/

namespace Smoothing

/-- Scalars whose ordinary numbers are those of an ordered field, with exact operations. -/
class ExactScalar (𝕜 : outParam Type) [Field 𝕜] [LinearOrder 𝕜] [IsStrictOrderedRing 𝕜] (α : Type)
    [Scalar α] where
  /-- The numbers among the scalars. -/
  number : 𝕜 → α
  isFinite_iff (a : α) : Scalar.isFinite a = true ↔ ∃ x, number x = a
  number_zero : number 0 = 0
  number_one : number 1 = 1
  number_add (x y : 𝕜) : number (x + y) = number x + number y
  number_sub (x y : 𝕜) : number (x - y) = number x - number y
  number_mul (x y : 𝕜) : number (x * y) = number x * number y
  number_div (x y : 𝕜) (hy : y ≠ 0) : number (x / y) = number x / number y
  number_natCast (n : ℕ) : number n = n
  number_ofScientific (m : ℕ) (s : Bool) (e : ℕ) :
    number (OfScientific.ofScientific m s e) = OfScientific.ofScientific m s e
  number_le (x y : 𝕜) : number x ≤ number y ↔ x ≤ y
  number_lt (x y : 𝕜) : number x < number y ↔ x < y
  beq_number (a : α) (x : 𝕜) : (a == number x) = true ↔ a = number x
  /-- What lies between two numbers is one. -/
  isFinite_of_between (a : α) (x y : 𝕜) (hx : number x < a) (hy : a ≤ number y) :
    Scalar.isFinite a = true
  isFinite_of_add (a b : α) (h : Scalar.isFinite (a + b) = true) :
    Scalar.isFinite a = true ∧ Scalar.isFinite b = true
  isFinite_of_mul (a b : α) (h : Scalar.isFinite (a * b) = true) :
    Scalar.isFinite a = true ∧ Scalar.isFinite b = true
  /-- The error of a violated constraint is no number, or at least not negative. -/
  infinity_nonneg : Scalar.isFinite (Scalar.infinity : α) = true → (0 : α) ≤ Scalar.infinity

/-- The real numbers are exact; all of them are ordinary numbers. -/
noncomputable instance ExactScalar.instReal : ExactScalar ℝ ℝ where
  number x := x
  isFinite_iff a := by simp
  number_zero := rfl
  number_one := rfl
  number_add _ _ := rfl
  number_sub _ _ := rfl
  number_mul _ _ := rfl
  number_div _ _ _ := rfl
  number_natCast _ := rfl
  number_ofScientific _ _ _ := rfl
  number_le _ _ := Iff.rfl
  number_lt _ _ := Iff.rfl
  beq_number _ _ := beq_iff_eq
  isFinite_of_between _ _ _ _ _ := rfl
  isFinite_of_add _ _ _ := ⟨rfl, rfl⟩
  isFinite_of_mul _ _ _ := ⟨rfl, rfl⟩
  infinity_nonneg _ := le_rfl

/-- Not negative, unless it is no number. -/
def IsCost {α : Type} [Scalar α] (a : α) : Prop := Scalar.isFinite a = true → 0 ≤ a

variable {𝕜 α : Type} [Field 𝕜] [LinearOrder 𝕜] [IsStrictOrderedRing 𝕜] [Scalar α]
  [exact : ExactScalar 𝕜 α]

namespace ExactScalar

theorem isFinite_number (x : 𝕜) : Scalar.isFinite (number x : α) = true :=
  (isFinite_iff _).mpr ⟨x, rfl⟩

theorem number_injective : Function.Injective (number : 𝕜 → α) := by
  intro x y h
  have hxy : number x ≤ (number y : α) := by rw [h, number_le]
  have hyx : number y ≤ (number x : α) := by rw [h, number_le]
  exact le_antisymm ((number_le x y).mp hxy) ((number_le y x).mp hyx)

theorem nonneg_iff (x : 𝕜) : (0 : α) ≤ number x ↔ 0 ≤ x := by
  rw [← number_zero, number_le]

theorem max_number (x y : 𝕜) : Scalar.max (number x) (number y : α) = number (max x y) := by
  unfold Scalar.max
  simp only [number_lt, number_le]
  split_ifs with hlt hle hself
  · rw [max_eq_right hlt.le]
  · rw [max_eq_left hle]
  · exact absurd (not_lt.mp hlt) hle
  · exact absurd (not_lt.mp hlt) hle

end ExactScalar

open ExactScalar

include exact

theorem ExactScalar.exists_number {a : α} (h : Scalar.isFinite a = true) : ∃ x : 𝕜, number x = a :=
  (isFinite_iff a).mp h

/-! ### Costs -/

namespace IsCost

theorem zero : IsCost (0 : α) := fun _ => by rw [← number_zero, number_le]

theorem infinity : IsCost (Scalar.infinity : α) := infinity_nonneg

theorem add {a b : α} (ha : IsCost a) (hb : IsCost b) : IsCost (a + b) := by
  intro h
  obtain ⟨hfa, hfb⟩ := isFinite_of_add a b h
  obtain ⟨x, rfl⟩ := exists_number hfa
  obtain ⟨y, rfl⟩ := exists_number hfb
  rw [← number_add, nonneg_iff]
  exact add_nonneg ((nonneg_iff x).mp (ha hfa)) ((nonneg_iff y).mp (hb hfb))

theorem mul_self (a : α) : IsCost (a * a) := by
  intro h
  obtain ⟨x, rfl⟩ := exists_number (isFinite_of_mul a a h).1
  rw [← number_mul, nonneg_iff]
  exact mul_self_nonneg x

theorem half {a : α} (ha : IsCost a) : IsCost (0.5 * a) := by
  intro h
  have hf := (isFinite_of_mul _ _ h).2
  obtain ⟨x, rfl⟩ := exists_number hf
  rw [← number_ofScientific, ← number_mul, nonneg_iff]
  exact mul_nonneg (by norm_num) ((nonneg_iff x).mp (ha hf))

theorem foldl {l : List α} {a : α} (ha : IsCost a) (hl : ∀ b ∈ l, IsCost b) :
    IsCost (l.foldl (· + ·) a) := by
  induction l generalizing a with
  | nil => exact ha
  | cons b l ih =>
    exact ih (ha.add (hl b List.mem_cons_self)) fun c hc => hl c (List.mem_cons_of_mem _ hc)

theorem sum {l : List α} (hl : ∀ b ∈ l, IsCost b) : IsCost (Scalar.sum l) := foldl zero hl

theorem strandSum {a b c d e f g h : α} {l : List α} (ha : IsCost a) (hb : IsCost b) (hc : IsCost c)
    (hd : IsCost d) (he : IsCost e) (hf : IsCost f) (hg : IsCost g) (hh : IsCost h)
    (hl : ∀ x ∈ l, IsCost x) : IsCost (Scalar.strandSum a b c d e f g h l) := by
  fun_induction Scalar.strandSum a b c d e f g h l with
  | case1 a b c d e f g h p q r s t u v w rest ih =>
    simp only [List.mem_cons, forall_eq_or_imp] at hl
    obtain ⟨hp, hq, hr, hs, ht, hu, hv, hw, hrest⟩ := hl
    exact ih (ha.add hp) (hb.add hq) (hc.add hr) (hd.add hs) (he.add ht) (hf.add hu) (hg.add hv)
      (hh.add hw) hrest
  | case2 a b c d e f g h rest _ =>
    exact foldl ((((zero.add (ha.add he)).add (hb.add hf)).add (hc.add hg)).add (hd.add hh)) hl

theorem normSq (v : Vec α) : IsCost v.normSq := by
  refine strandSum zero zero zero zero zero zero zero zero fun x hx => ?_
  rw [List.zipWith_self] at hx
  obtain ⟨a, -, rfl⟩ := List.mem_map.mp hx
  exact mul_self a

end IsCost

end Smoothing
