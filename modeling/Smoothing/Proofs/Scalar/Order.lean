import Mathlib
import Smoothing.Proofs.Scalar.Binary64
import Smoothing.Vec

/-!
# Comparing floating point numbers

A comparison with what is no number never holds, and numbers are compared as their places in a
linear order (`Binary64.le_iff_place`). The absolute value of an element is a number exactly if the
element is (`isNaN_abs`), and an element whose absolute value is below a finite number is finite
(`isFinite_of_abs_le`).

The largest of a list is found from the left, and an element that is no number takes the place of
whatever was found before it, only to be replaced by the next one. So the largest element is below a
bound if and only if all elements are, or all those after one that is no number and not the last
(`largest_le_iff`).
-/

namespace Smoothing.Binary64

open Float.Model

/-! ### Places -/

/-- The place of an element among the numbers: first by the sign and by whether it is zero or
infinite, then by the exponent, then by the mantissa. -/
def place : UnpackedFloat → ℤ ×ₗ ℤ ×ₗ ℤ
  | .notANumber => toLex (3, toLex (0, 0))
  | .infinity .positive => toLex (2, toLex (0, 0))
  | .finite .positive m e _ => toLex (1, toLex (e, (m : ℤ)))
  | .zero _ => toLex (0, toLex (0, 0))
  | .finite .negative m e _ => toLex (-1, toLex (-e, -(m : ℤ)))
  | .infinity .negative => toLex (-2, toLex (0, 0))

theorem isLE_then_iff (e e' : ℤ) (m m' : ℕ) :
    ((compare e e').then (compare m m')).isLE = true ↔ e < e' ∨ e = e' ∧ m ≤ m' := by
  rw [Ordering.isLE_then_iff_or, Int.compare_eq_lt, Int.compare_eq_eq, Nat.isLE_compare]

theorem isGE_then_iff (e e' : ℤ) (m m' : ℕ) :
    ((compare e e').then (compare m m')).isGE = true ↔ e' < e ∨ e = e' ∧ m' ≤ m := by
  rw [← Ordering.isLE_swap, Ordering.swap_then, Int.compare_swap, Nat.compare_swap, isLE_then_iff,
    eq_comm (a := e')]

theorem compare_isLE_iff {x y : UnpackedFloat} (hx : x ≠ .notANumber) (hy : y ≠ .notANumber) :
    (∃ c, UnpackedFloat.compare x y = some c ∧ c.isLE = true) ↔ place x ≤ place y := by
  rcases x with (_ | _) | _ | _ | ⟨_ | _, m, e, hm⟩ <;>
    rcases y with (_ | _) | _ | _ | ⟨_ | _, m', e', hm'⟩ <;>
    simp [UnpackedFloat.compare, place, Prod.Lex.le_iff, isLE_then_iff, isGE_then_iff] at hx hy ⊢
  all_goals rfl

variable {a b c t : Float}

theorem isNaN_iff : a.isNaN = true ↔ a.toModel.unpack = .notANumber := by
  change (UnpackedFloat.unpack .binary64 _).isNaN = true ↔ _
  exact UnpackedFloat.isNaN_iff

theorem isNaN_eq_false_iff : a.isNaN = false ↔ a.toModel.unpack ≠ .notANumber := by
  rw [← Bool.not_eq_true, isNaN_iff]

/-- **A comparison holds between numbers only**, which are compared by their places. -/
theorem le_iff_place :
    a ≤ b ↔ a.isNaN = false ∧ b.isNaN = false ∧
    place a.toModel.unpack ≤ place b.toModel.unpack := by
  rw [le_iff, isNaN_eq_false_iff, isNaN_eq_false_iff]
  by_cases ha : a.toModel.unpack = .notANumber
  · simp [ha, UnpackedFloat.compare]
  · by_cases hb : b.toModel.unpack = .notANumber
    · have hnone : UnpackedFloat.compare a.toModel.unpack .notANumber = none := by
        cases a.toModel.unpack <;> rfl
      simp [hb, hnone]
    · simp [ha, hb, compare_isLE_iff ha hb]

theorem not_le_of_isNaN (ha : a.isNaN = true) : ¬ a ≤ b := fun h => by
  rw [(le_iff_place.mp h).1] at ha
  cases ha

theorem le_trans_of (hab : a ≤ b) (hbc : b ≤ c) : a ≤ c := by
  obtain ⟨ha, -, hab⟩ := le_iff_place.mp hab
  obtain ⟨-, hc, hbc⟩ := le_iff_place.mp hbc
  exact le_iff_place.mpr ⟨ha, hc, hab.trans hbc⟩

theorem le_of_not_le (ha : a.isNaN = false) (hb : b.isNaN = false) (h : ¬ a ≤ b) : b ≤ a := by
  rw [le_iff_place, not_and, not_and] at h
  exact le_iff_place.mpr ⟨hb, ha, (not_le.mp (h ha hb)).le⟩

/-! ### Absolute values -/

theorem eq_notANumber_of_pack {x : UnpackedFloat} (h : (pack x).unpack = .notANumber) :
    x = .notANumber := by
  have hbits : UnpackedFloat.pack .binary64 x = UnpackedFloat.packedNaN .binary64 :=
    (UnpackedFloat.unpack_eq_notANumber_iff_of_valid UnpackedFloat.valid_pack).mp h
  have hexponent := congrArg UnpackedFloat.unpackExponent hbits
  have hmantissa := congrArg UnpackedFloat.unpackMantissa hbits
  rw [UnpackedFloat.packedNaN, UnpackedFloat.unpackExponent_packComponents] at hexponent
  rw [UnpackedFloat.packedNaN, UnpackedFloat.unpackMantissa_packComponents] at hmantissa
  have hinfinity : ∀ s, UnpackedFloat.unpackMantissa (UnpackedFloat.packedInfinity .binary64 s) =
      0 := by
    intro s
    rw [UnpackedFloat.packedInfinity, UnpackedFloat.unpackMantissa_packComponents]
  cases x with
  | notANumber => rfl
  | infinity s =>
    rw [UnpackedFloat.pack, hinfinity] at hmantissa
    exact absurd hmantissa (by decide)
  | zero s =>
    rw [UnpackedFloat.pack, UnpackedFloat.packedZero,
      UnpackedFloat.unpackExponent_packComponents] at hexponent
    exact absurd hexponent (by decide)
  | finite s m e hm =>
    rw [UnpackedFloat.pack] at hexponent hmantissa
    dsimp only at hexponent hmantissa
    split_ifs at hexponent hmantissa with hlarge hnormal
    · rw [hinfinity] at hmantissa
      exact absurd hmantissa (by decide)
    · -- the exponent of a number is below the one that is reserved
      rw [UnpackedFloat.unpackExponent_packComponents] at hexponent
      have hnat := congrArg BitVec.toNat hexponent
      rw [BitVec.toNat_ofNat] at hnat
      change _ = 2047 at hnat
      change ¬ 2048 ≤ _ at hlarge
      rw [Nat.mod_eq_of_lt (by change _ < 2048; omega)] at hnat
      omega
    · rw [UnpackedFloat.unpackExponent_packComponents] at hexponent
      exact absurd hexponent (by decide)

/-- **The absolute value of an element is a number exactly if the element is.** -/
theorem isNaN_abs (a : Float) : (Scalar.abs a).isNaN = a.isNaN := by
  rw [Bool.eq_iff_iff, isNaN_iff, isNaN_iff]
  change (pack a.toModel.unpack.abs).unpack = _ ↔ _
  constructor
  · intro h
    have habs := eq_notANumber_of_pack h
    cases hu : a.toModel.unpack <;> simp [hu, UnpackedFloat.abs] at habs ⊢
  · intro h
    rw [h]
    rfl

theorem unpack_pack_infinity (s : UnpackedFloat.Sign) :
    (pack (.infinity s)).unpack = .infinity s := by
  change UnpackedFloat.unpack .binary64 (UnpackedFloat.packComponents _ _ _ _) = _
  simp [UnpackedFloat.unpack, UnpackedFloat.unpackExponent_packComponents,
    UnpackedFloat.unpackMantissa_packComponents, UnpackedFloat.unpackSign_packComponents]

/-- **What is no larger than a finite number is finite.** -/
theorem isFinite_of_abs_le (ht : Scalar.isFinite t = true) (h : Scalar.abs a ≤ t) :
    Scalar.isFinite a = true := by
  have hnumber := (le_iff_place.mp h).1
  rw [isNaN_abs, isNaN_eq_false_iff] at hnumber
  cases hu : a.toModel.unpack with
  | notANumber => exact absurd hu hnumber
  | infinity s =>
    exfalso
    have habs : (Scalar.abs a).toModel.unpack = .infinity .positive := by
      change (pack a.toModel.unpack.abs).unpack = _
      rw [hu]
      exact unpack_pack_infinity .positive
    have hplace := (le_iff_place.mp h).2.2
    have hfinite : t.toModel.unpack.isFinite = true := ht
    rw [habs] at hplace
    rcases htu : t.toModel.unpack with (_ | _) | _ | _ | ⟨_ | _, m, e, hm⟩ <;>
      simp [htu, UnpackedFloat.isFinite, place, Prod.Lex.le_iff] at hfinite hplace
  | zero s =>
    change a.toModel.unpack.isFinite = true
    rw [hu]
    rfl
  | finite s m e hm =>
    change a.toModel.unpack.isFinite = true
    rw [hu]
    rfl

/-! ### The largest element -/

/-- All elements of a list are below a bound. -/
def Bounded (t : Float) (l : List Float) : Prop := ∀ a ∈ l, a ≤ t

/-- An element of a list is no number, and there are others after it, which are all below a
bound. -/
def Masked (t : Float) (l : List Float) : Prop :=
  ∃ before b after, l = before ++ b :: after ∧ b.isNaN = true ∧ after ≠ [] ∧ Bounded t after

theorem bounded_cons {l : List Float} : Bounded t (a :: l) ↔ a ≤ t ∧ Bounded t l :=
  List.forall_mem_cons

theorem masked_cons {l : List Float} :
    Masked t (a :: l) ↔ (a.isNaN = true ∧ l ≠ [] ∧ Bounded t l) ∨ Masked t l := by
  constructor
  · rintro ⟨_ | ⟨_, before⟩, b, after, h, hb, hne, hafter⟩
    · cases h
      exact .inl ⟨hb, hne, hafter⟩
    · cases h
      exact .inr ⟨before, b, after, rfl, hb, hne, hafter⟩
  · rintro (⟨ha, hne, hl⟩ | ⟨before, b, after, rfl, hb, hne, hafter⟩)
    · exact ⟨[], a, l, rfl, ha, hne, hl⟩
    · exact ⟨a :: before, b, after, rfl, hb, hne, hafter⟩

theorem not_masked_nil : ¬ Masked t [] := by
  rintro ⟨before, b, after, h, -⟩
  simp at h

/-- Of two elements the scan keeps the first one if the second one is no larger, and the second one
otherwise. What it keeps stands for both, unless the first one is no number: then it is
forgotten. -/
theorem bounded_or_masked_cons_cons {l : List Float} :
    Bounded t ((if b ≤ a then a else b) :: l) ∨ Masked t ((if b ≤ a then a else b) :: l) ↔
      Bounded t (a :: b :: l) ∨ Masked t (a :: b :: l) := by
  simp only [bounded_cons, masked_cons]
  split_ifs with hba
  · obtain ⟨hb, ha, -⟩ := le_iff_place.mp hba
    have htrans : a ≤ t → b ≤ t := le_trans_of hba
    simp only [ha, hb, Bool.false_eq_true, false_and, false_or]
    grind
  · by_cases ha : a.isNaN = true
    · have hat : ¬ a ≤ t := fun h => not_le_of_isNaN ha h
      have hne : b :: l ≠ [] := List.cons_ne_nil b l
      grind
    · by_cases hb : b.isNaN = true
      · have hbt : ¬ b ≤ t := fun h => not_le_of_isNaN hb h
        grind
      · have hab : b ≤ t → a ≤ t :=
          le_trans_of (le_of_not_le (by simpa using hb) (by simpa using ha) hba)
        grind

/-- **When the largest element of a list is below a bound**: all elements are, or all after one that
is no number and not the last. -/
theorem largest_le_iff {l : List Float} (hl : l ≠ []) :
    Vec.largest l ≤ t ↔ Bounded t l ∨ Masked t l := by
  obtain ⟨a, l, rfl⟩ := List.exists_cons_of_ne_nil hl
  rw [Vec.largest]
  clear hl
  induction l generalizing a with
  | nil => simp [masked_cons, not_masked_nil, Bounded]
  | cons b l ih => rw [List.foldl_cons, ih, bounded_or_masked_cons_cons]

end Smoothing.Binary64
