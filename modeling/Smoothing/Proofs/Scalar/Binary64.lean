import Mathlib
import Smoothing.Scalar.Binary64

/-!
# Floating point numbers that are not finite, and zeros

In floating point arithmetic a sum is finite only if both terms are (`isFinite_of_add`), and the
error of a violated constraint is not finite (`isFinite_infinity`).

There are two zeros, which differ in the sign only. What is equal to zero is one of them
(`exists_unpack_of_beq`), and it is the same zero after a multiplication by a number that is finite
and positive (`mul_eq_self`).
-/

namespace Smoothing.Binary64

open Float.Model

/-- A sum with a term that is not finite is infinite or no number, before it is stored. -/
theorem add_of_not_finite (format : Format) {x y : UnpackedFloat}
    (h : ¬ (x.isFinite = true ∧ y.isFinite = true)) :
    UnpackedFloat.add format x y = .notANumber ∨
      ∃ s, UnpackedFloat.add format x y = .infinity s := by
  cases x with
  | notANumber => exact .inl (by cases y <;> rfl)
  | infinity s =>
    cases y with
    | infinity t => cases s <;> cases t <;> first | exact .inl rfl | exact .inr ⟨_, rfl⟩
    | notANumber => exact .inl rfl
    | zero t => exact .inr ⟨s, rfl⟩
    | finite t m e hm => exact .inr ⟨s, rfl⟩
  | zero s =>
    cases y with
    | infinity t => exact .inr ⟨t, rfl⟩
    | notANumber => exact .inl rfl
    | zero t => exact absurd ⟨rfl, rfl⟩ h
    | finite t m e hm => exact absurd ⟨rfl, rfl⟩ h
  | finite s m e hm =>
    cases y with
    | infinity t => exact .inr ⟨t, rfl⟩
    | notANumber => exact .inl rfl
    | zero t => exact absurd ⟨rfl, rfl⟩ h
    | finite t m' e' hm' => exact absurd ⟨rfl, rfl⟩ h

theorem isFinite_pack_notANumber : (pack .notANumber).isFinite = false := by decide

theorem isFinite_pack_infinity (s : UnpackedFloat.Sign) :
    (pack (.infinity s)).isFinite = false := by
  cases s <;> decide

/-- **A sum is finite only if both terms are.** -/
theorem isFinite_of_add (a b : Float) (h : Scalar.isFinite (a + b) = true) :
    Scalar.isFinite a = true ∧ Scalar.isFinite b = true := by
  have hsum : (pack (UnpackedFloat.add .binary64 a.toModel.unpack b.toModel.unpack)).isFinite =
      true := h
  refine Decidable.byContradiction fun hab => ?_
  rcases add_of_not_finite .binary64 hab with he | ⟨s, he⟩
  · rw [he, isFinite_pack_notANumber] at hsum
    cases hsum
  · rw [he, isFinite_pack_infinity] at hsum
    cases hsum

theorem isFinite_infinity : Scalar.isFinite (Scalar.infinity : Float) = false := by decide

/-! ### Zeros -/

theorem eq_packedZero {b : BitVec Format.binary64.numBits}
    (hmantissa : UnpackedFloat.unpackMantissa b = 0#_)
    (hexponent : UnpackedFloat.unpackExponent b = 0#_) :
    b = UnpackedFloat.packedZero .binary64 (.ofBitVec (UnpackedFloat.unpackSign b)) := by
  have hm : b.toNat % 2 ^ 52 = 0 := by
    simpa [UnpackedFloat.unpackMantissa] using congrArg BitVec.toNat hmantissa
  have he : b.toNat / 2 ^ 52 % 2 ^ 11 = 0 := by
    simpa [UnpackedFloat.unpackExponent, Nat.shiftRight_eq_div_pow]
      using congrArg BitVec.toNat hexponent
  have hs : (UnpackedFloat.unpackSign b).toNat = b.toNat / 2 ^ 63 % 2 := by
    simp [UnpackedFloat.unpackSign, Nat.shiftRight_eq_div_pow]
  have hb : b.toNat < 2 ^ 64 := b.isLt
  apply BitVec.eq_of_toNat_eq
  by_cases hsign : UnpackedFloat.unpackSign b = 0#1
  · have hzero : (UnpackedFloat.unpackSign b).toNat = 0 := by rw [hsign]; rfl
    have hpacked :
        (UnpackedFloat.packedZero .binary64 (.ofBitVec (UnpackedFloat.unpackSign b))).toNat =
        0 := by
      rw [UnpackedFloat.Sign.ofBitVec, if_pos hsign]
      rfl
    omega
  · have hne : (UnpackedFloat.unpackSign b).toNat ≠ 0 := fun h => hsign (BitVec.eq_of_toNat_eq h)
    have hpacked :
        (UnpackedFloat.packedZero .binary64 (.ofBitVec (UnpackedFloat.unpackSign b))).toNat =
        2 ^ 63 := by
      rw [UnpackedFloat.Sign.ofBitVec, if_neg hsign]
      rfl
    omega

/-- A number that is unpacked to a zero is this zero. -/
theorem eq_pack_of_unpack {z : Float.Model} {s : UnpackedFloat.Sign} (h : z.unpack = .zero s) :
    z = pack (.zero s) := by
  obtain ⟨⟨bits⟩, hvalid⟩ := z
  unfold Float.Model.unpack UnpackedFloat.unpack at h
  dsimp only at h
  split at h
  · split at h <;> cases h
  split at h
  · next hexponent =>
    split at h
    · next hmantissa =>
      cases h
      have hbits := eq_packedZero hmantissa hexponent
      simp only [pack, UnpackedFloat.pack, ← hbits]
    · cases h
  · cases h

theorem compare_zero_eq_iff {x : UnpackedFloat} {s : UnpackedFloat.Sign} :
    UnpackedFloat.compare x (.zero s) = some .eq ↔ ∃ t, x = .zero t := by
  rcases x with (_ | _) | _ | _ | ⟨_ | _, m, e, hm⟩ <;> simp [UnpackedFloat.compare]

theorem zero_compare_lt_iff {x : UnpackedFloat} {s : UnpackedFloat.Sign} :
    UnpackedFloat.compare (.zero s) x = some .lt ↔
    x = .infinity .positive ∨ ∃ m e hm, x = .finite .positive m e hm := by
  rcases x with (_ | _) | _ | _ | ⟨_ | _, m, e, hm⟩ <;> simp [UnpackedFloat.compare, *]

theorem lt_iff {a b : Float} :
    a < b ↔ UnpackedFloat.compare a.toModel.unpack b.toModel.unpack = some .lt := by
  change decide ((UnpackedFloat.compare a.toModel.unpack b.toModel.unpack == some .lt) = true) =
    true ↔ _
  rw [decide_eq_true_iff, beq_iff_eq]

theorem le_iff {a b : Float} :
    a ≤ b ↔ ∃ c, UnpackedFloat.compare a.toModel.unpack b.toModel.unpack = some c ∧
    c.isLE = true := by
  change decide ((UnpackedFloat.compare a.toModel.unpack b.toModel.unpack).any (·.isLE) = true) =
    true ↔ _
  rw [decide_eq_true_iff, Option.any_eq_true]

/-- The number is finite and positive. -/
def IsPositive (a : Float) : Prop := ∃ m e hm, a.toModel.unpack = .finite .positive m e hm

theorem isPositive_one : IsPositive (1 : Float) := ⟨_, _, _, rfl⟩

variable {z a : Float}

theorem exists_unpack_of_beq (h : (z == 0) = true) : ∃ s, z.toModel.unpack = .zero s := by
  have hcompare : (UnpackedFloat.compare z.toModel.unpack (.zero .positive) == some .eq) = true := h
  exact compare_zero_eq_iff.mp (beq_iff_eq.mp hcompare)

/-- **Zero times a positive number is the same zero.** -/
theorem mul_eq_self (hz : (z == 0) = true) (ha : IsPositive a) : z * a = z := by
  obtain ⟨s, hs⟩ := exists_unpack_of_beq hz
  obtain ⟨m, e, hm, ha⟩ := ha
  have hsign : s * .positive = s := by cases s <;> rfl
  have hmodel : (z * a).toModel = z.toModel := by
    change pack (UnpackedFloat.mul .binary64 z.toModel.unpack a.toModel.unpack) = _
    rw [hs, ha, UnpackedFloat.mul, hsign, ← eq_pack_of_unpack hs]
  rcases z with ⟨z⟩
  exact congrArg Float.ofModel hmodel

/-- A number above zero is positive unless it is infinite. -/
theorem isPositive_of_pos_of_le (hpos : 0 < a) (hle : a ≤ 1) : IsPositive a := by
  rcases zero_compare_lt_iff.mp (lt_iff.mp hpos) with ha | ha
  · obtain ⟨m, e, hm, hone⟩ := isPositive_one
    obtain ⟨c, hc, hle⟩ := le_iff.mp hle
    rw [ha, hone] at hc
    cases hc
    cases hle
  · exact ha

theorem isPositive_of_not_le (hfinite : Scalar.isFinite a = true) (hle : ¬ a ≤ 1) :
    IsPositive a := by
  have hunpacked : a.toModel.unpack.isFinite = true := hfinite
  obtain ⟨m, e, hm, hone⟩ := isPositive_one
  rw [le_iff, hone] at hle
  cases ha : a.toModel.unpack with
  | infinity s =>
    rw [ha] at hunpacked
    cases hunpacked
  | notANumber =>
    rw [ha] at hunpacked
    cases hunpacked
  | zero s => exact absurd ⟨_, by rw [ha]; rfl, rfl⟩ hle
  | finite s m' e' hm' =>
    cases s with
    | positive => exact ⟨m', e', hm', ha⟩
    | negative => exact absurd ⟨_, by rw [ha]; rfl, rfl⟩ hle

theorem max_eq_right (hz : (z == 0) = true) (ha : 0 < a) : Scalar.max z a = a := by
  obtain ⟨s, hs⟩ := exists_unpack_of_beq hz
  have hlt : z < a := by
    rw [lt_iff, hs, zero_compare_lt_iff]
    exact zero_compare_lt_iff.mp (lt_iff.mp ha)
  exact if_pos hlt

end Smoothing.Binary64
