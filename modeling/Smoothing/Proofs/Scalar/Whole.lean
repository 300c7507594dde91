import Mathlib
import Smoothing.Scalar.Binary64

/-!
# Whole numbers in floating point

A floating point number stands for a rational number unless it is infinite or no number
(`Binary64.rational?`). A number of 53 binary digits is stored as it is (`unpack_pack`), and
rounding drops only zeros behind it (`roundWithAccuracy_mul_pow`). So a whole number below `2 ^ 53`
is converted without rounding (`rational?_ofNat`).
-/

namespace Smoothing.Binary64

open Float.Model

/-- The rational number that a floating point number stands for. -/
def rational? (x : Float) : Option ℚ :=
  match x.toModel.unpack with
  | .zero _ => some 0
  | .finite s m e _ => some ((s.apply m : ℤ) * 2 ^ e)
  | _ => none

/-! ### Numbers of 53 digits -/

/-- The numbers of 53 binary digits. -/
structure HasDigits (m : ℕ) : Prop where
  le : 2 ^ 52 ≤ m
  lt : m < 2 ^ 53

section HasDigits
variable {m : ℕ} {e : ℤ} {s : UnpackedFloat.Sign} (h : HasDigits m)
include h

theorem HasDigits.pos : 0 < m := lt_of_lt_of_le (by decide) h.le

theorem HasDigits.log2_mul_pow (k : ℕ) : (m * 2 ^ k).log2 = 52 + k := by
  have hpos : m * 2 ^ k ≠ 0 := Nat.mul_ne_zero h.pos.ne' (Nat.two_pow_pos k).ne'
  rw [Nat.log2_eq_iff hpos, Nat.pow_add, Nat.add_right_comm, Nat.pow_add]
  exact ⟨Nat.mul_le_mul_right _ h.le, Nat.mul_lt_mul_of_pos_right h.lt (Nat.two_pow_pos k)⟩

theorem HasDigits.toNat_append : (1#1 ++ BitVec.ofNat 52 m).toNat = m := by
  obtain ⟨hle, hlt⟩ := h
  rw [BitVec.toNat_append, ← Nat.shiftLeft_add_eq_or_of_lt (BitVec.ofNat 52 m).isLt,
    BitVec.toNat_ofNat, Nat.shiftLeft_eq]
  change 1 * 2 ^ 52 + m % 2 ^ 52 = m
  omega

theorem pack_eq_packComponents (hlo : -1074 ≤ e) (hhi : e ≤ 971) :
    UnpackedFloat.pack .binary64 (.finite s m e h.pos) =
    UnpackedFloat.packComponents .binary64 s (BitVec.ofNat 11 (e + 1075).toNat)
      (BitVec.ofNat 52 m) := by
  have hlog : m.log2 = 52 := by simpa using h.log2_mul_pow 0
  have hbiased :
      (e + Format.binary64.exponentBias + Format.binary64.mantissaBitsWithoutImplicit).toNat =
      (e + 1075).toNat := by
    change (e + ((1023 : ℕ) : ℤ) + ((52 : ℕ) : ℤ)).toNat = _
    omega
  rw [UnpackedFloat.pack]
  simp only [hlog, hbiased]
  rw [if_neg (by omega)]
  exact if_pos rfl

/-- **A number of 53 digits is stored as it is**, unless its exponent is too small or too large. -/
theorem unpack_pack (hlo : -1074 ≤ e) (hhi : e ≤ 971) :
    (pack (.finite s m e h.pos)).unpack = .finite s m e h.pos := by
  have hmod : (e + 1075).toNat % 2 ^ 11 = (e + 1075).toNat := Nat.mod_eq_of_lt (by omega)
  -- the exponents at the two ends are those of zeros and of what is not finite
  have hne : ∀ b : BitVec 11, b.toNat = 0 ∨ b.toNat = 2047 →
      BitVec.ofNat 11 (e + 1075).toNat ≠ b := by
    rintro b hb rfl
    rw [BitVec.toNat_ofNat, hmod] at hb
    omega
  change UnpackedFloat.unpack .binary64 (UnpackedFloat.pack .binary64 _) = _
  rw [pack_eq_packComponents h hlo hhi, UnpackedFloat.unpack]
  simp only [UnpackedFloat.unpackExponent_packComponents,
    UnpackedFloat.unpackMantissa_packComponents, UnpackedFloat.unpackSign_packComponents,
    UnpackedFloat.Sign.ofBitVec_toBitVec]
  rw [if_neg (hne _ (.inr rfl)), if_neg (hne _ (.inl rfl))]
  have hexponent : (((BitVec.ofNat 11 (e + 1075).toNat).toNat : ℕ) : ℤ) -
      ((Format.binary64.exponentBias : ℤ) + (Format.binary64.mantissaBitsWithoutImplicit : ℤ)) =
      e := by
    rw [BitVec.toNat_ofNat, hmod]
    change ((e + 1075).toNat : ℤ) - (((1023 : ℕ) : ℤ) + ((52 : ℕ) : ℤ)) = e
    omega
  simp only [hexponent, h.toNat_append]

/-! ### Rounding -/

omit h in
theorem shiftRight_mul_pow (m k : ℕ) :
    (⟨m * 2 ^ k, false, false⟩ : UnpackedFloat.ExtendedMantissa) >>> k = ⟨m, false, false⟩ := by
  change Nat.repeat _ k _ = _
  induction k generalizing m with
  | zero => rw [Nat.pow_zero, Nat.mul_one, Nat.repeat]
  | succ k ih =>
    have hstep : UnpackedFloat.ExtendedMantissa.shiftRightOne ⟨m * 2, false, false⟩ =
        ⟨m, false, false⟩ := by
      simp [UnpackedFloat.ExtendedMantissa.shiftRightOne]
    rw [Nat.repeat, Nat.pow_succ', ← Nat.mul_assoc, ih, hstep]

theorem shiftToTargetExponent_mul_pow (k : ℕ) (he : -1074 ≤ e) :
    UnpackedFloat.shiftToTargetExponent .binary64 (m * 2 ^ k) (e - k) .exact =
    (⟨m, false, false⟩, e) := by
  have htarget : Format.binary64.targetExponent (totalExponent (m * 2 ^ k) (e - k)) = e := by
    rw [totalExponent, h.log2_mul_pow]
    change max (((52 + k : ℕ) : ℤ) + 1 + (e - k) - (53 : ℕ)) (-1074) = e
    omega
  have hshift : (e - (e - k)).toNat = k := by omega
  rw [UnpackedFloat.shiftToTargetExponent, htarget, UnpackedFloat.shiftToExponent, hshift]
  refine Prod.ext (shiftRight_mul_pow m k) ?_
  change e - k + k = e
  omega

/-- **Rounding drops only zeros behind a number of 53 digits.** -/
theorem roundWithAccuracy_mul_pow (k : ℕ) (he : -1074 ≤ e) :
    UnpackedFloat.roundWithAccuracy .binary64 s (m * 2 ^ k) (e - k) .exact =
    .finite s m e h.pos := by
  have hagain := shiftToTargetExponent_mul_pow h 0 he
  rw [Nat.pow_zero, Nat.mul_one, Nat.cast_zero, sub_zero] at hagain
  have hrounded : UnpackedFloat.ExtendedMantissa.roundedMantissa ⟨m, false, false⟩ = m := rfl
  rw [UnpackedFloat.roundWithAccuracy, shiftToTargetExponent_mul_pow h k he]
  simp only [hrounded, hagain]
  exact dif_neg h.pos.ne'

end HasDigits

/-! ### Whole numbers -/

section Whole
variable {n : ℕ} (hpos : 0 < n) (hn : n < 2 ^ 53)
include hpos hn

theorem hasDigits_mul_pow : HasDigits (n * 2 ^ (52 - n.log2)) := by
  have hlog : n.log2 < 53 := (Nat.log2_lt hpos.ne').mpr hn
  obtain ⟨hle, hlt⟩ := (Nat.log2_eq_iff hpos.ne').mp rfl
  have hsplit : ∀ d, 2 ^ (n.log2 + d) * 2 ^ (52 - n.log2) = 2 ^ (52 + d) := fun d => by
    rw [← Nat.pow_add]
    congr 1
    omega
  exact ⟨(hsplit 0).symm.le.trans (Nat.mul_le_mul_right _ hle),
    (Nat.mul_lt_mul_of_pos_right hlt (Nat.two_pow_pos _)).trans_eq (hsplit 1)⟩

theorem unpackedOfNat_eq : UnpackedFloat.ofNat .binary64 n =
    .finite .positive (n * 2 ^ (52 - n.log2)) (n.log2 - 52) (hasDigits_mul_pow hpos hn).pos := by
  have hlog : n.log2 < 53 := (Nat.log2_lt hpos.ne').mpr hn
  have hround := roundWithAccuracy_mul_pow (s := .positive) (hasDigits_mul_pow hpos hn)
    0 (e := (n.log2 : ℤ) - 52) (by omega)
  rw [Nat.pow_zero, Nat.mul_one, Nat.cast_zero, sub_zero] at hround
  have hsign : compare (n : ℤ) 0 = .gt := Int.compare_eq_gt.mpr (by exact_mod_cast hpos)
  have htarget : Format.binary64.targetExponent (totalExponent n 0) = (n.log2 : ℤ) - 52 := by
    change max ((n.log2 : ℤ) + 1 + 0 - (53 : ℕ)) (-1074) = _
    omega
  have hfill : UnpackedFloat.decreaseExponent n 0 ((n.log2 : ℤ) - 52) =
      (n * 2 ^ (52 - n.log2), (n.log2 : ℤ) - 52) := by
    have hshift : (0 - ((n.log2 : ℤ) - 52)).toNat = 52 - n.log2 := by omega
    rw [UnpackedFloat.decreaseExponent, hshift, Nat.shiftLeft_eq]
    refine Prod.ext rfl ?_
    change 0 - ((52 - n.log2 : ℕ) : ℤ) = _
    omega
  rw [UnpackedFloat.ofNat, UnpackedFloat.ofInt, UnpackedFloat.normalize, hsign]
  simp only [Int.toNat_natCast, UnpackedFloat.round, htarget, hfill, hround]

/-- A whole number is converted by way of a product with one. -/
theorem unpack_ofNat : (Float.ofNat n).toModel.unpack =
    .finite .positive (n * 2 ^ (52 - n.log2)) (n.log2 - 52) (hasDigits_mul_pow hpos hn).pos := by
  have hlog : n.log2 < 53 := (Nat.log2_lt hpos.ne').mpr hn
  have hdigits := hasDigits_mul_pow hpos hn
  have hword : n.toUInt64.toNat = n := UInt64.toNat_ofNat_of_lt' (lt_trans hn (by decide))
  have hproduct : Float.ofNat n = n.toUInt64.toFloat * Float.ofBits 0x3FF0000000000000 := by
    unfold Float.ofNat
    simp only [OfScientific.ofScientific, Float.ofScientific]
    rw [dif_pos ⟨hn, by omega⟩]
    rfl
  have hone : (Float.ofBits 0x3FF0000000000000).toModel.unpack =
      .finite .positive (2 ^ 52) (-52) (by decide) := rfl
  have hfactor : n.toUInt64.toFloat.toModel.unpack = .finite .positive (n * 2 ^ (52 - n.log2))
      (n.log2 - 52) hdigits.pos := by
    change (pack (UnpackedFloat.ofNat .binary64 n.toUInt64.toNat)).unpack = _
    rw [hword, unpackedOfNat_eq hpos hn]
    exact unpack_pack hdigits (by omega) (by omega)
  rw [hproduct]
  change (pack (UnpackedFloat.mul .binary64 n.toUInt64.toFloat.toModel.unpack
    (Float.ofBits 0x3FF0000000000000).toModel.unpack)).unpack = _
  rw [hfactor, hone, UnpackedFloat.mul]
  have hround :=
    roundWithAccuracy_mul_pow (s := .positive) hdigits 52 (e := (n.log2 : ℤ) - 52) (by omega)
  change (pack (UnpackedFloat.roundWithAccuracy .binary64 .positive _ ((n.log2 : ℤ) - 52 - (52 : ℕ))
    .exact)).unpack = _
  rw [hround]
  exact unpack_pack hdigits (by omega) (by omega)

end Whole

/-- **A whole number below `2 ^ 53` is converted without rounding.** -/
theorem rational?_ofNat {n : ℕ} (hn : n < 2 ^ 53) : rational? (Float.ofNat n) = some (n : ℚ) := by
  rcases Nat.eq_zero_or_pos n with rfl | hpos
  · have hzero : (Float.ofNat 0).toModel.unpack = .zero .positive := rfl
    rw [rational?, hzero]
    rfl
  · have hlog : n.log2 < 53 := (Nat.log2_lt hpos.ne').mpr hn
    have hexponent : ((52 - n.log2 : ℕ) : ℤ) + ((n.log2 : ℤ) - 52) = 0 := by omega
    rw [rational?, unpack_ofNat hpos hn]
    simp only [Option.some.injEq]
    change (((n * 2 ^ (52 - n.log2) : ℕ) : ℤ) : ℚ) * 2 ^ ((n.log2 : ℤ) - 52) = n
    push_cast
    rw [mul_assoc, ← zpow_natCast, ← zpow_add₀ two_ne_zero, hexponent, zpow_zero, mul_one]

end Smoothing.Binary64
