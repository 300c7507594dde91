import Mathlib
import Smoothing.Proofs.Lie.Action
import Smoothing.Proofs.Mat

/-!
# Matrices by what they do to vectors

Two matrices of one size that agree on all vectors are equal (`Mat.ext_mulVec`, `Mat3.ext_mulVec`),
so laws between products of matrices are laws of applying them: the small matrices of space become
dense matrices, alone or as the blocks of a matrix of rigid motions, and products of the one are
products of the other (`Mat3.toMat_mul`, `Mat3.blockUpper_mul`).
-/

open Finset

namespace Smoothing

namespace Mat

theorem mulVec_mul (a b : Mat ℝ) (v : Vec ℝ) : (a * b).mulVec v = a.mulVec (b.mulVec v) := by
  refine Vec.ext_get ?_ fun i _ => ?_
  · rw [size_mulVec, size_mulVec, height_mul]
  · have hcols : (a * b).cols = b.cols := rfl
    simp only [get_mulVec, get_mul, hcols, sum_mul, mul_sum]
    rw [sum_comm]
    exact sum_congr rfl fun k _ => sum_congr rfl fun j _ => mul_assoc _ _ _

theorem mulVec_identity {n : ℕ} {v : Vec ℝ} (h : v.size = n) : (identity n).mulVec v = v := by
  refine Vec.ext_get ?_ fun i _ => ?_
  · rw [size_mulVec, height_identity, h]
  · rw [get_mulVec]
    exact sum_get_identity fun hi => Vec.get_of_size_le (h.trans_le hi)

theorem mulVec_neg (m : Mat ℝ) (v : Vec ℝ) : m.mulVec (-v) = (-m).mulVec v := by
  refine Vec.ext_get ?_ fun i _ => ?_
  · rw [size_mulVec, size_mulVec, height_neg]
  · have hcols : (-m).cols = m.cols := rfl
    simp only [get_mulVec, hcols, Vec.get_neg, get_neg, mul_neg, neg_mul]

theorem ext_mulVec {a b : Mat ℝ} (hheight : a.height = b.height) (hcols : a.cols = b.cols)
    (h : ∀ v : Vec ℝ, v.size = a.cols → a.mulVec v = b.mulVec v) : a = b := by
  refine ext_get hheight hcols fun i _ j hj => ?_
  -- The vector with a one at `j` takes the matrix to its column.
  have hpick : ∀ m : Mat ℝ, m.cols = a.cols →
      (m.mulVec ⟨(List.range a.cols).map fun k => if k = j then 1 else 0⟩).get i =
      m.get i j := fun m hm => by
    rw [get_mulVec, sum_eq_single_of_mem j (mem_range.mpr (hm ▸ hj)) fun k hk hkj => ?_]
    · simp [Vec.get, hj]
    · rw [mem_range, hm] at hk
      simp [Vec.get, hk, hkj]
  rw [← hpick a rfl, ← hpick b hcols.symm, h _ (by simp)]

theorem mul_identity {a : Mat ℝ} {n : ℕ} (h : a.cols = n) : a * identity n = a := by
  refine ext_mulVec (height_mul _ _) h.symm fun v hv => ?_
  rw [mulVec_mul, mulVec_identity (n := n) hv]

end Mat

namespace Vec3

theorem exists_toList {v : Vec ℝ} (h : v.size = 3) : ∃ u : Vec3 ℝ, v = ⟨u.toList⟩ := by
  match v, h with
  | ⟨[a, b, c]⟩, _ => exact ⟨⟨a, b, c⟩, rfl⟩

theorem neg_neg (v : Vec3 ℝ) : -(-v) = v := by
  ext <;> simp [neg_eq]

theorem norm_neg (v : Vec3 ℝ) : (-v).norm = v.norm := by rw [norm, normSq_neg]; rfl

theorem eq_zero_of_cross {v : Vec3 ℝ} (h : ∀ u : Vec3 ℝ, u.cross v = zero) : v = zero := by
  have hx := h ⟨1, 0, 0⟩
  have hy := h ⟨0, 1, 0⟩
  simp only [cross, zero, zero_mul, one_mul, sub_zero, zero_sub, mk.injEq, neg_eq_zero] at hx hy
  exact Vec3.ext hy.2.2 hx.2.2 hx.2.1

end Vec3

namespace Mat3

variable (m n : Mat3 ℝ) (u v : Vec3 ℝ)

theorem ext_mulVec {m n : Mat3 ℝ} (h : ∀ v, m.mulVec v = n.mulVec v) : m = n := by
  have hx := h ⟨1, 0, 0⟩
  have hy := h ⟨0, 1, 0⟩
  have hz := h ⟨0, 0, 1⟩
  simp only [mulVec, Vec3.dot, mul_one, mul_zero, add_zero, zero_add, Vec3.mk.injEq] at hx hy hz
  obtain ⟨hx0, hx1, hx2⟩ := hx
  obtain ⟨hy0, hy1, hy2⟩ := hy
  obtain ⟨hz0, hz1, hz2⟩ := hz
  exact Mat3.ext (Vec3.ext hx0 hy0 hz0) (Vec3.ext hx1 hy1 hz1) (Vec3.ext hx2 hy2 hz2)

theorem mulVec_mul : (m * n).mulVec v = m.mulVec (n.mulVec v) := by
  ext <;>
  · simp only [mul_eq, mulVec, transpose, Vec3.dot]
    ring

theorem mulVec_identity : identity.mulVec v = v := by
  ext <;> simp only [mulVec, identity, Vec3.dot] <;> ring

theorem mulVec_add : m.mulVec (u + v) = m.mulVec u + m.mulVec v := by
  ext <;> simp only [mulVec, Vec3.dot, Vec3.add_eq] <;> ring

theorem add_mulVec : (m + n).mulVec v = m.mulVec v + n.mulVec v := by
  ext <;> simp only [mulVec, Vec3.dot, Vec3.add_eq, add_eq] <;> ring

theorem sub_mulVec : (m - n).mulVec v = m.mulVec v - n.mulVec v := by
  ext <;> simp only [mulVec, Vec3.dot, Vec3.sub_eq, sub_eq] <;> ring

theorem scale_mulVec (c : ℝ) : (m.scale c).mulVec v = (m.mulVec v).scale c := by
  ext <;> simp only [mulVec, Vec3.dot, Vec3.scale_eq, scale] <;> ring

theorem mul_unscale (c : ℝ) : (m * n).unscale c = m.scale (1 / c) * n := by
  ext <;>
  · simp only [unscale, mul_eq, scale, mulVec, Vec3.map, Vec3.scale_eq, Vec3.dot]
    ring

theorem neg_eq : -m = ⟨-m.r0, -m.r1, -m.r2⟩ := rfl

theorem neg_mulVec : (-m).mulVec v = -m.mulVec v := by
  ext <;> simp only [mulVec, Vec3.dot, Vec3.neg_eq, neg_eq] <;> ring

theorem mulVec_neg : m.mulVec (-v) = -m.mulVec v := by
  ext <;> simp only [mulVec, Vec3.dot, Vec3.neg_eq] <;> ring

theorem mulVec_hat : u.hat.mulVec v = u.cross v := by
  ext <;> simp only [mulVec, Vec3.hat, Vec3.dot, Vec3.cross] <;> ring

/-! ### As dense matrices -/

theorem mulVec_toMat : m.toMat.mulVec ⟨v.toList⟩ = ⟨(m.mulVec v).toList⟩ := rfl

theorem toMat_mul : (m * n).toMat = m.toMat * n.toMat := by
  refine Mat.ext_mulVec rfl rfl fun v hv => ?_
  obtain ⟨v, rfl⟩ := Vec3.exists_toList hv
  rw [Mat.mulVec_mul, mulVec_toMat, mulVec_toMat, mulVec_toMat, mulVec_mul]

theorem toMat_identity : (identity : Mat3 ℝ).toMat = Mat.identity 3 := by
  refine Mat.ext_mulVec rfl rfl fun v hv => ?_
  obtain ⟨v, rfl⟩ := Vec3.exists_toList hv
  rw [mulVec_toMat, mulVec_identity]
  exact (Mat.mulVec_identity rfl).symm

theorem mulVec_blockUpper : (blockUpper m n).mulVec ⟨u.toList ++ v.toList⟩ =
    ⟨(m.mulVec u + n.mulVec v).toList ++ (m.mulVec v).toList⟩ := by
  have hrow : ∀ r s : Vec3 ℝ,
      (⟨r.toList ++ s.toList⟩ : Vec ℝ).apply ⟨u.toList ++ v.toList⟩ =
        r.dot u + s.dot v := fun r s =>
    Vec.append_apply_append (u := ⟨r.toList⟩) (v := ⟨s.toList⟩) (x := ⟨u.toList⟩)
      (y := ⟨v.toList⟩) rfl
  have hzero : (Vec3.zero : Vec3 ℝ).dot u = 0 := by simp [Vec3.zero, Vec3.dot]
  have hlower : ∀ r : Vec3 ℝ,
      (⟨[0, 0, 0] ++ r.toList⟩ : Vec ℝ).apply ⟨u.toList ++ v.toList⟩ = r.dot v := fun r =>
    (hrow Vec3.zero r).trans (by rw [hzero, zero_add])
  simp only [Mat.mulVec, blockUpper, List.map, hrow, hlower]
  rfl

theorem exists_toList_append {v : Vec ℝ} (h : v.size = 6) :
    ∃ u w : Vec3 ℝ, v = ⟨u.toList ++ w.toList⟩ := by
  match v, h with
  | ⟨[a, b, c, d, e, f]⟩, _ => exact ⟨⟨a, b, c⟩, ⟨d, e, f⟩, rfl⟩

theorem blockUpper_mul (a b c d : Mat3 ℝ) :
    blockUpper a b * blockUpper c d = blockUpper (a * c) (a * d + b * c) := by
  refine Mat.ext_mulVec rfl rfl fun v hv => ?_
  obtain ⟨u, w, rfl⟩ := exists_toList_append hv
  have hassoc : ∀ x y z : Vec3 ℝ, x + y + z = x + (y + z) := fun x y z => by
    ext <;> simp only [Vec3.add_eq] <;> ring
  rw [Mat.mulVec_mul]
  simp only [mulVec_blockUpper, mulVec_mul, mulVec_add, add_mulVec, hassoc]

theorem blockUpper_identity : blockUpper identity (Vec3.zero : Vec3 ℝ).hat = Mat.identity 6 := by
  refine Mat.ext_mulVec rfl rfl fun v hv => ?_
  obtain ⟨u, w, rfl⟩ := exists_toList_append hv
  have hzero : u + Vec3.zero.cross w = u := by
    ext <;> simp [Vec3.add_eq, Vec3.cross, Vec3.zero]
  rw [mulVec_blockUpper, mulVec_identity, mulVec_identity, mulVec_hat, hzero]
  exact (Mat.mulVec_identity rfl).symm

theorem toMat_inj {m n : Mat3 ℝ} : m.toMat = n.toMat ↔ m = n := by
  constructor
  · intro h
    simp only [toMat, Vec3.toList, Mat.mk.injEq, List.cons.injEq, Vec.mk.injEq, and_true,
      true_and] at h
    obtain ⟨⟨h00, h01, h02⟩, ⟨h10, h11, h12⟩, h20, h21, h22⟩ := h
    exact Mat3.ext (Vec3.ext h00 h01 h02) (Vec3.ext h10 h11 h12) (Vec3.ext h20 h21 h22)
  · rintro rfl
    rfl

theorem blockUpper_inj {a b c d : Mat3 ℝ} : blockUpper a b = blockUpper c d ↔ a = c ∧ b = d := by
  constructor
  · intro h
    simp only [blockUpper, Vec3.toList, List.cons_append, List.nil_append, Mat.mk.injEq,
      List.cons.injEq, Vec.mk.injEq, and_true, true_and] at h
    obtain ⟨⟨ha00, ha01, ha02, hb00, hb01, hb02⟩, ⟨ha10, ha11, ha12, hb10, hb11, hb12⟩,
      ⟨ha20, ha21, ha22, hb20, hb21, hb22⟩, -⟩ := h
    exact ⟨Mat3.ext (Vec3.ext ha00 ha01 ha02) (Vec3.ext ha10 ha11 ha12) (Vec3.ext ha20 ha21 ha22),
      Mat3.ext (Vec3.ext hb00 hb01 hb02) (Vec3.ext hb10 hb11 hb12) (Vec3.ext hb20 hb21 hb22)⟩
  · rintro ⟨rfl, rfl⟩
    rfl

end Mat3

end Smoothing
