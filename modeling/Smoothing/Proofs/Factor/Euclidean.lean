import Mathlib
import Smoothing.Factor.Build
import Smoothing.Proofs.Factor.Affine

/-!
# Priors and relative measurements of vectors

A prior on a vector has the residual `x - z` with the Jacobian `I`, and a relative measurement of
two vectors the residual `y - x - z` with the Jacobian `[-I | I]`. Both are affine
(`Factor.isAffine_prior`, `Factor.isAffine_between`), and so is each factor of these kinds that can
be built (`Factor.IsEuclidean.exists_isAffine`).
-/

open Finset

namespace Smoothing

namespace Factor

/-- A prior on a vector, or a relative measurement of two vectors, as they are built. -/
inductive IsEuclidean : Factor ℝ → Prop
  | prior {key : Key} {z : Vec ℝ} {noise : NoiseModel ℝ} {f : PriorFactor ℝ}
      (h : (PriorFactor.build key (.rn z) noise).outcome = .ok f) : IsEuclidean (.prior f)
  | between {first second : Key} {z : Vec ℝ} {noise : NoiseModel ℝ} {f : BetweenFactor ℝ}
      (h : (BetweenFactor.build first second (.rn z) noise).outcome = .ok f) :
      IsEuclidean (.between f)

theorem IsEuclidean.keys_ne_nil {f : Factor ℝ} (h : f.IsEuclidean) : f.keys ≠ [] := by
  cases h with
  | prior h => exact List.cons_ne_nil _ _
  | between h => exact List.cons_ne_nil _ _

variable {key first second : Key} {z : Vec ℝ} {noise : NoiseModel ℝ}

theorem get_neg_add {x : Vec ℝ} (h : x.size = z.size) (i : ℕ) :
    (-z + x).get i = x.get i - z.get i := by
  rw [Vec.get_add (by rw [Vec.size_neg, h]), Vec.get_neg]
  ring

theorem size_neg_add {x : Vec ℝ} (h : x.size = z.size) : (-z + x).size = z.size := by
  rw [Vec.size_add, Vec.size_neg, h, min_self]

/-! ### Blocks -/

theorem splitColumns_identity (n : ℕ) :
    splitColumns (Mat.identity n : Mat ℝ) 0 [n] = [Mat.identity n] := by
  have hcolumns : (Mat.identity n : Mat ℝ).columns 0 n = Mat.identity n :=
    Mat.columns_cols (Mat.identity n)
  rw [splitColumns, splitColumns, hcolumns]

theorem splitColumns_difference (n : ℕ) :
    splitColumns ((-Mat.identity n : Mat ℝ).beside (Mat.identity n)) 0 [n, n] =
    [-Mat.identity n, Mat.identity n] := by
  have hheight : (Mat.identity n : Mat ℝ).height = (-Mat.identity n : Mat ℝ).height :=
    (Mat.height_neg _).symm
  have hleft : ((-Mat.identity n : Mat ℝ).beside (Mat.identity n)).columns 0 n = -Mat.identity n :=
    Mat.columns_beside_left hheight
  have hright : ((-Mat.identity n : Mat ℝ).beside (Mat.identity n)).columns n n = Mat.identity n :=
    Mat.columns_beside_right hheight
  rw [splitColumns, splitColumns, splitColumns, Nat.zero_add, hleft, hright]

section Rows
variable {n i : ℕ} {p : Key → ℕ → ℝ}

theorem rowValue_identity (h : n ≤ i → p key i = 0) :
    rowValue [(key, Mat.identity n)] p i = p key i := by
  rw [rowValue_cons, rowValue_nil, add_zero]
  exact Mat.sum_get_identity h

theorem rowValue_difference (hfirst : n ≤ i → p first i = 0) (hsecond : n ≤ i → p second i = 0) :
    rowValue [(first, -Mat.identity n), (second, Mat.identity n)] p i = p second i - p first i := by
  rw [rowValue_cons, rowValue_cons, rowValue_nil, add_zero]
  simp only [Mat.get_neg, neg_mul, sum_neg_distrib]
  change -∑ j ∈ range n, _ + ∑ j ∈ range n, _ = _
  rw [Mat.sum_get_identity hfirst, Mat.sum_get_identity hsecond]
  ring

end Rows

/-! ### Evaluations -/

theorem deviation_rn_eq_ok_iff {y : Value ℝ} {e : Vec ℝ} :
    (Value.rn z).deviation key y = .ok e ↔ ∃ x, y = .rn x ∧ x.size = z.size ∧ -z + x = e := by
  unfold Value.deviation Value.localCoords
  cases y with
  | rn x =>
    by_cases hs : z.size = x.size
    · simp [hs, LieStructure.minus]
      rfl
    · simp [hs, Ne.symm hs]
  | so2 y => simp
  | se2 y => simp
  | so3 y => simp
  | se3 y => simp

theorem evaluate_between_eq_ok_iff {y₁ y₂ : Value ℝ} {wantJacobian : Bool} {r : Residual ℝ} :
    evaluate (.between ⟨first, second, .rn z, noise⟩) [y₁, y₂] wantJacobian = .ok r ↔
      ∃ x y, y₁ = .rn x ∧ y₂ = .rn y ∧ x.size = z.size ∧ y.size = z.size ∧
        BetweenFactor.residual (α := ℝ) z x y wantJacobian = r := by
  constructor
  · intro h
    unfold evaluate BetweenFactor.evaluate at h
    dsimp only at h
    split at h
    · next z' x y hz =>
      cases hz
      split_ifs at h with hx hy
      rw [not_not] at hx hy
      exact ⟨x, y, rfl, rfl, hx, hy, Except.ok.inj h⟩
    · next hz => cases hz
    · next hz => cases hz
    · next hz => cases hz
    · next hz => cases hz
    · split_ifs at h
  · rintro ⟨x, y, rfl, rfl, hx, hy, rfl⟩
    simp [evaluate, BetweenFactor.evaluate, hx, hy]

theorem residual_rn {x y : Vec ℝ} (hx : x.size = z.size) (hy : y.size = z.size)
    (wantJacobian : Bool) : BetweenFactor.residual (α := ℝ) z x y wantJacobian =
      ⟨-z + (-x + y), if wantJacobian then
        some ((-Mat.identity z.size).beside (Mat.identity z.size)) else none⟩ := by
  have hrelative : (-x + y).size = z.size := (size_neg_add (hy.trans hx.symm)).trans hx
  have houter : LieStructure.minusJacobian (G := Vec ℝ) (-x + y) z = Mat.identity z.size :=
    congrArg Mat.identity (size_neg_add hrelative)
  have hfirst : LieStructure.betweenJacobian x y = -Mat.identity z.size :=
    congrArg (fun n => -Mat.identity n) ((Vec.size_neg _).trans hrelative)
  have hsecond : LieStructure.jacobianIdentity y = Mat.identity z.size := congrArg Mat.identity hy
  have hneg : (-Mat.identity z.size : Mat ℝ).height = z.size :=
    (Mat.height_neg _).trans (Mat.height_identity z.size)
  have hjacobian :
      ((LieStructure.minusJacobian (G := Vec ℝ) (-x + y) z *
          LieStructure.betweenJacobian x y).beside
        (LieStructure.minusJacobian (G := Vec ℝ) (-x + y) z * LieStructure.jacobianIdentity y)) =
        (-Mat.identity z.size).beside (Mat.identity z.size) := by
    rw [houter, hfirst, hsecond, Mat.identity_mul hneg,
      Mat.identity_mul (Mat.height_identity z.size)]
  rw [← hjacobian]
  rfl

/-! ### Affine residuals -/

theorem isAffine_prior (hdim : noise.dim = z.size) :
    IsAffine (.prior ⟨key, .rn z, noise⟩) z.size (Mat.identity z.size) fun c =>
    -z + c.vectorAt key where
  nodup := List.nodup_singleton key
  ne_equality _ h := nomatch h
  dimension_eq := hdim
  height_eq := Mat.height_identity z.size
  cols_eq := (Nat.one_mul _).symm
  evaluate_eq {c xs} hxs hc wantJacobian := by
    obtain ⟨x, hx, hs⟩ := hc key List.mem_cons_self
    obtain ⟨y, ys, hy, -, rfl⟩ := List.forall₂_cons_left_iff.mp (lookUp_eq_ok_iff.mp hxs)
    obtain rfl : y = .rn x := Option.some.inj (hy.symm.trans hx)
    rw [Config.vectorAt_of_get? hx]
    exact Evaluated.bind_eq_ok.mpr ⟨_, deviation_rn_eq_ok_iff.mpr ⟨x, rfl, hs, rfl⟩, rfl⟩
  hasVectors {c xs wantJacobian r} hxs hr := by
    obtain ⟨y, ys, hy, -, rfl⟩ := List.forall₂_cons_left_iff.mp (lookUp_eq_ok_iff.mp hxs)
    obtain ⟨e, he, -⟩ := Evaluated.bind_eq_ok.mp hr
    obtain ⟨x, rfl, hs, -⟩ := deviation_rn_eq_ok_iff.mp he
    exact List.forall_mem_singleton.mpr ⟨x, hy, hs⟩
  size_residual {c} hc := size_neg_add (hc.size_vectorAt List.mem_cons_self)
  get_updated {c δ} hc hδ i := by
    have hkey : key ∈ (Factor.prior ⟨key, .rn z, noise⟩).keys := List.mem_cons_self
    have hc' := hc.of_shape (Config.shape_updated hδ)
    have hblocks := rowValue_identity (hc.coord_eq_zero hδ hkey (i := i))
    change _ = _ +
      rowValue (List.zip [key] (splitColumns (Mat.identity z.size) 0 [z.size])) δ.coord i
    rw [splitColumns_identity, List.zip_cons_cons, List.zip_nil_right, hblocks,
      get_neg_add (hc'.size_vectorAt hkey), get_neg_add (hc.size_vectorAt hkey),
      hc.get_vectorAt_updated hδ hkey]
    ring

theorem isAffine_between (hne : first ≠ second) (hdim : noise.dim = z.size) :
    IsAffine (.between ⟨first, second, .rn z, noise⟩) z.size
    ((-Mat.identity z.size).beside (Mat.identity z.size))
      fun c => -z + (-c.vectorAt first + c.vectorAt second) where
  nodup := List.nodup_cons.mpr ⟨by simpa using hne, List.nodup_singleton second⟩
  ne_equality _ h := nomatch h
  dimension_eq := hdim
  height_eq :=
    (Mat.height_beside (Mat.height_neg _).symm).trans
      ((Mat.height_neg _).trans (Mat.height_identity _))
  cols_eq := (Nat.two_mul _).symm
  evaluate_eq {c xs} hxs hc wantJacobian := by
    obtain ⟨⟨x, hx, hxs'⟩, hc⟩ := List.forall_mem_cons.mp hc
    obtain ⟨y, hy, hys⟩ := List.forall_mem_singleton.mp hc
    obtain ⟨x', ys, hx', hys', rfl⟩ := List.forall₂_cons_left_iff.mp (lookUp_eq_ok_iff.mp hxs)
    obtain ⟨y', zs, hy', hzs, rfl⟩ := List.forall₂_cons_left_iff.mp hys'
    obtain rfl := List.forall₂_nil_left_iff.mp hzs
    obtain rfl : x' = .rn x := Option.some.inj (hx'.symm.trans hx)
    obtain rfl : y' = .rn y := Option.some.inj (hy'.symm.trans hy)
    rw [Config.vectorAt_of_get? hx, Config.vectorAt_of_get? hy, ← residual_rn hxs' hys]
    exact evaluate_between_eq_ok_iff.mpr ⟨x, y, rfl, rfl, hxs', hys, rfl⟩
  hasVectors {c xs wantJacobian r} hxs hr := by
    obtain ⟨x', ys, hx', hys', rfl⟩ := List.forall₂_cons_left_iff.mp (lookUp_eq_ok_iff.mp hxs)
    obtain ⟨y', zs, hy', hzs, rfl⟩ := List.forall₂_cons_left_iff.mp hys'
    obtain rfl := List.forall₂_nil_left_iff.mp hzs
    obtain ⟨x, y, rfl, rfl, hx, hy, -⟩ := evaluate_between_eq_ok_iff.mp hr
    exact List.forall_mem_cons.mpr ⟨⟨x, hx', hx⟩, List.forall_mem_singleton.mpr ⟨y, hy', hy⟩⟩
  size_residual {c} hc := by
    have hfirst := hc.size_vectorAt (k := first) List.mem_cons_self
    have hsecond := hc.size_vectorAt (k := second) (List.mem_cons_of_mem _ List.mem_cons_self)
    exact size_neg_add ((size_neg_add (hsecond.trans hfirst.symm)).trans hfirst)
  get_updated {c δ} hc hδ i := by
    have hfirst : first ∈ (Factor.between ⟨first, second, .rn z, noise⟩).keys := List.mem_cons_self
    have hsecond : second ∈ (Factor.between ⟨first, second, .rn z, noise⟩).keys :=
      List.mem_cons_of_mem _ List.mem_cons_self
    have hget : ∀ {c : Config ℝ},
        c.HasVectors (Factor.between ⟨first, second, .rn z, noise⟩).keys z.size →
        (-z + (-c.vectorAt first + c.vectorAt second)).get i =
          (c.vectorAt second).get i - (c.vectorAt first).get i - z.get i := by
      intro c hc
      have hsize := (hc.size_vectorAt hsecond).trans (hc.size_vectorAt hfirst).symm
      rw [get_neg_add ((size_neg_add hsize).trans (hc.size_vectorAt hfirst)), get_neg_add hsize]
    have hblocks :=
      rowValue_difference (hc.coord_eq_zero hδ hfirst (i := i)) (hc.coord_eq_zero hδ hsecond)
    change _ = _ + rowValue (List.zip [first, second] (splitColumns _ 0 [z.size, z.size])) δ.coord i
    rw [splitColumns_difference, List.zip_cons_cons, List.zip_cons_cons,
      List.zip_nil_right, hblocks, hget (hc.of_shape (Config.shape_updated hδ)), hget hc,
      hc.get_vectorAt_updated hδ hfirst, hc.get_vectorAt_updated hδ hsecond]
    ring

theorem dim_of_checkFor {d : ℕ} {u : Unit}
    (h : (noise.checkFor d : FactorBuild ℝ Unit).outcome = .ok u) : noise.dim = d := by
  unfold NoiseModel.checkFor at h
  split_ifs at h with hd
  · cases h
  · exact not_not.mp hd

/-- **Priors and relative measurements of vectors are affine.** -/
theorem IsEuclidean.exists_isAffine {f : Factor ℝ} (h : f.IsEuclidean) :
    ∃ d jacobian residual, f.IsAffine d jacobian residual := by
  cases h with
  | prior h =>
    obtain ⟨u, hu, h⟩ := Logged.outcome_bind_eq_ok.mp h
    cases h
    exact ⟨_, _, _, isAffine_prior (dim_of_checkFor hu)⟩
  | between h =>
    unfold BetweenFactor.build at h
    split_ifs at h with hne
    · cases h
    · obtain ⟨u, hu, h⟩ := Logged.outcome_bind_eq_ok.mp h
      cases h
      exact ⟨_, _, _, isAffine_between hne (dim_of_checkFor hu)⟩

end Factor

end Smoothing
