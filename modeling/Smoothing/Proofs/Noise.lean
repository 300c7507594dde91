import Mathlib
import Smoothing.Noise
import Smoothing.Proofs.Mat.Largest
import Smoothing.Proofs.Mat.Whitening

/-!
# Noise models of a covariance

A covariance is accepted if it is square, symmetric up to a tolerance, and has a triangular factor
(`isAccepted_iff`). For one that is symmetric this means that it is positive definite, and the
square root of the information then whitens: the distance of a residual `e` is `½ eᵀ S⁻¹ e`
(`ofCovariance_spec`). The tolerance is relative to the largest entry or to one, whichever is
larger, so whether a covariance counts as symmetric can depend on the unit of measurement
(`isAccepted_scale`, `not_isAccepted_scale_lopsided`); whether it has a factor does not
(`exists_isLowerFactor_scale_iff`).
-/

open Finset Matrix

namespace Smoothing.NoiseModel

variable {cov : Mat ℝ} {m : NoiseModel ℝ}

/-! ### When a model is accepted -/

theorem outcome_refuse {β : Type} (e : NoiseError ℝ) :
    (refuse e : Build ℝ β).outcome = .error (.cause e) :=
  rfl

theorem outcome_checkDim_eq_ok_iff {n : ℕ} {u : Unit} :
    (checkDim n : Build ℝ Unit).outcome = .ok u ↔ 0 < n := by
  unfold checkDim
  split_ifs with h
  · simp [outcome_refuse, h]
  · simp [Nat.pos_of_ne_zero h]

theorem outcome_checkSigma_eq_ok_iff {σ : ℝ} {u : Unit} :
    (checkSigma σ).outcome = .ok u ↔ 0 < σ := by
  unfold checkSigma
  rw [Scalar.isFinite_real]
  split_ifs with h
  · simpa [outcome_refuse] using h
  · simpa using h

theorem outcome_forM_checkSigma_eq_ok_iff {σs : List ℝ} {u : Unit} :
    (σs.forM checkSigma : Build ℝ Unit).outcome = .ok u ↔ ∀ σ ∈ σs, 0 < σ := by
  induction σs with
  | nil => simp
  | cons σ σs ih =>
    change (checkSigma σ >>= fun _ => σs.forM checkSigma : Build ℝ Unit).outcome = _ ↔ _
    simp only [Logged.outcome_bind_eq_ok, outcome_checkSigma_eq_ok_iff, ih, exists_const,
      List.forall_mem_cons]

/-- **Standard deviations are accepted** if there is one and all are positive. -/
theorem outcome_diagonal_eq_ok_iff {σs : List ℝ} :
    (diagonal σs).outcome = .ok m ↔
      σs ≠ [] ∧ (∀ σ ∈ σs, 0 < σ) ∧ m = ⟨.diagonal, Mat.diagonal ⟨σs.map (1 / ·)⟩⟩ := by
  simp only [diagonal, Logged.outcome_bind_eq_ok, outcome_checkDim_eq_ok_iff,
    outcome_forM_checkSigma_eq_ok_iff, exists_const, Logged.outcome_pure, List.length_pos_iff,
    Except.ok.injEq, eq_comm (a := m)]

theorem outcome_ofCovariance_eq_ok_iff : (ofCovariance cov).outcome = .ok m ↔
    0 < cov.height ∧ cov.cols = cov.height ∧ asymmetry cov ≤ 1e-9 * max cov.amax 1 ∧
      ∃ r, cov.whitening = .inverse r ∧ m = ⟨.gaussian, r⟩ := by
  have hfinite : cov.allFinite = true := by simp [Mat.allFinite, Vec.allFinite]
  simp only [ofCovariance, Logged.outcome_bind_eq_ok, outcome_checkDim_eq_ok_iff, exists_const,
    Scalar.max_real]
  refine and_congr_right fun _ => ?_
  by_cases hcols : cov.cols = cov.height
  · by_cases hsymm : asymmetry cov ≤ 1e-9 * max cov.amax 1
    · cases hw : cov.whitening with
      | notDefinite => simp [outcome_refuse, hcols, hfinite, not_lt.mpr hsymm]
      | notInvertible => simp [outcome_refuse, hcols, hfinite, not_lt.mpr hsymm]
      | inverse r => simp [hcols, hfinite, hsymm, not_lt.mpr hsymm, eq_comm (a := m)]
    · simp [outcome_refuse, hcols, hfinite, hsymm, not_le.mp hsymm]
  · simp [outcome_refuse, hcols]

theorem tolerance_nonneg (cov : Mat ℝ) : 0 ≤ 1e-9 * max cov.amax 1 :=
  mul_nonneg (by norm_num) (zero_le_one.trans (le_max_right _ _))

theorem asymmetry_le_iff {t : ℝ} (ht : 0 ≤ t) (hcols : cov.cols = cov.height) :
    asymmetry cov ≤ t ↔ ∀ i j, |cov.get i j - cov.get j i| ≤ t := by
  have hheight : cov.transpose.height = cov.height := (Mat.height_transpose cov).trans hcols
  rw [asymmetry, Mat.amax_le_iff ht]
  refine forall_congr' fun i => forall_congr' fun j => ?_
  rw [Mat.get_sub hheight hcols.symm, Mat.get_transpose]

/-- **A symmetric covariance is accepted** if its inverse factor is found. -/
theorem outcome_ofCovariance_symm_iff {n : ℕ} (hn : 0 < n) {S : Mat ℝ} (hheight : S.height = n)
    (hcols : S.cols = n) (hsymm : (S.toMatrix n).IsSymm) : (ofCovariance S).outcome = .ok m ↔
      ∃ r, S.whitening = .inverse r ∧ m = ⟨.gaussian, r⟩ := by
  have hsquare : S.cols = S.height := hcols.trans hheight.symm
  have hasymmetry : asymmetry S ≤ 1e-9 * max S.amax 1 := by
    refine (asymmetry_le_iff (tolerance_nonneg S) hsquare).mpr fun i j => ?_
    rw [Mat.get_comm hheight hcols hsymm i j, sub_self, abs_zero]
    exact tolerance_nonneg S
  rw [outcome_ofCovariance_eq_ok_iff]
  exact ⟨fun h => h.2.2.2, fun h => ⟨hheight ▸ hn, hsquare, hasymmetry, h⟩⟩

/-! ### Whitening -/

/-- **The distance** is half the squared norm in the metric of the inverse covariance. -/
theorem distance?_of_isWhitening {n : ℕ} {S : Matrix (Fin n) (Fin n) ℝ}
    (hheight : m.sqrtInfo.height = n) (hcols : m.sqrtInfo.cols = n)
    (h : Mat.IsWhitening S (m.sqrtInfo.toMatrix n)) {e : Vec ℝ} (he : e.size = n) :
    m.distance? e = some (1 / 2 * (e.toPoint n ⬝ᵥ S⁻¹ *ᵥ e.toPoint n)) := by
  have hsize : (m.sqrtInfo.mulVec e).size ≤ n := (Mat.size_mulVec _ _).trans hheight |>.le
  have hnorm : (m.whiten e).normSq = e.toPoint n ⬝ᵥ S⁻¹ *ᵥ e.toPoint n := by
    rw [whiten, Mat.normSq_eq_dotProduct hsize, Mat.toPoint_mulVec hcols, h.dotProduct_mulVec]
  rw [distance?, if_pos (he.trans hcols.symm), distance, hnorm]
  norm_num

/-- **A symmetric covariance is accepted if and only if it is positive definite.** The square root
`R` of the information is then lower triangular with a positive diagonal and `R S Rᵀ = 1`, and the
distance of a residual `e` is `½ eᵀ S⁻¹ e`. Squares of standard deviations on the diagonal give the
same square root as the standard deviations. -/
theorem ofCovariance_spec {n : ℕ} (hn : 0 < n) {S : Mat ℝ} (hheight : S.height = n)
    (hcols : S.cols = n) (hsymm : (S.toMatrix n).IsSymm) :
    ((∃ m, (ofCovariance S).outcome = .ok m) ↔ (S.toMatrix n).PosDef) ∧
    (∀ m, (ofCovariance S).outcome = .ok m →
      m.sqrtInfo.height = n ∧ m.sqrtInfo.cols = n ∧
      Mat.IsWhitening (S.toMatrix n) (m.sqrtInfo.toMatrix n) ∧
        ∀ e : Vec ℝ, e.size = n →
          m.distance? e = some (1 / 2 * (e.toPoint n ⬝ᵥ (S.toMatrix n)⁻¹ *ᵥ e.toPoint n))) ∧
    ∀ σs : List ℝ, σs ≠ [] → (∀ σ ∈ σs, 0 < σ) →
      ∃ m m', (ofCovariance (Mat.diagonal ⟨σs.map (· ^ 2)⟩)).outcome = .ok m ∧
        (diagonal σs).outcome = .ok m' ∧ m.sqrtInfo = m'.sqrtInfo := by
  have hsquare : S.cols = S.height := hcols.trans hheight.symm
  refine ⟨?_, fun m hm => ?_, fun σs hne hpos => ?_⟩
  · calc (∃ m, (ofCovariance S).outcome = .ok m)
      _ ↔ ∃ r, S.whitening = .inverse r := by
        simp only [outcome_ofCovariance_symm_iff hn hheight hcols hsymm]
        exact ⟨fun ⟨_, r, hr, _⟩ => ⟨r, hr⟩, fun ⟨r, hr⟩ => ⟨_, r, hr, rfl⟩⟩
      _ ↔ ∃ l, Mat.IsLowerFactor n S.get l := hheight ▸ Mat.exists_whitening_iff hsquare
      _ ↔ (S.toMatrix n).PosDef := (Mat.posDef_iff_exists_isLowerFactor hsymm).symm
  · obtain ⟨r, hr, rfl⟩ := (outcome_ofCovariance_symm_iff hn hheight hcols hsymm).mp hm
    obtain ⟨l, hl, hinverse⟩ := Mat.whitening_spec hsquare hr
    rw [hheight] at hl hinverse
    have hwhitening := hl.isWhitening hsymm hinverse.square_mul
    exact ⟨hinverse.height_eq, hinverse.cols_eq, hwhitening, fun e he =>
      distance?_of_isWhitening hinverse.height_eq hinverse.cols_eq hwhitening he⟩
  · have hd : (Mat.diagonal (⟨σs.map (· ^ 2)⟩ : Vec ℝ)).height = σs.length := by
      rw [Mat.height_diagonal, Vec.size_mk, List.length_map]
    have hd' : (Mat.diagonal (⟨σs.map (· ^ 2)⟩ : Vec ℝ)).cols = σs.length := List.length_map _
    exact ⟨_, _,
      (outcome_ofCovariance_symm_iff (List.length_pos_iff.mpr hne) hd hd'
      (Mat.isSymm_diagonal _ _)).mpr
      ⟨_, Mat.whitening_diagonal hpos, rfl⟩, outcome_diagonal_eq_ok_iff.mpr ⟨hne, hpos, rfl⟩, rfl⟩

/-- A covariance of two coordinates that depend on each other. -/
noncomputable def correlated : Mat ℝ := Mat.ofRows 2 [⟨[4.0, 2.0]⟩, ⟨[2.0, 2.0]⟩]

/-- The triangular factor of this covariance. -/
noncomputable def correlatedFactor : ℕ → ℕ → ℝ
  | 0, 0 => 2.0
  | 1, 0 => 1
  | 1, 1 => 1
  | _, _ => 0

theorem isLowerFactor_correlated : Mat.IsLowerFactor 2 correlated.get correlatedFactor where
  above i j hij := by
    rcases i, j with ⟨_ | _ | i, _ | _ | j⟩ <;> first | rfl | omega
  diag_pos i hi := by
    interval_cases i <;> norm_num [correlatedFactor]
  sum_mul i hi j hj := by
    interval_cases i <;> interval_cases j <;>
      simp [sum_range_succ, correlatedFactor, correlated, Mat.get, Mat.ofRows, Vec.fit] <;> norm_num

theorem isSymm_correlated : (correlated.toMatrix 2).IsSymm := by
  ext i j
  fin_cases i <;> fin_cases j <;> rfl

theorem ofCovariance_spec_correlated :
    (∃ m, (ofCovariance correlated).outcome = .ok m ∧
      Mat.IsWhitening (correlated.toMatrix 2) (m.sqrtInfo.toMatrix 2) ∧
      m.distance? ⟨[1, 2]⟩ = some (1 / 2 * (Vec.toPoint 2 ⟨[1, 2]⟩ ⬝ᵥ (correlated.toMatrix 2)⁻¹ *ᵥ
        Vec.toPoint 2 ⟨[1, 2]⟩))) ∧
    ∃ m m', (ofCovariance (Mat.diagonal (⟨[2 ^ 2, 3 ^ 2]⟩ : Vec ℝ))).outcome = .ok m ∧
      (diagonal ([2, 3] : List ℝ)).outcome = .ok m' ∧ m.sqrtInfo = m'.sqrtInfo := by
  obtain ⟨haccepted, hspec, hdiagonal⟩ :=
    ofCovariance_spec two_pos (S := correlated) rfl rfl isSymm_correlated
  have hposDef :=
    (Mat.posDef_iff_exists_isLowerFactor isSymm_correlated).mpr ⟨_, isLowerFactor_correlated⟩
  obtain ⟨m, hm⟩ := haccepted.mpr hposDef
  obtain ⟨-, -, hwhitening, hdistance⟩ := hspec m hm
  exact ⟨⟨m, hm, hwhitening, hdistance _ rfl⟩, hdiagonal [2, 3] (by simp) (by simp)⟩

/-! ### The unit of measurement -/

/-- A covariance is accepted. -/
def IsAccepted (cov : Mat ℝ) : Prop := ∃ m, (ofCovariance cov).outcome = .ok m

theorem isAccepted_iff : IsAccepted cov ↔
    0 < cov.height ∧ cov.cols = cov.height ∧
    (∀ i j, |cov.get i j - cov.get j i| ≤ 1e-9 * max cov.amax 1) ∧
      ∃ l, Mat.IsLowerFactor cov.height cov.get l := by
  have htolerance := tolerance_nonneg cov
  simp only [IsAccepted, outcome_ofCovariance_eq_ok_iff]
  constructor
  · rintro ⟨m, hpos, hcols, hsymm, r, hr, -⟩
    exact ⟨hpos, hcols, (asymmetry_le_iff htolerance hcols).mp hsymm,
      (Mat.exists_whitening_iff hcols).mp ⟨r, hr⟩⟩
  · rintro ⟨hpos, hcols, hsymm, hfactor⟩
    obtain ⟨r, hr⟩ := (Mat.exists_whitening_iff hcols).mpr hfactor
    exact ⟨_, hpos, hcols, (asymmetry_le_iff htolerance hcols).mpr hsymm, r, hr, rfl⟩

section Scale

variable {c : ℝ} (hc : 0 < c)
include hc

theorem exists_isLowerFactor_scale_iff {n : ℕ} :
    (∃ l, Mat.IsLowerFactor n (cov.scale c).get l) ↔ ∃ l, Mat.IsLowerFactor n cov.get l := by
  constructor
  · rintro ⟨l, hl⟩
    refine ⟨_, (hl.scale (inv_pos.mpr hc)).congr fun i _ j _ => ?_⟩
    rw [Mat.get_scale, mul_comm, mul_inv_cancel_right₀ hc.ne']
  · rintro ⟨l, hl⟩
    refine ⟨_, (hl.scale hc).congr fun i _ j _ => ?_⟩
    rw [Mat.get_scale, mul_comm]

/-- **The tolerance of the symmetry is not scaled** with the covariance, the factor is. -/
theorem isAccepted_scale_iff : IsAccepted (cov.scale c) ↔
    0 < cov.height ∧ cov.cols = cov.height ∧
    (∀ i j, |cov.get i j - cov.get j i| ≤ 1e-9 * max cov.amax (1 / c)) ∧
      ∃ l, Mat.IsLowerFactor cov.height cov.get l := by
  have hentry : ∀ i j, |(cov.scale c).get i j - (cov.scale c).get j i| =
      |cov.get i j - cov.get j i| * c := by
    intro i j
    rw [Mat.get_scale, Mat.get_scale, ← sub_mul, abs_mul, abs_of_pos hc]
  have hmax : max (cov.scale c).amax 1 = max cov.amax (1 / c) * c := by
    rw [Mat.amax_scale cov hc, max_mul_of_nonneg _ _ hc.le, one_div_mul_cancel hc.ne']
  have hsymm :
      (∀ i j, |(cov.scale c).get i j - (cov.scale c).get j i| ≤ 1e-9 * max (cov.scale c).amax 1) ↔
      ∀ i j, |cov.get i j - cov.get j i| ≤ 1e-9 * max cov.amax (1 / c) := by
    refine forall_congr' fun i => forall_congr' fun j => ?_
    rw [hentry, hmax, ← mul_assoc, mul_le_mul_iff_left₀ hc]
  rw [isAccepted_iff, hsymm, Mat.height_scale, exists_isLowerFactor_scale_iff hc]
  rfl

end Scale

/-- **How acceptance depends on the unit.** An accepted covariance is symmetric up to a tolerance
that is relative to its largest entry or to one, whichever is larger. So an accepted one stays
accepted in another unit exactly if it is symmetric up to the tolerance there, and acceptance does
not depend on the unit if the covariance is symmetric relative to its own size, or if it has an
entry of at least one in both units. -/
theorem isAccepted_scale {S : Mat ℝ} {c : ℝ} (hc : 0 < c) :
    (IsAccepted S → ∀ i j, |S.get i j - S.get j i| ≤ 1e-9 * max S.amax 1) ∧
    (IsAccepted S → (IsAccepted (S.scale c) ↔
      ∀ i j, |S.get i j - S.get j i| ≤ 1e-9 * max S.amax (1 / c))) ∧
    ((∀ i j, |S.get i j - S.get j i| ≤ 1e-9 * S.amax) → (IsAccepted (S.scale c) ↔ IsAccepted S)) ∧
    (1 ≤ S.amax → 1 ≤ (S.scale c).amax → (IsAccepted (S.scale c) ↔ IsAccepted S)) := by
  refine ⟨fun h => (isAccepted_iff.mp h).2.2.1, fun h => ?_, fun hsymm => ?_,
    fun hone hscaled => ?_⟩
  · obtain ⟨hpos, hcols, -, hfactor⟩ := isAccepted_iff.mp h
    rw [isAccepted_scale_iff hc]
    exact ⟨fun h => h.2.2.1, fun hsymm => ⟨hpos, hcols, hsymm, hfactor⟩⟩
  -- the tolerance is met whatever the floor is
  · have hany : ∀ t i j, |S.get i j - S.get j i| ≤ 1e-9 * max S.amax t := fun t i j =>
      (hsymm i j).trans (mul_le_mul_of_nonneg_left (le_max_left _ _) (by norm_num))
    rw [isAccepted_scale_iff hc, isAccepted_iff]
    simp only [hany, implies_true, true_and]
  -- the floor is below the largest entry in both units
  · have hinv : 1 / c ≤ S.amax := (div_le_iff₀ hc).mpr (hscaled.trans_eq (Mat.amax_scale S hc))
    rw [isAccepted_scale_iff hc, isAccepted_iff, max_eq_left hinv, max_eq_left hone]

theorem isAccepted_correlated : IsAccepted correlated := by
  refine isAccepted_iff.mpr ⟨two_pos, rfl, fun i j => ?_, _, isLowerFactor_correlated⟩
  rw [Mat.get_comm (n := 2) rfl rfl isSymm_correlated i j, sub_self, abs_zero]
  exact tolerance_nonneg _

/-- A covariance in a small unit that is far from symmetric. -/
noncomputable def lopsided : Mat ℝ := Mat.ofRows 2 [⟨[1e-10, 5e-11]⟩, ⟨[0, 1e-10]⟩]

theorem amax_lopsided_le : lopsided.amax ≤ 1e-10 := by
  refine (Mat.amax_le_iff (by norm_num)).mpr fun i j => ?_
  rcases i, j with ⟨_ | _ | i, _ | _ | j⟩ <;> simp [lopsided, Mat.get, Mat.ofRows, Vec.fit] <;>
    norm_num

theorem isLowerFactor_lopsided :
    Mat.IsLowerFactor 2 lopsided.get fun i j => if i = j then 1e-5 else 0 := by
  refine (Mat.isLowerFactor_diagonal (s := fun _ => 1e-5) fun _ _ => by norm_num).congr
    fun i hi j hj => ?_
  interval_cases i <;> interval_cases j <;> simp [lopsided, Mat.get, Mat.ofRows, Vec.fit] <;>
    norm_num

theorem abs_sub_lopsided_le (i j : ℕ) : |lopsided.get i j - lopsided.get j i| ≤ 2e-10 := by
  calc |lopsided.get i j - lopsided.get j i|
    _ ≤ |lopsided.get i j| + |lopsided.get j i| := abs_sub _ _
    _ ≤ 1e-10 + 1e-10 := add_le_add ((Mat.abs_get_le_amax _ i j).trans amax_lopsided_le)
        ((Mat.abs_get_le_amax _ j i).trans amax_lopsided_le)
    _ ≤ 2e-10 := by norm_num

theorem abs_sub_lopsided : |lopsided.get 0 1 - lopsided.get 1 0| = 5e-11 := by
  simp [lopsided, Mat.get, Mat.ofRows, Vec.fit]
  norm_num

theorem isAccepted_lopsided : IsAccepted lopsided := by
  refine isAccepted_iff.mpr ⟨two_pos, rfl, fun i j => ?_, _, isLowerFactor_lopsided⟩
  have hfloor : (1e-9 : ℝ) * 1 ≤ 1e-9 * max lopsided.amax 1 :=
    mul_le_mul_of_nonneg_left (le_max_right _ _) (by norm_num)
  linarith [abs_sub_lopsided_le i j]

/-- A symmetric covariance is accepted in every unit. One that is far from symmetric is accepted up
to the unit in which the floor of the tolerance is as small as its difference. -/
theorem isAccepted_scale_units :
    IsAccepted (correlated.scale 1e-6) ∧ IsAccepted (correlated.scale 2) ∧
    IsAccepted (lopsided.scale 5) ∧
      ¬ IsAccepted (lopsided.scale 100) := by
  refine ⟨?_, ?_, ?_, fun h => ?_⟩
  · obtain ⟨-, -, hinvariant, -⟩ := isAccepted_scale (S := correlated) (c := 1e-6) (by norm_num)
    refine (hinvariant fun i j => ?_).mpr isAccepted_correlated
    rw [Mat.get_comm (n := 2) rfl rfl isSymm_correlated i j, sub_self, abs_zero]
    exact mul_nonneg (by norm_num) (Mat.amax_nonneg _)
  · obtain ⟨-, -, -, hlarge⟩ := isAccepted_scale (S := correlated) (c := 2) two_pos
    have hentry : |correlated.get 0 0| = 4 := by norm_num [correlated, Mat.get, Mat.ofRows, Vec.fit]
    have hone : 1 ≤ correlated.amax := by linarith [Mat.abs_get_le_amax correlated 0 0]
    refine (hlarge hone ?_).mpr isAccepted_correlated
    rw [Mat.amax_scale _ two_pos]
    linarith
  · obtain ⟨-, hfloor, -⟩ := isAccepted_scale (S := lopsided) (c := 5) (by norm_num)
    refine (hfloor isAccepted_lopsided).mpr fun i j => ?_
    have hle : (1e-9 : ℝ) * (1 / 5) ≤ 1e-9 * max lopsided.amax (1 / 5) :=
      mul_le_mul_of_nonneg_left (le_max_right _ _) (by norm_num)
    linarith [abs_sub_lopsided_le i j]
  · obtain ⟨-, hfloor, -⟩ := isAccepted_scale (S := lopsided) (c := 100) (by norm_num)
    have hle := (hfloor isAccepted_lopsided).mp h 0 1
    have hmax : max lopsided.amax (1 / 100) ≤ 1 / 100 :=
      max_le (amax_lopsided_le.trans (by norm_num)) le_rfl
    rw [abs_sub_lopsided] at hle
    linarith

/-- A covariance in a small unit is accepted though an entry differs from the one opposite by half
the largest one; in a larger unit it is not. -/
theorem not_isAccepted_scale_lopsided :
    IsAccepted lopsided ∧ ¬ IsAccepted (lopsided.scale 1e10) ∧
      ¬ ∀ i j, |lopsided.get i j - lopsided.get j i| ≤ 1e-9 * lopsided.amax := by
  have hmax := amax_lopsided_le
  refine ⟨isAccepted_lopsided, fun h => ?_, fun h => ?_⟩
  · have hle := (isAccepted_scale_iff (by norm_num)).mp h |>.2.2.1 0 1
    rw [abs_sub_lopsided] at hle
    have : max lopsided.amax (1 / 1e10) ≤ 1e-10 := max_le hmax (by norm_num)
    linarith
  · have hle := h 0 1
    rw [abs_sub_lopsided] at hle
    linarith

end Smoothing.NoiseModel
