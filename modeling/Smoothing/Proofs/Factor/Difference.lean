import Mathlib
import Smoothing.Proofs.Factor.Derivative

/-!
# Where updates add to differences

The logarithm of an element `g` adds updates if the identity is the derivative of `log (g ∘ exp d)`
at `d = 0` (`AddsUpdates`). For vectors it does. For rotations of the plane it does unless the
logarithm is half a turn, where it jumps. In the other groups it does if and only if it is zero
(**`SE2.addsUpdates_iff`**, **`SO3.addsUpdates_iff`**, **`SE3.addsUpdates_iff`**), for all elements
and on all branches of the logarithm.

Each group has its own reason. A shift of a rigid motion of the plane is rotated before the
logarithm applies `V⁻¹` to it, and `V⁻¹` is the opposite rotation at the angle zero only. For
rotations of space the logarithm is along the vector part of the quaternion, so their vector product
stays zero, and its derivative leaves no other logarithm than zero (`SO3.log_eq_zero_of_movesBy`).
For rigid motions of space the rotation is the identity by the same argument, and then the logarithm
of the shift `t` moves by `δρ - δθ × t / 2` (`SE3.movesBy_log`).
-/

namespace Smoothing

open LieStructure

variable {E : Type*} [NormedAddCommGroup E] [NormedSpace ℝ E] {p : E}

/-- To first order an update of `g` adds to the logarithm of `g`. -/
def AddsUpdates (G : Type) {T : Type} [LieStructure ℝ G T] (n : ℕ) (g : G) : Prop :=
  (Mat.identity n).IsDerivative fun d : Fin n → ℝ =>
    coords G (log (plus g (ofCoords G (Vec.ofPoint d))))

section Laws

variable {G T : Type} [LieStructure ℝ G T] {n : ℕ} {g : G}

theorem addsUpdates_iff
    (hsize : ∀ d : Fin n → ℝ, (coords G (log (plus g (ofCoords G (Vec.ofPoint d))))).size = n) :
    AddsUpdates G n g ↔ ∀ i < n, HasFDerivAt
      (fun d : Fin n → ℝ => (coords G (log (plus g (ofCoords G (Vec.ofPoint d))))).get i)
      (coordinate i) 0 := by
  have hheight : (Mat.identity n : Mat ℝ).height = n := Mat.height_identity n
  constructor
  · intro h i hi
    have hderiv := h.hasFDerivAt i (hheight.symm ▸ hi)
    rwa [Mat.combine_identity _ hi] at hderiv
  · intro h
    refine ⟨rfl, fun d => (hsize d).trans hheight.symm, fun i hi => ?_⟩
    rw [hheight] at hi
    rw [Mat.combine_identity _ hi]
    exact h i hi

/-- Where the logarithm moves by its Jacobian, it adds updates if and only if the Jacobian is the
identity. -/
theorem HasDerivatives.addsUpdates_iff {mem : G → Prop} {one : G} {good : T → Prop}
    {MovesBy : ((Fin n → ℝ) → G) → (ℕ → (Fin n → ℝ) →L[ℝ] ℝ) → Prop}
    (hD : HasDerivatives n mem one good 0 MovesBy) (hg : mem g) (hgood : good (LieStructure.log g))
    (hsize : ∀ d : Fin n → ℝ,
      (coords G (LieStructure.log (LieStructure.plus g (ofCoords G (Vec.ofPoint d))))).size = n)
    (hheight : (logJacobian g).height = n) (hcols : (logJacobian g).cols = n) :
    AddsUpdates G n g ↔ logJacobian g = Mat.identity n := by
  have hstart := hD.plus_eq hg Vec.isUpdate_ofPoint
  have hderiv : (logJacobian g).IsDerivative
      fun d : Fin n → ℝ =>
      coords G (LieStructure.log (LieStructure.plus g (ofCoords G (Vec.ofPoint d)))) := by
    refine ⟨hcols, fun d => (hsize d).trans hheight.symm, fun i hi => ?_⟩
    have hmove := hD.log (hstart.symm ▸ hg) (hstart.symm ▸ hgood) (hD.plus hg Vec.isUpdate_ofPoint)
      i (hheight ▸ hi)
    rwa [hstart] at hmove
  constructor
  · exact fun h => hderiv.unique h
  · intro h
    rw [AddsUpdates, ← h]
    exact hderiv

end Laws

/-! ### Vectors and rotations of the plane -/

theorem Vec.addsUpdates (x : Vec ℝ) : AddsUpdates (Vec ℝ) x.size x := by
  refine ((Vec.hasDerivatives x.size _).addsUpdates_iff rfl trivial (fun d => ?_) ?_ rfl).mpr rfl
  · change (x + ofPoint d).size = x.size
    rw [size_add, size_ofPoint, min_self]
  · exact Mat.height_identity _

namespace SO2

/-- A rotation by half a turn has the angle `π`, and rotations by a little more have angles near
`-π`. -/
theorem angle_compose_ofAngle {r : SO2 ℝ} (hr : r.normSq = 1) (hpi : r.angle = Real.pi) {t : ℝ}
    (ht : t ∈ Set.Ioo 0 Real.pi) : (r.compose (ofAngle t)).angle = t - Real.pi := by
  have hsum : r.compose (ofAngle t) = ofAngle (t - Real.pi) := by
    rw [← ofAngle_angle hr, hpi]
    ext <;> simp [compose, ofAngle, Real.cos_sub_pi, Real.sin_sub_pi]
  rw [hsum, angle_ofAngle ⟨by linarith [ht.1], by linarith [ht.2, Real.pi_pos]⟩]

theorem addsUpdates_iff {r : SO2 ℝ} (hr : r.normSq = 1) :
    AddsUpdates (SO2 ℝ) 1 r ↔ r.angle ≠ Real.pi := by
  have hmem := r.angle_mem
  constructor
  · intro h hpi
    have hpos := Real.pi_pos
    have hderiv := (Smoothing.addsUpdates_iff fun _ => rfl).mp h 0 one_pos
    have hline : ContinuousAt (fun t : ℝ => fun _ : Fin 1 => t) 0 :=
      continuousAt_pi.mpr fun _ => continuousAt_id
    have hcont : ContinuousAt (fun t : ℝ => (r.compose (ofAngle t)).angle) 0 :=
      ContinuousAt.comp (f := fun t : ℝ => fun _ : Fin 1 => t) hderiv.continuousAt hline
    have hzero : r.compose (ofAngle 0) = r := by
      ext <;> simp [compose, ofAngle]
    have habove : Filter.Tendsto (fun t : ℝ => (r.compose (ofAngle t)).angle)
        (nhdsWithin 0 (Set.Ioi 0)) (nhds (0 - Real.pi)) := by
      refine
        ((continuousAt_id.sub continuousAt_const).tendsto.mono_left nhdsWithin_le_nhds).congr' ?_
      filter_upwards [Ioo_mem_nhdsGT hpos] with t ht
      exact (angle_compose_ofAngle hr hpi ht).symm
    have hvalue := tendsto_nhds_unique (hcont.tendsto.mono_left nhdsWithin_le_nhds) habove
    rw [hzero, hpi] at hvalue
    linarith
  · intro hne
    exact ((SO2.hasDerivatives _).addsUpdates_iff hr ⟨hmem.1, lt_of_le_of_ne hmem.2 hne⟩
      (fun _ => rfl) rfl rfl).mpr rfl

end SO2

/-! ### Rigid motions of the plane -/

namespace SE2

/-- Only without a turn does `V⁻¹` turn back by the angle. Otherwise `V` would be the rotation, but
for the series the squares of its entries do not add up to one, and the closed form needs
`sin θ = θ cos θ` and `1 - cos θ = θ sin θ`. -/
theorem eq_zero_of_inverseCoefficients {θ : ℝ} (hθ : θ ∈ Set.Ioc (-Real.pi) Real.pi)
    (h : inverseCoefficients θ = (Real.cos θ, Real.sin θ)) : θ = 0 := by
  have hcircle := Real.sin_sq_add_cos_sq θ
  have hne := coefficients_ne_zero hθ
  obtain ⟨hu, hv⟩ := Prod.mk.inj h
  rw [div_eq_iff hne] at hu hv
  have hsum : (coefficients θ).1 * (coefficients θ).1 + (coefficients θ).2 * (coefficients θ).2 =
      1 := by
    refine mul_left_cancel₀ hne ?_
    generalize hn :
      (coefficients θ).1 * (coefficients θ).1 + (coefficients θ).2 * (coefficients θ).2 = n at *
    rw [hu, hv] at hn
    linear_combination hn - n ^ 2 * hcircle
  rw [hsum, mul_one] at hu hv
  by_contra h0
  rcases lt_or_ge (θ * θ) Scalar.epsilon with hsmall | hlarge
  · have hone : θ * θ < 1 := hsmall.trans (by rw [Scalar.epsilon_real]; norm_num)
    have hpos : 0 < θ * θ := mul_self_pos.mpr h0
    rw [coefficients_of_lt hsmall] at hsum
    nlinarith
  · rw [coefficients_of_le hlarge] at hu hv
    have hsin : Real.sin θ = θ * Real.cos θ := by
      rw [← hu]
      field_simp
    have hcos : 1 - Real.cos θ = θ * Real.sin θ := by
      rw [← hv]
      field_simp
    have hone : Real.cos θ = 1 := by
      linear_combination hcircle - Real.sin θ * hsin + Real.cos θ * hcos
    rw [hone, sub_self, hsin, hone, mul_one] at hcos
    exact h0 (mul_self_eq_zero.mp hcos.symm)

/-- A shift by `t` in the first direction is rotated before the logarithm applies `V⁻¹`. -/
theorem log_plus_shift (g : SE2 ℝ) (t : ℝ) : (plus g (⟨t, 0, 0⟩ : Tangent ℝ)).log =
    ⟨(inverseCoefficients g.angle).1 * (g.rotation.re * t + g.x) +
        (inverseCoefficients g.angle).2 * (g.rotation.im * t + g.y),
      (inverseCoefficients g.angle).1 * (g.rotation.im * t + g.y) -
        (inverseCoefficients g.angle).2 * (g.rotation.re * t + g.x), g.angle⟩ := by
  have hrotation : (plus g (⟨t, 0, 0⟩ : Tangent ℝ)).rotation = g.rotation := by
    change g.rotation.compose (SO2.ofAngle 0) = g.rotation
    ext <;> simp [SO2.compose, SO2.ofAngle]
  have hangle : (plus g (⟨t, 0, 0⟩ : Tangent ℝ)).angle = g.angle := congrArg SO2.angle hrotation
  rw [log_eq, hangle]
  simp [plus, LieStructure.compose, LieStructure.exp, SE2.compose, transform, shift, SO2.rotate,
    Tangent.exp, coefficients_zero]

theorem rotated_of_addsUpdates {g : SE2 ℝ} (h : AddsUpdates (SE2 ℝ) 3 g) :
    (inverseCoefficients g.angle).1 * g.rotation.re +
        (inverseCoefficients g.angle).2 * g.rotation.im = 1 ∧
      (inverseCoefficients g.angle).1 * g.rotation.im -
        (inverseCoefficients g.angle).2 * g.rotation.re = 0 := by
  have hderiv := (Smoothing.addsUpdates_iff fun _ => rfl).mp h
  have hline : ∀ t : ℝ,
      plus g (ofCoords (SE2 ℝ) (Vec.ofPoint (0 + t • (Pi.single 0 1 : Fin 3 → ℝ)))) =
      plus g (⟨t, 0, 0⟩ : Tangent ℝ) := fun t => by
    congr 1
    simp [ofCoords, Vec.get_ofPoint, coordinate]
  have hx := (hderiv 0 (by norm_num)).hasLineDerivAt (Pi.single 0 1)
  have hy := (hderiv 1 (by norm_num)).hasLineDerivAt (Pi.single 0 1)
  simp only [HasLineDerivAt, hline] at hx hy
  have hre := ((hasDerivAt_id (0 : ℝ)).const_mul g.rotation.re).add_const g.x
  have him := ((hasDerivAt_id (0 : ℝ)).const_mul g.rotation.im).add_const g.y
  constructor
  · have hsum :=
      (hre.const_mul (inverseCoefficients g.angle).1).add
        (him.const_mul (inverseCoefficients g.angle).2)
    have hslope :=
      hx.unique (hsum.congr_of_eventuallyEq
        (.of_forall fun t => congrArg Tangent.x (log_plus_shift g t)))
    simpa [coordinate] using hslope.symm
  · have hdiff :=
      (him.const_mul (inverseCoefficients g.angle).1).sub
        (hre.const_mul (inverseCoefficients g.angle).2)
    have hslope :=
      hy.unique (hdiff.congr_of_eventuallyEq
        (.of_forall fun t => congrArg Tangent.y (log_plus_shift g t)))
    simpa [coordinate] using hslope.symm

/-- **The logarithm adds updates only where it is zero.** -/
theorem addsUpdates_iff {g : SE2 ℝ} (hg : g.rotation.normSq = 1) :
    AddsUpdates (SE2 ℝ) 3 g ↔ g.log = ⟨0, 0, 0⟩ := by
  -- Without a turn the logarithm has the inverse of the right Jacobian as its derivative.
  have hstraight : g.angle = 0 → (AddsUpdates (SE2 ℝ) 3 g ↔ g.log = ⟨0, 0, 0⟩) := fun h0 => by
    have hpi := Real.pi_pos
    have hlog : (LieStructure.log g).θ = 0 := h0
    rw [(SE2.hasDerivatives _).addsUpdates_iff hg ⟨by rw [hlog]; constructor <;> linarith,
      .inl hlog⟩ (fun _ => rfl)
      (Tangent.height_rightJacobianInv _) (Tangent.cols_rightJacobianInv _)]
    exact Tangent.rightJacobianInv_eq_identity
  refine ⟨fun h => (hstraight ?_).mp h, fun h => (hstraight (congrArg Tangent.θ h)).mpr h⟩
  obtain ⟨hre, him⟩ := rotated_of_addsUpdates h
  have hsq : g.rotation.re * g.rotation.re + g.rotation.im * g.rotation.im = 1 := hg
  have hcos : Real.cos g.angle = g.rotation.re := Scalar.cos_atan2 hg
  have hsin : Real.sin g.angle = g.rotation.im := Scalar.sin_atan2 hg
  refine eq_zero_of_inverseCoefficients g.rotation.angle_mem (Prod.ext ?_ ?_)
  · rw [hcos]
    linear_combination g.rotation.re * hre + g.rotation.im * him -
      (inverseCoefficients g.angle).1 * hsq
  · rw [hsin]
    linear_combination g.rotation.im * hre - g.rotation.re * him -
      (inverseCoefficients g.angle).2 * hsq

end SE2

/-! ### Moving vectors -/

namespace Vec3

/-- At the point `p` the vectors `v` move by `w δ` if the point moves by `δ`. -/
structure MovesBy (v : E → Vec3 ℝ) (p : E) (w : E → Vec3 ℝ) : Prop where
  x : ∃ φ : E →L[ℝ] ℝ, HasFDerivAt (fun d => (v d).x) φ p ∧ ∀ δ, φ δ = (w δ).x
  y : ∃ φ : E →L[ℝ] ℝ, HasFDerivAt (fun d => (v d).y) φ p ∧ ∀ δ, φ δ = (w δ).y
  z : ∃ φ : E →L[ℝ] ℝ, HasFDerivAt (fun d => (v d).z) φ p ∧ ∀ δ, φ δ = (w δ).z

namespace MovesBy

variable {u v : E → Vec3 ℝ} {a b : E → Vec3 ℝ}

theorem const (v : Vec3 ℝ) : MovesBy (fun _ => v) p fun _ => zero :=
  ⟨⟨0, hasFDerivAt_const _ p, fun _ => rfl⟩, ⟨0, hasFDerivAt_const _ p, fun _ => rfl⟩,
    ⟨0, hasFDerivAt_const _ p, fun _ => rfl⟩⟩

theorem add (hu : MovesBy u p a) (hv : MovesBy v p b) :
    MovesBy (fun d => u d + v d) p fun δ => a δ + b δ := by
  obtain ⟨⟨φx, hux, hax⟩, ⟨φy, huy, hay⟩, ⟨φz, huz, haz⟩⟩ := hu
  obtain ⟨⟨ψx, hvx, hbx⟩, ⟨ψy, hvy, hby⟩, ⟨ψz, hvz, hbz⟩⟩ := hv
  exact ⟨⟨_, hux.add hvx, fun δ => congrArg₂ (· + ·) (hax δ) (hbx δ)⟩,
    ⟨_, huy.add hvy, fun δ => congrArg₂ (· + ·) (hay δ) (hby δ)⟩,
    ⟨_, huz.add hvz, fun δ => congrArg₂ (· + ·) (haz δ) (hbz δ)⟩⟩

theorem scale (hu : MovesBy u p a) (c : ℝ) :
    MovesBy (fun d => (u d).scale c) p fun δ => (a δ).scale c := by
  obtain ⟨⟨φx, hux, hax⟩, ⟨φy, huy, hay⟩, ⟨φz, huz, haz⟩⟩ := hu
  refine ⟨⟨_, hux.mul_const c, fun δ => ?_⟩, ⟨_, huy.mul_const c, fun δ => ?_⟩,
    ⟨_, huz.mul_const c, fun δ => ?_⟩⟩ <;>
  · simp [hax, hay, haz, scale_eq, mul_comm]

theorem cross (hu : MovesBy u p a) (hv : MovesBy v p b) :
    MovesBy (fun d => (u d).cross (v d)) p fun δ => (a δ).cross (v p) + (u p).cross (b δ) := by
  obtain ⟨⟨φx, hux, hax⟩, ⟨φy, huy, hay⟩, ⟨φz, huz, haz⟩⟩ := hu
  obtain ⟨⟨ψx, hvx, hbx⟩, ⟨ψy, hvy, hby⟩, ⟨ψz, hvz, hbz⟩⟩ := hv
  refine ⟨⟨_, (huy.mul hvz).sub (huz.mul hvy), fun δ => ?_⟩,
    ⟨_, (huz.mul hvx).sub (hux.mul hvz), fun δ => ?_⟩,
    ⟨_, (hux.mul hvy).sub (huy.mul hvx), fun δ => ?_⟩⟩ <;>
  · simp only [sub_apply, add_apply, smul_apply, smul_eq_mul, hax, hay, haz, hbx, hby, hbz,
      Vec3.cross, add_eq]
    ring

theorem congr (hv : MovesBy v p b) (h : ∀ᶠ d in nhds p, u d = v d) : MovesBy u p b := by
  obtain ⟨⟨ψx, hvx, hbx⟩, ⟨ψy, hvy, hby⟩, ⟨ψz, hvz, hbz⟩⟩ := hv
  exact ⟨⟨ψx, hvx.congr_of_eventuallyEq (h.mono fun d hd => congrArg Vec3.x hd), hbx⟩,
    ⟨ψy, hvy.congr_of_eventuallyEq (h.mono fun d hd => congrArg Vec3.y hd), hby⟩,
    ⟨ψz, hvz.congr_of_eventuallyEq (h.mono fun d hd => congrArg Vec3.z hd), hbz⟩⟩

theorem congr_velocity (hv : MovesBy v p b) (h : ∀ δ, a δ = b δ) : MovesBy v p a :=
  (funext h : a = b) ▸ hv

theorem unique (ha : MovesBy v p a) (hb : MovesBy v p b) (δ : E) : a δ = b δ := by
  obtain ⟨⟨φx, hux, hax⟩, ⟨φy, huy, hay⟩, ⟨φz, huz, haz⟩⟩ := ha
  obtain ⟨⟨ψx, hvx, hbx⟩, ⟨ψy, hvy, hby⟩, ⟨ψz, hvz, hbz⟩⟩ := hb
  refine Vec3.ext ?_ ?_ ?_
  · rw [← hax, ← hbx, hux.unique hvx]
  · rw [← hay, ← hby, huy.unique hvy]
  · rw [← haz, ← hbz, huz.unique hvz]

theorem eventually_normSq_le (hv : MovesBy v p b) (h0 : v p = zero) :
    ∀ᶠ d in nhds p, (v d).normSq ≤ Scalar.epsilon := by
  obtain ⟨⟨ψx, hvx, -⟩, ⟨ψy, hvy, -⟩, ⟨ψz, hvz, -⟩⟩ := hv
  have hcont : ContinuousAt (fun d => (v d).normSq) p :=
    ((hvx.continuousAt.mul hvx.continuousAt).add (hvy.continuousAt.mul hvy.continuousAt)).add
      (hvz.continuousAt.mul hvz.continuousAt)
  have hstart : (v p).normSq < Scalar.epsilon := by rw [h0, normSq_zero]; exact Scalar.epsilon_pos
  exact (hcont.eventually_lt continuousAt_const hstart).mono fun d hd => hd.le

end MovesBy

/-- Three coordinates of a point, from `j` on. -/
noncomputable def ofPoint {n : ℕ} (j : ℕ) (d : Fin n → ℝ) : Vec3 ℝ :=
  ⟨coordinate j d, coordinate (j + 1) d, coordinate (j + 2) d⟩

theorem movesBy_ofPoint {n : ℕ} (j : ℕ) :
    MovesBy (ofPoint j : (Fin n → ℝ) → Vec3 ℝ) 0 (ofPoint j) :=
  ⟨⟨_, (coordinate j).hasFDerivAt, fun _ => rfl⟩,
    ⟨_, (coordinate (j + 1)).hasFDerivAt, fun _ => rfl⟩,
    ⟨_, (coordinate (j + 2)).hasFDerivAt, fun _ => rfl⟩⟩

theorem ofPoint_zero {n : ℕ} (j : ℕ) : ofPoint j (0 : Fin n → ℝ) = zero := by simp [ofPoint, zero]

theorem exists_ofPoint {n : ℕ} {j : ℕ} (h : j + 3 ≤ n) (u : Vec3 ℝ) :
    ∃ d : Fin n → ℝ, ofPoint j d = u := by
  refine ⟨fun i => if i = j then u.x else if i = j + 1 then u.y else u.z, ?_⟩
  ext
  · simp [ofPoint, coordinate, show j < n by omega]
  · simp [ofPoint, coordinate, show j + 1 < n by omega]
  · simp [ofPoint, coordinate, show j + 2 < n by omega]

theorem movesBy_ofPoint_iff {n : ℕ} {v : (Fin n → ℝ) → Vec3 ℝ} {j : ℕ} : MovesBy v 0 (ofPoint j) ↔
    HasFDerivAt (fun d => (v d).x) (coordinate j) 0 ∧
    HasFDerivAt (fun d => (v d).y) (coordinate (j + 1)) 0 ∧
      HasFDerivAt (fun d => (v d).z) (coordinate (j + 2)) 0 := by
  constructor
  · rintro ⟨⟨ψx, hvx, hbx⟩, ⟨ψy, hvy, hby⟩, ⟨ψz, hvz, hbz⟩⟩
    obtain rfl : ψx = coordinate j := ContinuousLinearMap.ext hbx
    obtain rfl : ψy = coordinate (j + 1) := ContinuousLinearMap.ext hby
    obtain rfl : ψz = coordinate (j + 2) := ContinuousLinearMap.ext hbz
    exact ⟨hvx, hvy, hvz⟩
  · rintro ⟨hx, hy, hz⟩
    exact ⟨⟨_, hx, fun _ => rfl⟩, ⟨_, hy, fun _ => rfl⟩, ⟨_, hz, fun _ => rfl⟩⟩

end Vec3

/-! ### Rotations of space -/

namespace SO3

theorem exists_log (q : SO3 ℝ) : ∃ k, log q = q.vector.scale k := by
  rcases le_or_gt q.vector.normSq Scalar.epsilon with h | h
  · exact ⟨_, log_of_le h⟩
  · exact ⟨_, log_of_lt h⟩

theorem exists_log_ne_zero {q : SO3 ℝ} (hq : q.normSq = 1) :
    ∃ k, k ≠ 0 ∧ log q = q.vector.scale k := by
  rcases le_or_gt q.vector.normSq Scalar.epsilon with h | h
  · have hw : q.w ≠ 0 := by
      intro hw
      rw [normSq_eq, hw, mul_zero, zero_add] at hq
      rw [hq, Scalar.epsilon_real] at h
      norm_num at h
    exact ⟨_, div_ne_zero two_ne_zero hw, log_of_le h⟩
  · have hpos := Vec3.norm_pos h
    have hangle : q.halfAngle ≠ 0 := by
      intro h0
      have hsin := sin_halfAngle hq
      rw [h0, Real.sin_zero] at hsin
      split_ifs at hsin <;> linarith
    exact ⟨_, div_ne_zero (mul_ne_zero two_ne_zero hangle) hpos.ne', log_of_lt h⟩

theorem log_eq_zero_iff {q : SO3 ℝ} (hq : q.normSq = 1) :
    log q = Vec3.zero ↔ q.vector = Vec3.zero := by
  obtain ⟨k, hk, hlog⟩ := exists_log_ne_zero hq
  rw [hlog]
  simp only [Vec3.scale_eq, Vec3.zero, Vec3.ext_iff, mul_eq_zero, hk, or_false]

theorem exp_zero : exp (Vec3.zero : Vec3 ℝ) = identity := by
  rw [exp_of_le (Vec3.normSq_zero ▸ Scalar.epsilon_pos.le), Vec3.normSq_zero]
  ext <;> simp [ofParts, Vec3.scale_eq, Vec3.zero, identity]

theorem vector_compose_ofParts (q : SO3 ℝ) (w : ℝ) (u : Vec3 ℝ) :
    (q.compose (ofParts w u)).vector = q.vector.scale w + u.scale q.w + q.vector.cross u := by
  ext <;>
  · simp only [vector, compose, ofParts, Vec3.add_eq, Vec3.scale_eq, Vec3.cross]
    ring

/-- The direction of the vector part after a short update `φ`. -/
noncomputable def updatedAxis (q : SO3 ℝ) (φ : Vec3 ℝ) : Vec3 ℝ :=
  q.vector + q.vector + (φ.scale q.w + q.vector.cross φ)

theorem updatedAxis_cross_log (q : SO3 ℝ) {φ : Vec3 ℝ} (h : φ.normSq ≤ Scalar.epsilon) :
    (q.updatedAxis φ).cross (log (q.compose (exp φ))) = Vec3.zero := by
  obtain ⟨k, hlog⟩ := exists_log (q.compose (exp φ))
  have hvector : (q.compose (exp φ)).vector =
      (q.updatedAxis φ).scale (1 / (2 * Real.sqrt (1 + φ.normSq / 4))) := by
    rw [exp_of_le h, vector_compose_ofParts, updatedAxis]
    ext <;>
    · simp only [Vec3.add_eq, Vec3.scale_eq, Vec3.cross]
      ring
  rw [hlog, hvector]
  ext <;>
  · simp only [Vec3.cross, Vec3.scale_eq, Vec3.zero]
    ring

/-- **If the logarithm moves by the update, it is zero.** It stays along the axis, so the vector
product with the axis stays zero. The derivative of that product along an update is the square of
the vector product of axis and update, times the factor of the logarithm. -/
theorem log_eq_zero_of_movesBy {q : SO3 ℝ} {φ w : E → Vec3 ℝ} (hφ : Vec3.MovesBy φ p w)
    (h0 : φ p = Vec3.zero) (hlog : Vec3.MovesBy (fun d => log (q.compose (exp (φ d)))) p w)
    (hw : ∀ u, ∃ δ, w δ = u) : log q = Vec3.zero := by
  obtain ⟨k, hk⟩ := exists_log q
  have hstart : log (q.compose (exp (φ p))) = q.vector.scale k := by
    rw [h0, exp_zero, compose_identity, hk]
  have haxis : Vec3.MovesBy (fun d => q.updatedAxis (φ d)) p _ :=
    ((Vec3.MovesBy.const q.vector).add (Vec3.MovesBy.const q.vector)).add
      ((hφ.scale q.w).add ((Vec3.MovesBy.const q.vector).cross hφ))
  have hzero := (Vec3.MovesBy.const Vec3.zero).congr
    ((hφ.eventually_normSq_le h0).mono fun d hd => q.updatedAxis_cross_log hd)
  have hmove : ∀ u : Vec3 ℝ, (u.scale q.w + q.vector.cross u).cross (q.vector.scale k) +
      (q.vector + q.vector).cross u = Vec3.zero := fun u => by
    obtain ⟨δ, rfl⟩ := hw u
    have hδ := (haxis.cross hlog).unique hzero δ
    rw [hstart, h0] at hδ
    rw [← hδ]
    ext <;> simp [updatedAxis, Vec3.add_eq, Vec3.cross, Vec3.scale_eq, Vec3.zero]
  have hx : k * (q.vector.y * q.vector.y + q.vector.z * q.vector.z) = 0 := by
    have hfirst := congrArg Vec3.x (hmove ⟨1, 0, 0⟩)
    simp only [Vec3.add_eq, Vec3.cross, Vec3.scale_eq, Vec3.zero] at hfirst
    linear_combination hfirst
  have hy : k * (q.vector.x * q.vector.x + q.vector.z * q.vector.z) = 0 := by
    have hsecond := congrArg Vec3.y (hmove ⟨0, 1, 0⟩)
    simp only [Vec3.add_eq, Vec3.cross, Vec3.scale_eq, Vec3.zero] at hsecond
    linear_combination hsecond
  rw [hk]
  rcases eq_or_ne k 0 with rfl | hne
  · simp [Vec3.scale_eq, Vec3.zero]
  · obtain ⟨hvy, hvz⟩ := mul_self_add_mul_self_eq_zero.mp ((mul_eq_zero.mp hx).resolve_left hne)
    obtain ⟨hvx, -⟩ := mul_self_add_mul_self_eq_zero.mp ((mul_eq_zero.mp hy).resolve_left hne)
    simp [Vec3.scale_eq, Vec3.zero, hvx, hvy, hvz]

theorem log_opposite_of_w_ne_zero {q : SO3 ℝ} (hw : q.w ≠ 0) : log q.opposite = log q := by
  rcases le_or_gt q.vector.normSq Scalar.epsilon with h | h
  · have hsq : q.opposite.vector.normSq ≤ Scalar.epsilon := by
      rwa [vector_opposite, Vec3.normSq_neg]
    have hneg : q.opposite.w = -q.w := rfl
    rw [log_of_le hsq, log_of_le h, hneg, vector_opposite, div_neg, Vec3.neg_scale_neg]
  · exact log_opposite h hw

/-- A rotation that changes nothing has two quaternions, and a short update of either is the
logarithm. -/
theorem log_compose_exp {q : SO3 ℝ} (hq : q.normSq = 1) (hvector : q.vector = Vec3.zero)
    {φ : Vec3 ℝ} (h : φ.normSq ≤ Scalar.epsilon) : log (q.compose (exp φ)) = φ := by
  obtain ⟨hi, hj, hk⟩ := Vec3.mk.inj hvector
  have hsq : q.w * q.w = 1 := by rw [← hq, normSq_eq, hvector, Vec3.normSq_zero, add_zero]
  rcases mul_self_eq_one_iff.mp hsq with hw | hw
  · have hone : q = identity := SO3.ext hw hi hj hk
    rw [hone, identity_compose, log_exp_of_le h]
  · have hopposite : q.compose (exp φ) = (exp φ).opposite := by
      ext <;> simp [compose, opposite, hw, hi, hj, hk]
    have hne : (exp φ).w ≠ 0 := by
      have hpos : 0 < 1 + φ.normSq / 4 := by linarith [φ.normSq_nonneg]
      rw [exp_of_le h]
      exact (one_div_pos.mpr (Real.sqrt_pos.mpr hpos)).ne'
    rw [hopposite, log_opposite_of_w_ne_zero hne, log_exp_of_le h]

theorem ofCoords_ofPoint (d : Fin 3 → ℝ) : ofCoords (SO3 ℝ) (Vec.ofPoint d) = Vec3.ofPoint 0 d := by
  simp [ofCoords, Vec.get_ofPoint, Vec3.ofPoint]

theorem addsUpdates_iff_movesBy (q : SO3 ℝ) : AddsUpdates (SO3 ℝ) 3 q ↔
    Vec3.MovesBy (fun d : Fin 3 → ℝ => log (q.compose (exp (Vec3.ofPoint 0 d))))
    0 (Vec3.ofPoint 0) := by
  rw [Smoothing.addsUpdates_iff fun _ => rfl, Vec3.movesBy_ofPoint_iff]
  simp only [ofCoords_ofPoint]
  constructor
  · intro h
    exact ⟨h 0 (by norm_num), h 1 (by norm_num), h 2 (by norm_num)⟩
  · rintro ⟨hx, hy, hz⟩ i hi
    interval_cases i
    · exact hx
    · exact hy
    · exact hz

/-- **The logarithm adds updates only where it is zero.** -/
theorem addsUpdates_iff {q : SO3 ℝ} (hq : q.normSq = 1) :
    AddsUpdates (SO3 ℝ) 3 q ↔ log q = Vec3.zero := by
  have hupdate := Vec3.movesBy_ofPoint (n := 3) 0
  have hstart := Vec3.ofPoint_zero (n := 3) 0
  rw [addsUpdates_iff_movesBy]
  constructor
  · exact fun h => log_eq_zero_of_movesBy hupdate hstart h (Vec3.exists_ofPoint le_rfl)
  · intro h
    have hvector := (log_eq_zero_iff hq).mp h
    exact hupdate.congr ((hupdate.eventually_normSq_le hstart).mono fun d =>
      log_compose_exp hq hvector)

theorem rotate_of_vector_eq_zero {q : SO3 ℝ} (h : q.vector = Vec3.zero) (v : Vec3 ℝ) :
    q.rotate v = v := by
  ext <;> simp [rotate, h, Vec3.cross, Vec3.scale_eq, Vec3.add_eq, Vec3.zero]

theorem movesBy_series {θ v a b : E → Vec3 ℝ} (hθ : Vec3.MovesBy θ p a) (h0 : θ p = Vec3.zero)
    (hv : Vec3.MovesBy v p b) (c e : ℝ) : Vec3.MovesBy (fun d => series (θ d) c e (v d)) p
      fun δ => b δ + ((a δ).cross (v p)).scale c := by
  have hmove : Vec3.MovesBy (fun d => series (θ d) c e (v d)) p _ :=
    (hv.add ((hθ.cross hv).scale c)).add ((hθ.cross (hθ.cross hv)).scale e)
  refine hmove.congr_velocity fun δ => ?_
  rw [h0]
  ext <;> simp [Vec3.cross, Vec3.scale_eq, Vec3.add_eq, Vec3.zero]

end SO3

/-! ### Rigid motions of space -/

namespace SE3

/-- Without a rotation the logarithm moves by the update and by half of the vector product with the
shift. -/
theorem movesBy_log {g : SE3 ℝ} (hg : g.rotation.normSq = 1)
    (hvector : g.rotation.vector = Vec3.zero) {ρ θ a b : E → Vec3 ℝ} (hρ : Vec3.MovesBy ρ p a)
    (hρ0 : ρ p = Vec3.zero) (hθ : Vec3.MovesBy θ p b) (hθ0 : θ p = Vec3.zero) :
      Vec3.MovesBy (fun d => (plus g (⟨ρ d, θ d⟩ : Tangent ℝ)).log.ρ) p
      fun δ => a δ + ((b δ).cross g.shift).scale (-(1 / 2)) := by
  have hseries : ∀ᶠ d in nhds p,
      (plus g (⟨ρ d, θ d⟩ : Tangent ℝ)).log.ρ = SO3.series (θ d) (-(1 / 2)) (1 / 12)
      (SO3.series (θ d) (1 / 2) (1 / 6) (ρ d) + g.shift) := (hθ.eventually_normSq_le hθ0).mono
          fun d hd => by
    change (SO3.leftJacobianInv (SO3.log (g.rotation.compose (SO3.exp (θ d))))).mulVec
      (g.rotation.rotate ((SO3.leftJacobian (θ d)).mulVec (ρ d)) + g.shift) = _
    rw [SO3.log_compose_exp hg hvector hd, SO3.rotate_of_vector_eq_zero hvector,
      SO3.mulVec_leftJacobian_of_le hd, SO3.mulVec_leftJacobianInv_of_le hd]
  have hshift := (SO3.movesBy_series hθ hθ0 hρ (1 / 2) (1 / 6)).add (Vec3.MovesBy.const g.shift)
  refine ((SO3.movesBy_series hθ hθ0 hshift (-(1 / 2)) (1 / 12)).congr hseries).congr_velocity
    fun δ => ?_
  rw [hρ0, hθ0]
  ext <;> simp [SO3.series, Vec3.cross, Vec3.scale_eq, Vec3.add_eq, Vec3.zero]

theorem ofCoords_ofPoint (d : Fin 6 → ℝ) :
    ofCoords (SE3 ℝ) (Vec.ofPoint d) = ⟨Vec3.ofPoint 0 d, Vec3.ofPoint 3 d⟩ := by
  simp [ofCoords, Vec.get_ofPoint, Vec3.ofPoint]

theorem log_eq_zero_iff {g : SE3 ℝ} : g.log = ⟨Vec3.zero, Vec3.zero⟩ ↔
    g.shift = Vec3.zero ∧ g.rotation.log = Vec3.zero := by
  have hinv : SO3.leftJacobianInv (Vec3.zero : Vec3 ℝ) = Mat3.identity :=
    SO3.leftJacobianInv_eq_identity.mpr rfl
  rw [SE3.Tangent.ext_iff]
  change (SO3.leftJacobianInv g.rotation.log).mulVec g.shift = _ ∧ g.rotation.log = _ ↔ _
  refine and_congr_left fun h => ?_
  rw [h, hinv, Mat3.mulVec_identity]

theorem addsUpdates_iff_movesBy (g : SE3 ℝ) : AddsUpdates (SE3 ℝ) 6 g ↔
    Vec3.MovesBy (fun d : Fin 6 → ℝ =>
    (plus g (⟨Vec3.ofPoint 0 d, Vec3.ofPoint 3 d⟩ : Tangent ℝ)).log.ρ) 0
        (Vec3.ofPoint 0) ∧
      Vec3.MovesBy (fun d : Fin 6 → ℝ => (g.rotation.compose (SO3.exp (Vec3.ofPoint 3 d))).log)
          0 (Vec3.ofPoint 3) := by
  rw [Smoothing.addsUpdates_iff fun _ => rfl, Vec3.movesBy_ofPoint_iff, Vec3.movesBy_ofPoint_iff]
  simp only [ofCoords_ofPoint]
  constructor
  · intro h
    exact ⟨⟨h 0 (by norm_num), h 1 (by norm_num), h 2 (by norm_num)⟩,
      h 3 (by norm_num), h 4 (by norm_num), h 5 (by norm_num)⟩
  · rintro ⟨⟨hx, hy, hz⟩, hx', hy', hz'⟩ i hi
    interval_cases i
    · exact hx
    · exact hy
    · exact hz
    · exact hx'
    · exact hy'
    · exact hz'

/-- **The logarithm adds updates only where it is zero.** -/
theorem addsUpdates_iff {g : SE3 ℝ} (hg : g.rotation.normSq = 1) :
    AddsUpdates (SE3 ℝ) 6 g ↔ g.log = ⟨Vec3.zero, Vec3.zero⟩ := by
  have hρ := Vec3.movesBy_ofPoint (n := 6) 0
  have hθ := Vec3.movesBy_ofPoint (n := 6) 3
  have hρ0 := Vec3.ofPoint_zero (n := 6) 0
  have hθ0 := Vec3.ofPoint_zero (n := 6) 3
  rw [addsUpdates_iff_movesBy, log_eq_zero_iff]
  constructor
  · rintro ⟨hshift, hrotation⟩
    have hlog := SO3.log_eq_zero_of_movesBy hθ hθ0 hrotation (Vec3.exists_ofPoint le_rfl)
    have hvector := (SO3.log_eq_zero_iff hg).mp hlog
    refine ⟨Vec3.eq_zero_of_cross fun u => ?_, hlog⟩
    obtain ⟨δ, rfl⟩ := Vec3.exists_ofPoint (n := 6) (j := 3) le_rfl u
    have hmove := hshift.unique (movesBy_log hg hvector hρ hρ0 hθ hθ0) δ
    simp only [Vec3.add_eq, Vec3.scale_eq, Vec3.ext_iff, left_eq_add, mul_eq_zero, neg_eq_zero,
      one_div, inv_eq_zero, OfNat.ofNat_ne_zero, or_false] at hmove
    exact Vec3.ext hmove.1 hmove.2.1 hmove.2.2
  · rintro ⟨hshift, hlog⟩
    have hvector := (SO3.log_eq_zero_iff hg).mp hlog
    refine ⟨?_,
      hθ.congr ((hθ.eventually_normSq_le hθ0).mono fun d => SO3.log_compose_exp hg hvector)⟩
    refine (movesBy_log hg hvector hρ hρ0 hθ hθ0).congr_velocity fun δ => ?_
    rw [hshift]
    ext <;> simp [Vec3.cross, Vec3.scale_eq, Vec3.add_eq, Vec3.zero]

end SE3

end Smoothing
