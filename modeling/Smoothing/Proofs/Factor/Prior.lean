import Mathlib
import Smoothing.Proofs.Factor.Difference
import Smoothing.Proofs.FactorGraph.Gauge

/-!
# Priors and relative measurements

A prior `p` on a variable `x` and the relative measurement `p` from a variable at the neutral
element to `x` have one residual, the difference `x ⊖ p`. Their Jacobians differ: the relative
measurement reports the inverse right Jacobian of the difference, the prior reports the identity.
The two are equal for vectors, for rotations of the plane and where the difference is zero, and
nowhere else, because the antisymmetric part of the inverse right Jacobian is half the difference.
There, and nowhere else, the identity is the derivative of the residual, except that the difference
of two rotations of the plane has no derivative at half a turn (**`PriorFactor.eq_between_iff`**).
Two steps ahead of a prior on a pose of the plane the Jacobian of the prior is not the derivative of
its residual (`TwoAhead.prior_ne_between`).
-/

namespace Smoothing

open LieStructure

namespace Value

/-- The neutral element of the group of a value. -/
def neutral {α : Type} [Scalar α] : Value α → Value α
  | rn x => rn (Vec.zero x.size)
  | so2 _ => so2 SO2.identity
  | se2 _ => se2 SE2.identity
  | so3 _ => so3 SO3.identity
  | se3 _ => se3 SE3.identity

end Value

/-- **A relative measurement from the neutral element** is the difference to the measured value,
with the Jacobian of the difference. -/
theorem BetweenFactor.residual_one {G T : Type} [LieStructure ℝ G T] {n : ℕ} {mem : G → Prop}
    {one p x : G} (hG : IsGroupOn mem one) (hx : mem x) (hdim : dim x = n)
    (hbetween : (betweenJacobian one x).cols = n) (hminus : (minusJacobian x p).cols = n) :
      ∃ jacobian, residual p one x true = ⟨coords G (minus x p), some jacobian⟩ ∧
      jacobian.columns n n = minusJacobian x p := by
  have hone := hG.between_one hx
  refine ⟨(minusJacobian x p * betweenJacobian one x).beside
    (minusJacobian x p * jacobianIdentity x), ?_, ?_⟩
  · unfold residual
    rw [hone]
    rfl
  · have hblock : (minusJacobian x p * jacobianIdentity x).height =
        (minusJacobian x p * betweenJacobian one x).height := by rw [Mat.height_mul, Mat.height_mul]
    have hwidth : (minusJacobian x p * betweenJacobian one x).cols = n := hbetween
    have hwidth' : (minusJacobian x p * jacobianIdentity x).cols = n := hdim
    have hright := Mat.columns_beside_right hblock
    rw [hwidth, hwidth'] at hright
    rw [hright, jacobianIdentity, hdim, Mat.mul_identity hminus]

/-! ### Residuals that are zero -/

theorem SO2.coords_eq_zero {θ : ℝ} : (⟨[θ]⟩ : Vec ℝ) = Vec.zero 1 ↔ θ = 0 := by
  simp [Vec.zero, List.replicate]

theorem SE2.Tangent.coords_eq_zero {τ : Tangent ℝ} : τ.coords = Vec.zero 3 ↔ τ = ⟨0, 0, 0⟩ := by
  simp [coords, Vec.zero, List.replicate, SE2.Tangent.ext_iff]

theorem Vec3.toList_eq_zero {v : Vec3 ℝ} : (⟨v.toList⟩ : Vec ℝ) = Vec.zero 3 ↔ v = Vec3.zero := by
  simp [toList, Vec.zero, List.replicate, Vec3.ext_iff, Vec3.zero]

theorem SE3.Tangent.coords_eq_zero {τ : Tangent ℝ} :
    τ.coords = Vec.zero 6 ↔ τ = ⟨Vec3.zero, Vec3.zero⟩ := by
  simp [coords, Vec3.toList, Vec.zero, List.replicate, SE3.Tangent.ext_iff, Vec3.ext_iff,
    Vec3.zero, and_assoc]

/-! ### Priors -/

namespace PriorFactor

theorem evaluate_rn (key : Key) (noise : NoiseModel ℝ) {p x : Vec ℝ} (h : x.size = p.size)
    (wantJacobian : Bool) : evaluate ⟨key, .rn p, noise⟩ [.rn x] wantJacobian =
      .ok ⟨minus x p, if wantJacobian then some (Mat.identity p.size) else none⟩ := by
  change Value.deviation key _ _ >>= _ = _
  simp only [Value.deviation, Value.localCoords, h, ne_eq, not_true_eq_false, if_false]
  rfl

theorem hasExactJacobian_iff {G T : Type} [LieStructure ℝ G T] {mem : G → Prop} {one p x : G}
    (hG : IsGroupOn mem one) (hp : mem p) (hx : mem x) {f : PriorFactor ℝ} {y : Value ℝ} {e : Vec ℝ}
    (hexp : ∀ d : Fin y.dim → ℝ, mem (exp (ofCoords G (Vec.ofPoint d))))
    (hvalue : f.evaluate [y] true = .ok ⟨e, some (Mat.identity y.dim)⟩)
    (hupdated : ∀ d : Fin y.dim → ℝ, f.evaluate [y.plus (Vec.ofPoint d)] false =
      .ok ⟨coords G (minus (plus x (ofCoords G (Vec.ofPoint d))) p), none⟩) :
    (Factor.prior f).HasExactJacobian [y] ↔ AddsUpdates G y.dim (between p x) := by
  have hretract : ∀ d : Fin y.dim → ℝ, Value.retractAll [y] (Vec.ofPoint d) =
      .ok [y.plus (Vec.ofPoint d)] := fun d =>
    Value.retractAll_singleton (Vec.size_ofPoint d)
  -- What leads to an updated value is what leads to the value, updated.
  have hmove : ∀ d : Fin y.dim → ℝ, minus (plus x (ofCoords G (Vec.ofPoint d))) p =
      log (plus (between p x) (ofCoords G (Vec.ofPoint d))) := fun d =>
    congrArg log (hG.compose_assoc (hG.inverse_mem hp) hx (hexp d)).symm
  simp only [hmove] at hupdated
  constructor
  · rintro ⟨e', jacobian, hjacobian, F, hF, hderiv⟩
    obtain rfl : Mat.identity y.dim = jacobian := by
      have hsame := hvalue.symm.trans hjacobian
      simp only [Except.ok.injEq, Residual.mk.injEq, Option.some.injEq] at hsame
      exact hsame.2
    obtain rfl : F = _ := funext fun d => by
      obtain ⟨ys, hys, hevaluate⟩ := hF d
      cases (hretract d).symm.trans hys
      have hsame := hevaluate.symm.trans (hupdated d)
      simp only [Except.ok.injEq, Residual.mk.injEq] at hsame
      exact hsame.1
    exact hderiv
  · exact fun h => ⟨e, _, hvalue, _, fun d => ⟨_, hretract d, hupdated d⟩, h⟩

/-- What holds of the Jacobian of the difference holds of the relative measurement, and what holds
of updates holds of the prior. -/
theorem exists_between {G T : Type} [LieStructure ℝ G T] {mem : G → Prop} {one p x : G}
    {agree exact : Prop} (first second : Key) (noise : NoiseModel ℝ) (m y : Value ℝ)
    (hG : IsGroupOn mem one) (hp : mem p) (hx : mem x)
    (hexp : ∀ d : Fin y.dim → ℝ, mem (exp (ofCoords G (Vec.ofPoint d))))
    (hvalue : evaluate ⟨second, m, noise⟩ [y] true = .ok ⟨coords G (minus x p),
      some (Mat.identity y.dim)⟩)
      (hupdated : ∀ d : Fin y.dim → ℝ, evaluate ⟨second, m, noise⟩ [y.plus (Vec.ofPoint d)] false =
        .ok ⟨coords G (minus (plus x (ofCoords G (Vec.ofPoint d))) p), none⟩)
    (hbetween : BetweenFactor.evaluate ⟨first, second, m, noise⟩ [m.neutral, y] true =
      .ok (BetweenFactor.residual p one x true))
    (hdim : dim x = y.dim) (hcols : (betweenJacobian one x).cols = y.dim)
    (hcols' : (minusJacobian x p).cols = y.dim) (hagree : minusJacobian x p = Mat.identity y.dim ↔
      agree) (hexact : AddsUpdates G y.dim (between p x) ↔ exact) :
    ∃ jacobian, evaluate ⟨second, m, noise⟩ [y] true = .ok ⟨coords G (minus x p),
      some (Mat.identity y.dim)⟩ ∧
      BetweenFactor.evaluate ⟨first, second, m, noise⟩ [m.neutral, y] true =
        .ok ⟨coords G (minus x p), some jacobian⟩ ∧
      (jacobian.columns y.dim y.dim = Mat.identity y.dim ↔ agree) ∧
      ((Factor.prior ⟨second, m, noise⟩).HasExactJacobian [y] ↔ exact) := by
  obtain ⟨jacobian, hresidual, hcolumns⟩ :=
    BetweenFactor.residual_one (p := p) hG hx hdim hcols hcols'
  exact ⟨jacobian, hvalue, hbetween.trans (congrArg Except.ok hresidual), hcolumns ▸ hagree,
    (hasExactJacobian_iff hG hp hx hexp hvalue hupdated).trans hexact⟩

theorem exists_between_rn (first second : Key) (noise : NoiseModel ℝ) {p x : Vec ℝ}
    (h : x.size = p.size) :
    ∃ jacobian, evaluate ⟨second, .rn p, noise⟩ [.rn x] true =
      .ok ⟨minus x p, some (Mat.identity p.size)⟩ ∧
      BetweenFactor.evaluate ⟨first, second, .rn p, noise⟩ [.rn (Vec.zero p.size), .rn x] true =
        .ok ⟨minus x p, some jacobian⟩ ∧
      jacobian.columns p.size p.size = Mat.identity p.size ∧
      (Factor.prior ⟨second, .rn p, noise⟩).HasExactJacobian [.rn x] := by
  have hsize : (-p + x).size = x.size := by rw [Vec.size_add, Vec.size_neg, h, min_self]
  have hupdated : ∀ d : Fin x.size → ℝ, (x + Vec.ofPoint d).size = p.size := fun d => by
    rw [Vec.size_add, Vec.size_ofPoint, min_self, h]
  have hbetween : BetweenFactor.evaluate ⟨first, second, .rn p, noise⟩ [.rn (Vec.zero p.size),
      .rn x] true = .ok (BetweenFactor.residual p (Vec.zero p.size) x true) := by
    unfold BetweenFactor.evaluate
    simp [h]
  have hcols : (betweenJacobian (Vec.zero p.size) x).cols = x.size := by
    change (-(-Vec.zero p.size + x)).size = x.size
    rw [Vec.size_neg, Vec.size_add, Vec.size_neg, Vec.size_zero, h, min_self]
  have hminus : minusJacobian x p = Mat.identity x.size := congrArg Mat.identity hsize
  have hadds := Vec.addsUpdates (-p + x)
  have hvalue := evaluate_rn second noise h true
  rw [hsize] at hadds
  rw [← h] at hvalue ⊢
  obtain ⟨jacobian, hprior, hrelative, hagree, hexact⟩ :=
    exists_between first second noise (.rn p) (.rn x)
    (Vec.isGroupOn p.size) rfl h (fun d => (Vec.size_ofPoint d).trans h) hvalue
    (fun d => evaluate_rn second noise (hupdated d) false) hbetween rfl hcols (by rw [hminus]; rfl)
    (iff_of_true hminus trivial) (iff_of_true hadds trivial)
  exact ⟨jacobian, hprior, h ▸ hrelative, hagree.mpr trivial, hexact.mpr trivial⟩

/-- **Priors and relative measurements.** A prior has the residual of a relative measurement from
the neutral element. The two Jacobians agree for vectors, for rotations of the plane, and where the
residual is zero, and nowhere else; and the Jacobian of the prior is the derivative of its residual
in the same cases, unless the residual is half a turn. -/
theorem eq_between_iff (first second : Key) (noise : NoiseModel ℝ) {p x : Value ℝ}
    (h : p.SameGroup x) :
    ∃ e jacobian, evaluate ⟨second, p, noise⟩ [x] true = .ok ⟨e, some (Mat.identity p.dim)⟩ ∧
      BetweenFactor.evaluate ⟨first, second, p, noise⟩ [p.neutral, x] true =
        .ok ⟨e, some jacobian⟩ ∧
      (jacobian.columns p.dim p.dim = Mat.identity p.dim ↔
        p.manifold = .rn ∨ p.manifold = .so2 ∨ e = Vec.zero p.dim) ∧
      ((Factor.prior ⟨second, p, noise⟩).HasExactJacobian [x] ↔
        p.manifold = .rn ∨ p.manifold = .so2 ∧ e ≠ ⟨[Real.pi]⟩ ∨ e = Vec.zero p.dim) := by
  cases h with
  | @rn p x h =>
    obtain ⟨jacobian, hprior, hbetween, hagree, hexact⟩ := exists_between_rn first second noise h
    exact ⟨_, jacobian, hprior, hbetween, iff_of_true hagree (.inl rfl),
      iff_of_true hexact (.inl rfl)⟩
  | @so2 p x hp hx =>
    have hmem := SO2.isActingOn.toIsGroupOn.between_mem hp hx
    obtain ⟨jacobian, hprior, hbetween, hagree, hexact⟩ :=
      exists_between first second noise (.so2 p) (.so2 x)
      SO2.isActingOn.toIsGroupOn hp hx (fun _ => SO2.isActingOn.exp_mem _) rfl (fun _ => rfl)
        rfl rfl rfl rfl
      (iff_of_true rfl trivial) (SO2.addsUpdates_iff hmem)
    refine ⟨_, jacobian, hprior, hbetween, hagree.trans (iff_of_true trivial (.inr (.inl rfl))),
      hexact.trans ?_⟩
    constructor
    · exact fun hne => .inr (.inl ⟨rfl, fun hpi => hne (List.cons.inj (congrArg Vec.coords hpi)).1⟩)
    · rintro (hrn | ⟨-, hne⟩ | hzero) hpi
      · cases hrn
      · exact hne (congrArg (fun θ => (⟨[θ]⟩ : Vec ℝ)) hpi)
      · exact Real.pi_ne_zero (hpi.symm.trans (SO2.coords_eq_zero.mp hzero))
  | @se2 p x hp hx =>
    have hmem := SE2.isActingOn.toIsGroupOn.between_mem hp hx
    obtain ⟨jacobian, hprior, hbetween, hagree, hexact⟩ :=
      exists_between first second noise (.se2 p) (.se2 x)
      SE2.isActingOn.toIsGroupOn hp hx (fun _ => SE2.isActingOn.exp_mem _) rfl
        (fun _ => rfl) rfl rfl rfl
      (SE2.Tangent.cols_rightJacobianInv _) SE2.Tangent.rightJacobianInv_eq_identity
        (SE2.addsUpdates_iff hmem)
    refine ⟨_, jacobian, hprior, hbetween, ?_⟩
    simp only [Value.manifold, reduceCtorEq, false_or, false_and]
    exact ⟨hagree.trans SE2.Tangent.coords_eq_zero.symm,
      hexact.trans SE2.Tangent.coords_eq_zero.symm⟩
  | @so3 p x hp hx =>
    have hmem := SO3.isActingOn.toIsGroupOn.between_mem hp hx
    obtain ⟨jacobian, hprior, hbetween, hagree, hexact⟩ :=
      exists_between first second noise (.so3 p) (.so3 x)
      SO3.isActingOn.toIsGroupOn hp hx (fun _ => SO3.isActingOn.exp_mem _) rfl (fun _ => rfl)
        rfl rfl rfl rfl
      SO3.rightJacobianInv_eq_identity (SO3.addsUpdates_iff hmem)
    refine ⟨_, jacobian, hprior, hbetween, ?_⟩
    simp only [Value.manifold, reduceCtorEq, false_or, false_and]
    exact ⟨hagree.trans Vec3.toList_eq_zero.symm, hexact.trans Vec3.toList_eq_zero.symm⟩
  | @se3 p x hp hx =>
    have hmem := SE3.isActingOn.toIsGroupOn.between_mem hp hx
    obtain ⟨jacobian, hprior, hbetween, hagree, hexact⟩ :=
      exists_between first second noise (.se3 p) (.se3 x)
      SE3.isActingOn.toIsGroupOn hp hx (fun _ => SE3.isActingOn.exp_mem _) rfl (fun _ => rfl)
        rfl rfl rfl rfl
      SE3.rightJacobianInv_eq_identity (SE3.addsUpdates_iff hmem)
    refine ⟨_, jacobian, hprior, hbetween, ?_⟩
    simp only [Value.manifold, reduceCtorEq, false_or, false_and]
    exact ⟨hagree.trans SE3.Tangent.coords_eq_zero.symm,
      hexact.trans SE3.Tangent.coords_eq_zero.symm⟩

end PriorFactor

namespace QuarterTurn

theorem eq_between_iff_turn :
    ∃ e jacobian, PriorFactor.evaluate ⟨⟨'x', 1⟩, .se3 ⟨turn, start⟩, ⟨.unit, Mat.identity 6⟩⟩
          [.se3 ⟨turn, stored⟩] true = .ok ⟨e, some (Mat.identity 6)⟩ ∧
      BetweenFactor.evaluate ⟨⟨'x', 0⟩, ⟨'x', 1⟩, .se3 ⟨turn, start⟩, ⟨.unit, Mat.identity 6⟩⟩
          [.se3 SE3.identity, .se3 ⟨turn, stored⟩] true = .ok ⟨e, some jacobian⟩ ∧
      (jacobian.columns 6 6 = Mat.identity 6 ↔
        (Value.se3 (⟨turn, start⟩ : SE3 ℝ)).manifold = .rn ∨
        (Value.se3 (⟨turn, start⟩ : SE3 ℝ)).manifold = .so2 ∨
          e = Vec.zero 6) ∧
      ((Factor.prior ⟨⟨'x', 1⟩, .se3 ⟨turn, start⟩, ⟨.unit, Mat.identity 6⟩⟩).HasExactJacobian
          [.se3 ⟨turn, stored⟩] ↔
        (Value.se3 (⟨turn, start⟩ : SE3 ℝ)).manifold = .rn ∨
          (Value.se3 (⟨turn, start⟩ : SE3 ℝ)).manifold = .so2 ∧ e ≠ ⟨[Real.pi]⟩ ∨ e = Vec.zero 6) :=
  PriorFactor.eq_between_iff ⟨'x', 0⟩ ⟨'x', 1⟩ ⟨.unit, Mat.identity 6⟩
    (.se3 normSq_start normSq_stored)

end QuarterTurn

/-! ### Two steps ahead

A pose two steps ahead of the prior, with its heading: the residual is `(2, 0, 0)`, and a turn of
the pose moves it to the side by half a turn per step. -/

namespace TwoAhead

noncomputable def ahead : SE2 ℝ := ⟨Scalar.two, 0, SO2.identity⟩

noncomputable def origin : PriorFactor ℝ := ⟨⟨'x', 1⟩, .se2 SE2.identity, ⟨.unit, Mat.identity 3⟩⟩

noncomputable def fromOrigin : BetweenFactor ℝ :=
  ⟨⟨'x', 0⟩, ⟨'x', 1⟩, .se2 SE2.identity, ⟨.unit, Mat.identity 3⟩⟩

theorem minus_ahead : minus ahead SE2.identity = ⟨2, 0, 0⟩ := by
  have hangle : (SO2.identity : SO2 ℝ).angle = 0 := by
    have hidentity : SO2.identity = SO2.ofAngle (0 : ℝ) := by simp [SO2.identity, SO2.ofAngle]
    have hpi := Real.pi_pos
    rw [hidentity, SO2.angle_ofAngle (by constructor <;> linarith)]
  have hmotion : minus ahead SE2.identity = ahead.log :=
    congrArg SE2.log (SE2.isActingOn.toIsGroupOn.between_one (g := ahead) SO2.isActingOn.one_mem)
  have hahead : ahead.angle = 0 := hangle
  rw [hmotion, SE2.log_eq, hahead, SE2.inverseCoefficients_zero]
  simp [ahead, Scalar.two_real]

theorem prior_ne_between :
    origin.evaluate [.se2 ahead] true = .ok ⟨⟨[2, 0, 0]⟩, some (Mat.identity 3)⟩ ∧
      (∃ jacobian, fromOrigin.evaluate [.se2 SE2.identity, .se2 ahead] true =
        .ok ⟨⟨[2, 0, 0]⟩, some jacobian⟩ ∧
        jacobian.columns 3 3 = SE2.Tangent.jacobian 1 0 0 0 1 (-1) ∧
        jacobian.columns 3 3 ≠ Mat.identity 3) ∧
      ¬(Factor.prior origin).HasExactJacobian [.se2 ahead] := by
  have hinv : minusJacobian ahead SE2.identity = SE2.Tangent.jacobian 1 0 0 0 1 (-1) := by
    change (minus ahead SE2.identity).rightJacobianInv = _
    rw [minus_ahead, SE2.Tangent.rightJacobianInv_of_le (by simpa using Scalar.epsilon_pos.le)]
    norm_num
  obtain ⟨jacobian, hresidual, hcolumns⟩ := BetweenFactor.residual_one (n := 3) (p := SE2.identity)
    SE2.isActingOn.toIsGroupOn (x := ahead) SO2.isActingOn.one_mem rfl rfl
    (SE2.Tangent.cols_rightJacobianInv _)
  have hcoords : coords (SE2 ℝ) (minus ahead SE2.identity) = ⟨[2, 0, 0]⟩ := by
    rw [minus_ahead]
    rfl
  rw [hcoords] at hresidual
  refine ⟨?_, ⟨jacobian, congrArg Except.ok hresidual, hcolumns.trans hinv, ?_⟩, ?_⟩
  · change Except.ok (⟨coords (SE2 ℝ) (minus ahead SE2.identity), _⟩ : Residual ℝ) = _
    rw [hcoords]
    rfl
  · rw [hcolumns, hinv, ← SE2.Tangent.jacobian_identity, Ne, SE2.Tangent.jacobian_inj]
    norm_num
  · have hgroup := SE2.isActingOn.toIsGroupOn
    have hunit : ahead.rotation.normSq = 1 := SO2.isActingOn.one_mem
    have hlog : (between SE2.identity ahead).log = ⟨2, 0, 0⟩ := minus_ahead
    rw [PriorFactor.hasExactJacobian_iff hgroup hgroup.one_mem hunit
      (fun _ => SE2.isActingOn.exp_mem _) rfl fun _ => rfl]
    change ¬AddsUpdates (SE2 ℝ) 3 (between SE2.identity ahead)
    rw [SE2.addsUpdates_iff (hgroup.between_mem hgroup.one_mem hunit), hlog]
    norm_num

end TwoAhead

end Smoothing
