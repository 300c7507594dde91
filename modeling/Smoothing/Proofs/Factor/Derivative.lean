import Mathlib
import Smoothing.Proofs.Factor
import Smoothing.Proofs.Lie.Derivative

/-!
# Derivatives of residuals

A factor's Jacobian is meant to be the derivative of its residual with respect to updates of its
variables (`Factor.HasExactJacobian`). For relative measurements of rotations and of rigid motions
of the plane it is (**`BetweenFactor.hasExactJacobian`**): the residual is the difference between
the measurement and what leads from one updated value to the other, and both blocks are what the
chain rule gives.
-/

namespace Smoothing

open LieStructure

/-! ### Derivatives of vectors -/

/-- The coordinate of a point at an index, zero past the end. -/
noncomputable def coordinate {n : ℕ} (j : ℕ) : (Fin n → ℝ) →L[ℝ] ℝ :=
  if h : j < n then ContinuousLinearMap.proj ⟨j, h⟩ else 0

/-- The matrix is the derivative at zero of a function of `n` coordinates: each of its rows is the
derivative of one coordinate of the value. -/
structure Mat.IsDerivative {n : ℕ} (m : Mat ℝ) (F : (Fin n → ℝ) → Vec ℝ) : Prop where
  cols_eq : m.cols = n
  size_eq : ∀ d, (F d).size = m.height
  hasFDerivAt : ∀ i < m.height, HasFDerivAt (fun d => (F d).get i) (m.combine coordinate i) 0

namespace Vec

/-- A point as a vector. -/
def ofPoint {α : Type} {n : ℕ} (d : Fin n → α) : Vec α := ⟨List.ofFn d⟩

theorem size_ofPoint {n : ℕ} (d : Fin n → ℝ) : (ofPoint d).size = n := List.length_ofFn

theorem get_ofPoint {n : ℕ} (d : Fin n → ℝ) (j : ℕ) : (ofPoint d).get j = coordinate j d := by
  unfold coordinate
  split_ifs with h
  · rw [get_eq_getElem (by simpa [ofPoint] using h)]
    simp [ofPoint]
  · rw [get_of_size_le (by simpa [size_ofPoint] using h)]
    rfl

theorem slice_self {v : Vec ℝ} {n : ℕ} (h : v.size = n) : v.slice 0 n = v := by
  subst h
  simp [slice, size]

theorem isUpdate_ofPoint {n : ℕ} :
    IsUpdate n (fun d : Fin n → ℝ => ofPoint d) 0 fun i => coordinate i where
  size_eq := size_ofPoint
  get_eq_zero i _ := (get_ofPoint 0 i).trans (map_zero _)
  hasFDerivAt i _ :=
    (coordinate i).hasFDerivAt.congr_of_eventuallyEq (.of_forall fun d => get_ofPoint d i)

theorem isUpdate_slice {m n start : ℕ} (h : start + n ≤ m) :
    IsUpdate n (fun d : Fin m → ℝ => (ofPoint d).slice start n) 0 fun i =>
    coordinate (start + i) := by
  have hget : ∀ (d : Fin m → ℝ), ∀ i < n, ((ofPoint d).slice start n).get i =
      coordinate (start + i) d :=
    fun d i hi => by rw [get_slice, if_pos hi, get_ofPoint]
  refine ⟨fun d => ?_, fun i hi => (hget 0 i hi).trans (map_zero _), fun i hi => ?_⟩
  · rw [size_slice, size_ofPoint]
    omega
  · exact (coordinate (start + i)).hasFDerivAt.congr_of_eventuallyEq
      (.of_forall fun d => hget d i hi)

end Vec

namespace Mat

variable {E : Type*} [NormedAddCommGroup E] [NormedSpace ℝ E] {a b : Mat ℝ} (φ : ℕ → E →L[ℝ] ℝ)

theorem combine_beside (h : b.height = a.height) (i : ℕ) :
    (a.beside b).combine φ i = a.combine φ i + b.combine (fun j => φ (a.cols + j)) i := by
  have hcols : (a.beside b).cols = a.cols + b.cols := rfl
  rw [combine, hcols, Finset.sum_range_add]
  congr 1
  · exact Finset.sum_congr rfl fun j hj => by rw [get_beside h, if_pos (Finset.mem_range.mp hj)]
  · exact Finset.sum_congr rfl fun j _ => by
      rw [get_beside h, if_neg (by omega), Nat.add_sub_cancel_left]

theorem combine_mul_identity {n : ℕ} (h : a.cols = n) :
    (a * identity n).combine φ = a.combine φ := by
  rw [combine_mul]
  funext i
  exact Finset.sum_congr rfl fun j hj => by rw [combine_identity φ (h ▸ Finset.mem_range.mp hj)]

theorem IsDerivative.unique {n : ℕ} {a b : Mat ℝ} {F : (Fin n → ℝ) → Vec ℝ} (ha : a.IsDerivative F)
    (hb : b.IsDerivative F) : a = b := by
  have hheight : a.height = b.height := (ha.size_eq 0).symm.trans (hb.size_eq 0)
  refine ext_get hheight (ha.cols_eq.trans hb.cols_eq.symm) fun i hi j hj => ?_
  have hforms := (ha.hasFDerivAt i hi).unique (hb.hasFDerivAt i (hheight ▸ hi))
  have hentry : ∀ m : Mat ℝ, m.cols = n →
      m.combine coordinate i (Pi.single ⟨j, ha.cols_eq ▸ hj⟩ 1) = m.get i j :=
    fun m hm => by
      have hj' : j < n := ha.cols_eq ▸ hj
      have hone : coordinate j (Pi.single (⟨j, hj'⟩ : Fin n) (1 : ℝ)) = 1 := by
        simp [coordinate, hj']
      rw [combine, sum_apply, Finset.sum_eq_single_of_mem j (Finset.mem_range.mpr (hm.symm ▸ hj'))
        fun k hk hkj => ?_]
      · rw [smul_apply, hone, smul_eq_mul, mul_one]
      · have hk' : k < n := hm ▸ Finset.mem_range.mp hk
        have hzero : coordinate k (Pi.single (⟨j, hj'⟩ : Fin n) (1 : ℝ)) = 0 := by
          simp [coordinate, hk', hkj]
        rw [smul_apply, hzero, smul_zero]
  rw [← hentry a ha.cols_eq, ← hentry b hb.cols_eq, hforms]

end Mat

/-! ### Factors -/

namespace Value

/-- Values updated by the coordinates of a vector, one after the other. -/
def retractAll {α : Type} [Scalar α] : List (Value α) → Vec α → Except GroupError (List (Value α))
  | [], _ => .ok []
  | x :: xs, δ => do
    let y ← x.retract (δ.slice 0 x.dim)
    let ys ← retractAll xs (δ.slice x.dim (δ.size - x.dim))
    return y :: ys

theorem retractAll_singleton {x : Value ℝ} {δ : Vec ℝ} (h : δ.size = x.dim) :
    retractAll [x] δ = .ok [x.plus δ] := by
  simp only [retractAll, Vec.slice_self h, retract_real h]
  rfl

theorem retractAll_pair {x y : Value ℝ} {δ : Vec ℝ} (h : δ.size = x.dim + y.dim) :
    retractAll [x, y] δ = .ok [x.plus (δ.slice 0 x.dim), y.plus (δ.slice x.dim y.dim)] := by
  have hrest : δ.size - x.dim = y.dim := by omega
  have hsize : (δ.slice x.dim y.dim).size = y.dim := by rw [Vec.size_slice, hrest, min_self]
  have hx : x.retract (δ.slice 0 x.dim) = .ok (x.plus (δ.slice 0 x.dim)) :=
    retract_real (by rw [Vec.size_slice]; omega)
  have hy : y.retract (δ.slice x.dim y.dim) = .ok (y.plus (δ.slice x.dim y.dim)) :=
    retract_real hsize
  simp only [retractAll, hrest, Vec.slice_self hsize, hx, hy]
  rfl

end Value

/-- The Jacobian that a factor reports at some values is the derivative, at zero, of its residual at
the values updated by `d`. -/
def Factor.HasExactJacobian (f : Factor ℝ) (xs : List (Value ℝ)) : Prop :=
  ∃ e jacobian, f.evaluate xs true = .ok ⟨e, some jacobian⟩ ∧
    ∃ F : (Fin (xs.map Value.dim).sum → ℝ) → Vec ℝ,
      (∀ d, ∃ ys, Value.retractAll xs (Vec.ofPoint d) = .ok ys ∧
      f.evaluate ys false = .ok ⟨F d, none⟩) ∧
        jacobian.IsDerivative F

namespace BetweenFactor

/-- **The Jacobian of a relative measurement by the chain rule is the derivative of its
residual.** -/
theorem isDerivative_residual {G T : Type} [LieStructure ℝ G T] {n : ℕ} {mem : G → Prop}
    {one x y z : G} {good : T → Prop}
    {MovesBy : ((Fin (n + n) → ℝ) → G) → (ℕ → (Fin (n + n) → ℝ) →L[ℝ] ℝ) → Prop}
    (hD : HasDerivatives n mem one good 0 MovesBy) (hx : mem x) (hy : mem y) (hz : mem z)
    (hgood : good (minus (between x y) z)) (hsize : ∀ τ : T, (coords G τ).size = n)
    (hdim : dim y = n) (hheight : (minusJacobian (between x y) z).height = n)
    (hcols : (minusJacobian (between x y) z).cols = n) (hbetween : (betweenJacobian x y).cols = n) :
      ∃ e jacobian, residual z x y true = ⟨e, some jacobian⟩ ∧
      jacobian.IsDerivative fun d : Fin (n + n) → ℝ =>
        (residual z (plus x (ofCoords G ((Vec.ofPoint d).slice 0 n)))
        (plus y (ofCoords G ((Vec.ofPoint d).slice n n))) false).value := by
  have hblock : (minusJacobian (between x y) z * jacobianIdentity y).height =
      (minusJacobian (between x y) z * betweenJacobian x y).height := by
    rw [Mat.height_mul, Mat.height_mul]
  have hwidth : (minusJacobian (between x y) z * betweenJacobian x y).cols = n := hbetween
  have hv : Vec.IsUpdate n (fun d : Fin (n + n) → ℝ => (Vec.ofPoint d).slice 0 n) 0 fun i =>
      coordinate i := by
    simpa using Vec.isUpdate_slice (by omega : 0 + n ≤ n + n)
  refine ⟨_, _, rfl, ⟨?_, fun d => ?_, fun i hi => ?_⟩⟩
  · change (betweenJacobian x y).cols + dim y = n + n
    rw [hbetween, hdim]
  · rw [Mat.height_beside hblock, Mat.height_mul, hheight]
    exact hsize _
  · rw [Mat.height_beside hblock, Mat.height_mul, hheight] at hi
    rw [Mat.combine_beside _ hblock, hwidth, jacobianIdentity, hdim,
      Mat.combine_mul_identity _ hcols]
    exact hD.minus_between_plus hx hy hz hgood hv (Vec.isUpdate_slice le_rfl) i hi

/-- **The Jacobian of a relative measurement is exact**: for rotations of the plane unless the
difference is half a turn, and for rigid motions of the plane where the difference turns by less
than half a turn but enough for the closed forms. -/
theorem hasExactJacobian (f : BetweenFactor ℝ) :
    (∀ z x y : SO2 ℝ, f.measured = .so2 z → z.normSq = 1 → x.normSq = 1 → y.normSq = 1 →
        minus (between x y) z ∈ Set.Ioo (-Real.pi) Real.pi →
        (Factor.between f).HasExactJacobian [.so2 x, .so2 y]) ∧
      ∀ z x y : SE2 ℝ, f.measured = .se2 z → z.rotation.normSq = 1 → x.rotation.normSq = 1 →
        y.rotation.normSq = 1 → (minus (between x y) z).θ ∈ Set.Ioo (-Real.pi) Real.pi →
        Scalar.epsilon < (minus (between x y) z).θ * (minus (between x y) z).θ →
        (Factor.between f).HasExactJacobian [.se2 x, .se2 y] := by
  obtain ⟨first, second, measured, noise⟩ := f
  constructor
  · rintro z x y rfl hz hx hy hangle
    obtain ⟨e, jacobian, hjacobian, hderiv⟩ :=
      isDerivative_residual (SO2.hasDerivatives _) hx hy hz hangle
      (fun _ => rfl) rfl rfl rfl rfl
    exact ⟨e, jacobian, congrArg Except.ok hjacobian, _,
      fun d => ⟨_, Value.retractAll_pair (Vec.size_ofPoint d), rfl⟩, hderiv⟩
  · rintro z x y rfl hz hx hy hangle hlarge
    have hcos := SE2.cos_ne_one hangle (SE2.ne_zero_of_le hlarge.le)
    have hinv : minusJacobian (between x y) z = _ := SE2.Tangent.rightJacobianInv_of_lt hlarge hcos
    obtain ⟨e, jacobian, hjacobian, hderiv⟩ := isDerivative_residual (SE2.hasDerivatives _) hx hy hz
      ⟨hangle, .inr hlarge⟩ (fun _ => rfl) rfl (by rw [hinv]; rfl) (by rw [hinv]; rfl) rfl
    exact ⟨e, jacobian, congrArg Except.ok hjacobian, _,
      fun d => ⟨_, Value.retractAll_pair (Vec.size_ofPoint d), rfl⟩, hderiv⟩

end BetweenFactor

namespace QuarterTurn

theorem turn_mem : turn.z ∈ Set.Ioo (-Real.pi) Real.pi := by
  have hpi := Real.pi_pos
  rw [turn_z_eq]
  constructor <;> linarith

/-- A rigid motion of the plane with a quarter turn. -/
noncomputable def turned : SE2 ℝ := ⟨1, 0.5, SO2.ofAngle turn.z⟩

/-- Two rotations are measured to be equal. -/
noncomputable def sameHeading : BetweenFactor ℝ :=
  ⟨⟨'x', 1⟩, ⟨'x', 2⟩, .so2 SO2.identity, ⟨.unit, Mat.identity 1⟩⟩

/-- Two poses are measured to be equal. -/
noncomputable def samePose : BetweenFactor ℝ :=
  ⟨⟨'x', 1⟩, ⟨'x', 2⟩, .se2 SE2.identity, ⟨.unit, Mat.identity 3⟩⟩

theorem hasExactJacobian_turn :
    (Factor.between sameHeading).HasExactJacobian [.so2 SO2.identity, .so2 (SO2.ofAngle turn.z)] ∧
      (Factor.between samePose).HasExactJacobian [.se2 SE2.identity, .se2 turned] := by
  have hrotation := SO2.isActingOn.toIsGroupOn
  have hmotion := SE2.isActingOn.toIsGroupOn
  have hunit : (SO2.ofAngle turn.z).normSq = 1 := SO2.normSq_ofAngle _
  have hangle : (SO2.ofAngle turn.z).angle = turn.z := SO2.angle_ofAngle ⟨turn_mem.1, turn_mem.2.le⟩
  have hdifference : minus (between SO2.identity (SO2.ofAngle turn.z)) SO2.identity = turn.z := by
    rw [hrotation.between_one hunit]
    exact (congrArg SO2.angle (hrotation.between_one hunit)).trans hangle
  have hturned : turned.rotation.normSq = 1 := hunit
  have hdifference' : (minus (between SE2.identity turned) SE2.identity).θ = turn.z := by
    rw [hmotion.between_one hturned]
    exact (congrArg SE2.angle (hmotion.between_one hturned)).trans hangle
  refine ⟨sameHeading.hasExactJacobian.1 _ _ _ rfl hrotation.one_mem hrotation.one_mem hunit ?_,
    samePose.hasExactJacobian.2 _ _ _ rfl hmotion.one_mem hmotion.one_mem hturned ?_ ?_⟩
  · rw [hdifference]
    exact turn_mem
  · rw [hdifference']
    exact turn_mem
  · rw [hdifference']
    exact epsilon_lt_one.trans one_lt_turn

end QuarterTurn

end Smoothing
