import Mathlib
import Smoothing.Proofs.BlockVector
import Smoothing.Proofs.Config.Update
import Smoothing.Proofs.Lie.Plane

/-!
# Updates and differences undo each other

Over the real numbers, on configurations with values in Euclidean space and in the groups of the
plane (`Config.IsPlanar`), an update whose angles are in `(-π, π]` is found again as the difference
of the configurations before and after it, with zeros for the variables it does not name
(`Config.get?_padded`), and the difference of two configurations of one shape leads from the first
to the second (`Config.update_difference`). Both follow variable by variable from the laws of the
groups: `x⁻¹ ∘ (x ∘ y) = y`, `x ∘ (x⁻¹ ∘ y) = y`, and the exponential and the logarithm undo each
other.
-/

namespace Smoothing

/-! ### Values -/

namespace Value

/-- A value of Euclidean space or of a group of the plane, whose rotation is stored as a number of
length one. -/
def IsPlanar : Value ℝ → Prop
  | rn _ => True
  | so2 x => x.normSq = 1
  | se2 x => x.rotation.normSq = 1
  | so3 _ => False
  | se3 _ => False

/-- The angle of an update of a value, where the update has one, is in `(-π, π]`. -/
def IsPrincipal (v : Vec ℝ) : Value ℝ → Prop
  | so2 _ => v.get 0 ∈ Set.Ioc (-Real.pi) Real.pi
  | se2 _ => v.get 2 ∈ Set.Ioc (-Real.pi) Real.pi
  | _ => True

theorem isPlanar_plus {x : Value ℝ} (hx : x.IsPlanar) (v : Vec ℝ) : (x.plus v).IsPlanar := by
  cases x with
  | rn x => trivial
  | so2 x =>
    have hx : x.normSq = 1 := hx
    change (x.compose (SO2.ofAngle _)).normSq = 1
    rw [SO2.normSq_compose, hx, SO2.normSq_ofAngle, one_mul]
  | se2 x =>
    have hx : x.rotation.normSq = 1 := hx
    change (x.rotation.compose (SO2.ofAngle _)).normSq = 1
    rw [SO2.normSq_compose, hx, SO2.normSq_ofAngle, one_mul]
  | so3 x => exact hx.elim
  | se3 x => exact hx.elim

theorem localCoords_plus {x : Value ℝ} {v : Vec ℝ} (hx : x.IsPlanar) (hs : v.size = x.dim)
    (hv : x.IsPrincipal v) : x.localCoords (x.plus v) = .ok v := by
  cases x with
  | rn x =>
    have hs : v.size = x.size := hs
    have hsum : (x + v).size = x.size := by rw [Vec.size_add, hs, min_self]
    change (if x.size ≠ (x + v).size then _ else Except.ok (-x + (x + v))) = _
    rw [hsum, if_neg (not_not.mpr rfl), Vec.neg_add_add hs.symm]
  | so2 x =>
    match v, hs with
    | ⟨[θ]⟩, _ =>
      have hθ : θ ∈ Set.Ioc (-Real.pi) Real.pi := hv
      change Except.ok (⟨[(x.inverse.compose (x.compose (SO2.ofAngle θ))).angle]⟩ : Vec ℝ) = _
      rw [SO2.inverse_compose_cancel hx, SO2.angle_ofAngle hθ]
  | se2 x =>
    match v, hs with
    | ⟨[a, b, θ]⟩, _ =>
      have hθ : θ ∈ Set.Ioc (-Real.pi) Real.pi := hv
      change Except.ok
        (SE2.log (x.inverse.compose (x.compose (SE2.Tangent.exp ⟨a, b, θ⟩)))).coords = _
      rw [SE2.inverse_compose_cancel hx, SE2.log_exp (τ := ⟨a, b, θ⟩) hθ]
      rfl
  | so3 x => exact hx.elim
  | se3 x => exact hx.elim

theorem plus_zero {x : Value ℝ} (hx : x.IsPlanar) : x.plus (Vec.zero x.dim) = x := by
  cases x with
  | rn x => exact congrArg rn x.add_zero_of_size
  | so2 x =>
    refine congrArg so2 (?_ : x.compose (SO2.ofAngle 0) = x)
    ext <;> simp [SO2.compose, SO2.ofAngle]
  | se2 x =>
    refine congrArg se2 (?_ : x.compose (SE2.Tangent.exp ⟨0, 0, 0⟩) = x)
    ext <;> simp [SE2.compose, SE2.transform, SE2.shift, SE2.Tangent.exp, SO2.rotate, SO2.compose,
      SO2.ofAngle]
  | so3 x => exact hx.elim
  | se3 x => exact hx.elim

theorem isPrincipal_zero (x : Value ℝ) : x.IsPrincipal (Vec.zero x.dim) := by
  have hzero : (0 : ℝ) ∈ Set.Ioc (-Real.pi) Real.pi := ⟨neg_lt_zero.mpr Real.pi_pos, Real.pi_pos.le⟩
  cases x with
  | so2 x => exact hzero
  | se2 x => exact hzero
  | _ => trivial

theorem exists_localCoords {x y : Value ℝ} (hx : x.IsPlanar) (hy : y.IsPlanar)
    (h : y.shape = x.shape) : ∃ v, x.localCoords y = .ok v ∧ v.size = x.dim ∧ x.plus v = y := by
  cases x with
  | rn x => cases y with
    | rn y =>
      have hs : y.size = x.size := congrArg Prod.snd h
      have hdiff : (-x + y).size = x.size := by rw [Vec.size_add, Vec.size_neg, hs, min_self]
      exact ⟨-x + y, if_neg (not_not.mpr hs.symm), hdiff, congrArg rn (Vec.add_neg_add hs.symm)⟩
    | so2 y => cases congrArg Prod.fst h
    | se2 y => cases congrArg Prod.fst h
    | so3 y => exact hy.elim
    | se3 y => exact hy.elim
  | so2 x => cases y with
    | so2 y =>
      have hx : x.normSq = 1 := hx
      have hy : y.normSq = 1 := hy
      refine ⟨⟨[(x.inverse.compose y).angle]⟩, rfl, rfl, congrArg so2 ?_⟩
      change x.compose (SO2.ofAngle (x.inverse.compose y).angle) = y
      rw [SO2.ofAngle_angle (by rw [SO2.normSq_compose, SO2.normSq_inverse, hx, hy, one_mul]),
        SO2.compose_inverse_cancel hx]
    | rn y => cases congrArg Prod.fst h
    | se2 y => cases congrArg Prod.fst h
    | so3 y => exact hy.elim
    | se3 y => exact hy.elim
  | se2 x => cases y with
    | se2 y =>
      have hx : x.rotation.normSq = 1 := hx
      have hy : y.rotation.normSq = 1 := hy
      have hunit : (x.inverse.compose y).rotation.normSq = 1 := by
        change (x.rotation.inverse.compose y.rotation).normSq = 1
        rw [SO2.normSq_compose, SO2.normSq_inverse, hx, hy, one_mul]
      refine ⟨(SE2.log (x.inverse.compose y)).coords, rfl, rfl, congrArg se2 ?_⟩
      change x.compose (SE2.log (x.inverse.compose y)).exp = y
      rw [SE2.exp_log hunit, SE2.compose_inverse_cancel hx]
    | rn y => cases congrArg Prod.fst h
    | so2 y => cases congrArg Prod.fst h
    | so3 y => exact hy.elim
    | se3 y => exact hy.elim
  | so3 x => exact hx.elim
  | se3 x => exact hx.elim

end Value

/-! ### Configurations -/

namespace Config

/-- All values are of Euclidean space or of a group of the plane, with rotations of length one. -/
def IsPlanar (c : Config ℝ) : Prop := ∀ k x, c.get? k = some x → x.IsPlanar

/-- The angles of an update are in `(-π, π]`. -/
def IsPrincipal (c : Config ℝ) (δ : BlockVector ℝ) : Prop :=
  ∀ k x v, c.get? k = some x → δ.get? k = some v → x.IsPrincipal v

/-- An update with a zero block added for every variable it does not name. -/
def padded {α : Type} [Scalar α] (c : Config α) (δ : BlockVector α) : BlockVector α :=
  c.map fun k x => δ.blockOr k x.dim

theorem isPlanar_empty : IsPlanar KeyMap.empty := fun _ _ h => by cases h

theorem IsPlanar.insert {c : Config ℝ} (hc : c.IsPlanar) {x : Value ℝ} (hx : x.IsPlanar) (k : Key) :
    IsPlanar (c.insert k x) := by
  intro j y hy
  rw [KeyMap.get?_insert] at hy
  split_ifs at hy with hj
  · exact Option.some.inj hy ▸ hx
  · exact hc j y hy

theorem get?_padded {c : Config ℝ} {δ : BlockVector ℝ} (h : c.Fits δ) (k : Key) :
    (c.padded δ).get? k = (δ.get? k).or ((c.get? k).map fun x => Vec.zero x.dim) := by
  rw [padded, KeyMap.get?_map]
  cases hv : δ.get? k with
  | none => simp [BlockVector.blockOr, hv]
  | some v =>
    obtain ⟨x, hx, -⟩ := h k v hv
    simp [BlockVector.blockOr, hv, hx]

theorem size_blockOr {c : Config ℝ} {δ : BlockVector ℝ} (h : c.Fits δ) {k : Key} {x : Value ℝ}
    (hx : c.get? k = some x) : (δ.blockOr k x.dim).size = x.dim := by
  unfold BlockVector.blockOr
  cases hv : δ.get? k with
  | none => exact Vec.size_zero _
  | some v =>
    obtain ⟨y, hy, hs⟩ := h k v hv
    rw [hx] at hy
    cases hy
    exact hs

theorem isPrincipal_blockOr {c : Config ℝ} {δ : BlockVector ℝ} (h : c.IsPrincipal δ) {k : Key}
    {x : Value ℝ} (hx : c.get? k = some x) : x.IsPrincipal (δ.blockOr k x.dim) := by
  unfold BlockVector.blockOr
  cases hv : δ.get? k with
  | none => exact x.isPrincipal_zero
  | some v => exact h k x v hx hv

theorem retract_of_fits {c : Config ℝ} {δ : BlockVector ℝ} (h : c.Fits δ) :
    c.retract δ = .ok (c.updated δ) :=
  retract_eq_ok_iff.mpr ⟨h, fun _ v _ => by simp [Vec.allFinite], rfl⟩

theorem updated_eq {c : Config ℝ} (hc : c.IsPlanar) (δ : BlockVector ℝ) :
    c.updated δ = c.map fun k x => x.plus (δ.blockOr k x.dim) := by
  refine KeyMap.ext fun k => ?_
  rw [get?_updated, KeyMap.get?_map]
  cases hx : c.get? k with
  | none => rfl
  | some x => cases hv : δ.get? k with
    | none => simp [BlockVector.blockOr, hv, Value.plus_zero (hc k x hx)]
    | some v => simp [BlockVector.blockOr, hv]

/-- **An update is the difference of the configurations before and after it, and the difference of
two configurations of one shape is an update that leads from the first to the second.** -/
theorem update_difference {c : Config ℝ} (hc : c.IsPlanar) :
    (∀ δ, c.Fits δ → c.IsPrincipal δ →
        ∃ d, c.retract δ = .ok d ∧ d.IsPlanar ∧ c.localCoords d = .ok (c.padded δ)) ∧
      ∀ d, d.IsPlanar → d.shape = c.shape → ∃ δ, c.localCoords d = .ok δ ∧ c.retract δ = .ok d := by
  constructor
  · intro δ hfits hangles
    have hget : ∀ k, (c.updated δ).get? k = (c.get? k).map fun x =>
        x.plus (δ.blockOr k x.dim) := fun k => by
      rw [updated_eq hc, KeyMap.get?_map]
    refine ⟨_, retract_of_fits hfits, fun k y hy => ?_, localCoords_of_forall fun k x hx => ?_⟩
    · obtain ⟨x, hx, rfl⟩ := Option.map_eq_some_iff.mp ((hget k).symm.trans hy)
      exact Value.isPlanar_plus (hc k x hx) _
    · exact localOne_of_localCoords (by rw [hget k, hx, Option.map_some])
        (Value.localCoords_plus (hc k x hx) (size_blockOr hfits hx)
        (isPrincipal_blockOr hangles hx))
  · intro d hd hshape
    have hvalue : ∀ k x, c.get? k = some x →
        ∃ v, localOne d k x = .ok v ∧ v.size = x.dim ∧
        d.get? k = some (x.plus v) := fun k x hx => by
      have hk : (d.get? k).map Value.shape = some x.shape := by
        rw [← get?_shape, hshape, get?_shape, hx, Option.map_some]
      obtain ⟨y, hy, hxy⟩ := Option.map_eq_some_iff.mp hk
      obtain ⟨v, hv, hs, rfl⟩ := Value.exists_localCoords (hc k x hx) (hd k y hy) hxy
      exact ⟨v, localOne_of_localCoords hy hv, hs, hy⟩
    choose! f hlocal hsize hplus using hvalue
    have hfits : c.Fits (c.map f) := fun k v hv => by
      rw [KeyMap.get?_map] at hv
      obtain ⟨x, hx, rfl⟩ := Option.map_eq_some_iff.mp hv
      exact ⟨x, hx, hsize k x hx⟩
    refine ⟨c.map f, localCoords_of_forall hlocal,
      (retract_of_fits hfits).trans (congrArg _ (KeyMap.ext fun k => ?_))⟩
    rw [get?_updated, KeyMap.get?_map]
    cases hx : c.get? k with
    | none =>
      have hk : (d.get? k).map Value.shape = none := by
        rw [← get?_shape, hshape, get?_shape, hx, Option.map_none]
      exact (Option.map_eq_none_iff.mp hk).symm
    | some x => exact (hplus k x hx).symm

end Config

/-! ### A point, a heading and a pose

The heading keeps its value. The pose turns around, which is the largest angle of an update. -/

namespace Poses

def point : Key := ⟨'p', 1⟩

def heading : Key := ⟨'p', 2⟩

def pose : Key := ⟨'p', 3⟩

noncomputable def start : Config ℝ :=
  ((KeyMap.empty.insert point (.rn ⟨[1, 0]⟩)).insert heading (.so2 ⟨0.6, 0.8⟩)).insert pose
    (.se2 ⟨1, 0, ⟨0, 1⟩⟩)

noncomputable def finish : Config ℝ :=
  ((KeyMap.empty.insert point (.rn ⟨[0, 1]⟩)).insert heading (.so2 ⟨-1, 0⟩)).insert pose
    (.se2 ⟨0, 1, ⟨0.8, -0.6⟩⟩)

noncomputable def turn : BlockVector ℝ :=
  (KeyMap.empty.insert point ⟨[-1, 1]⟩).insert pose ⟨[1, 1, Real.pi]⟩

theorem isPlanar_start : start.IsPlanar := by
  refine ((Config.isPlanar_empty.insert ?_ point).insert ?_ heading).insert ?_ pose
  · trivial
  · norm_num [Value.IsPlanar, SO2.normSq]
  · norm_num [Value.IsPlanar, SO2.normSq]

theorem isPlanar_finish : finish.IsPlanar := by
  refine ((Config.isPlanar_empty.insert ?_ point).insert ?_ heading).insert ?_ pose
  · trivial
  · norm_num [Value.IsPlanar, SO2.normSq]
  · norm_num [Value.IsPlanar, SO2.normSq]

theorem fits_turn : start.Fits turn := by
  intro k v hv
  rw [turn, KeyMap.get?_insert, KeyMap.get?_insert] at hv
  split_ifs at hv with hpose hpoint
  · cases hv
    exact ⟨.se2 ⟨1, 0, ⟨0, 1⟩⟩, hpose ▸ rfl, rfl⟩
  · cases hv
    exact ⟨.rn ⟨[1, 0]⟩, hpoint ▸ rfl, rfl⟩
  · cases hv

theorem isPrincipal_turn : start.IsPrincipal turn := by
  intro k x v hx hv
  rw [turn, KeyMap.get?_insert, KeyMap.get?_insert] at hv
  split_ifs at hv with hpose hpoint
  · cases hv
    cases (hpose ▸ hx : start.get? pose = some x)
    exact ⟨by simp [neg_lt_self_iff, Real.pi_pos], le_rfl⟩
  · cases (hpoint ▸ hx : start.get? point = some x)
    trivial
  · cases hv

theorem update_difference_start :
    (∃ d, start.retract turn = .ok d ∧ d.IsPlanar ∧ start.localCoords d = .ok (start.padded turn)) ∧
      ∃ δ, start.localCoords finish = .ok δ ∧ start.retract δ = .ok finish :=
  ⟨(Config.update_difference isPlanar_start).1 turn fits_turn isPrincipal_turn,
    (Config.update_difference isPlanar_start).2 finish isPlanar_finish rfl⟩

end Poses

end Smoothing
