import Mathlib
import Smoothing.Factor.Build
import Smoothing.Proofs.Factor.Affine
import Smoothing.Proofs.Scalar.Order

/-!
# Hard constraints at values that are not finite

A hard constraint has the error zero where its largest deviation is within the tolerance, and an
infinite one elsewhere; where it is linearized, its deviation is also asked to be finite. Apart from
one case the two agree, and hold it to all coordinates of the deviation (`EqualityFactor.Meets`):
they must be numbers within the tolerance. The case is a coordinate that is no number and has others
after it, which are all within the tolerance (`EqualityFactor.Overlooks`). Then the largest
deviation is found among the coordinates after it. The error is zero, whatever stands before, but
there is no linearization. All of this is `EqualityFactor.IsBuilt.error_spec`.
-/

namespace Smoothing

variable {α : Type}

namespace EqualityFactor

section Built

variable [Scalar α]

/-- The constraints that can be built. -/
inductive IsBuilt : EqualityFactor α → Prop
  | build {key : Key} {feasible : Value α} {f : EqualityFactor α}
    (h : (EqualityFactor.build key feasible).outcome = .ok f) : IsBuilt f
  | withTolerance {f g : EqualityFactor α} {tolerance : α} (hf : IsBuilt f)
    (h : (f.withTolerance tolerance).outcome = .ok g) : IsBuilt g
  | withAllowError {f : EqualityFactor α} (hf : IsBuilt f) (allow : Bool) :
    IsBuilt (f.withAllowError allow)

theorem build_eq_ok {key : Key} {feasible : Value α} {f : EqualityFactor α}
    (h : (EqualityFactor.build key feasible).outcome = .ok f) :
    ∃ noise, f = ⟨key, feasible, noise, defaultTolerance, false⟩ ∧ noise.dim = feasible.dim ∧
      feasible.dim ≠ 0 := by
  unfold EqualityFactor.build at h
  dsimp only at h
  split at h
  · next noise hnoise =>
    cases h
    obtain ⟨u, hu, hnoise⟩ := Logged.outcome_bind_eq_ok.mp hnoise
    obtain ⟨u', -, hnoise⟩ := Logged.outcome_bind_eq_ok.mp hnoise
    cases hnoise
    refine ⟨_, rfl, ?_, fun hzero => ?_⟩
    · simp [NoiseModel.dim, Mat.height, Mat.map, Mat.identity, Mat.ofFn]
    · rw [NoiseModel.checkDim, if_pos hzero] at hu
      cases hu
  · cases h
  · cases h

theorem withTolerance_eq_ok {f g : EqualityFactor α} {tolerance : α}
    (h : (f.withTolerance tolerance).outcome = .ok g) :
    Scalar.isFinite tolerance = true ∧ g = { f with tolerance := tolerance } := by
  unfold EqualityFactor.withTolerance at h
  split_ifs at h with ht
  · cases h
    rw [Bool.and_eq_true] at ht
    exact ⟨ht.1, rfl⟩
  · cases h

theorem IsBuilt.spec (hdefault : Scalar.isFinite (defaultTolerance : α) = true)
    {f : EqualityFactor α} (hf : f.IsBuilt) :
    f.noise.dim = f.feasible.dim ∧ f.feasible.dim ≠ 0 ∧ Scalar.isFinite f.tolerance = true := by
  induction hf with
  | build h =>
    obtain ⟨noise, rfl, hdim, hne⟩ := build_eq_ok h
    exact ⟨hdim, hne, hdefault⟩
  | withTolerance hf h ih =>
    obtain ⟨ht, rfl⟩ := withTolerance_eq_ok h
    exact ⟨ih.1, ih.2.1, ht⟩
  | withAllowError hf allow ih => exact ih

end Built

end EqualityFactor

/-! ### Deviations -/

section Deviation

variable [Scalar α]

theorem Value.exists_deviation {target x : Value α} (h : x.shape = target.shape) (key : Key) :
    ∃ d, target.deviation key x = .ok d ∧ d.size = target.dim := by
  obtain ⟨hmanifold, hdim⟩ := Prod.mk.inj h
  cases target <;> cases x <;> cases hmanifold
  case rn.rn a b =>
    change b.size = a.size at hdim
    refine ⟨LieStructure.minus b a, ?_, ?_⟩
    · simp [deviation, localCoords, hdim]
    · change (-a + b).size = a.size
      simp [hdim]
  all_goals exact ⟨_, rfl, rfl⟩

variable {f : EqualityFactor α} {c : Config α} {x : Value α} {d : Vec α}

namespace EqualityFactor

variable (hx : c.get? f.key = some x) (hd : f.feasible.deviation f.key x = .ok d)
include hx hd

theorem error_eq (hhard : f.allowError = false) :
    (Factor.equality f).error c = .ok (if f.isFeasible d then 0 else Scalar.infinity) := by
  simp only [Factor.error, hx, error, hd, hhard]
  cases hfeasible : f.isFeasible d <;> simp [hfeasible, bind, Except.bind, pure, Except.pure]

/-- **Where a hard constraint is linearized**: the largest deviation is within the tolerance, and
the deviation is finite. -/
theorem linearize_eq (hhard : f.allowError = false)
    (hfinite : (Mat.identity d.size : Mat α).allFinite = true) (hsize : d.size = f.noise.dim)
    (hdim : x.dim = d.size) :
    (f.isFeasible d = false →
      (Factor.equality f).linearize c = .error (.cause (.infeasible f.key d.amax))) ∧
      (f.isFeasible d = true → d.allFinite = false →
        (Factor.equality f).linearize c = .error (.cause .residualNotFinite)) ∧
      (f.isFeasible d = true → d.allFinite = true →
        ∃ g, (Factor.equality f).linearize c = .ok g) := by
  have hvalues : (Factor.equality f).values c = .ok [x] :=
    Factor.lookUp_eq_ok_iff.mpr (.cons hx .nil)
  have hevaluate : f.evaluate [x] true = if f.isFeasible d then .ok ⟨d, some (Mat.identity d.size)⟩
      else .error (.cause (.infeasible f.key d.amax)) := by
    simp only [evaluate, hd, hhard]
    cases hfeasible : f.isFeasible d <;> simp [hfeasible, bind, Except.bind, pure, Except.pure]
  refine ⟨fun hviolated => ?_, fun hfeasible hnot => ?_, fun hfeasible hall => ?_⟩
  · rw [hviolated] at hevaluate
    simp only [Factor.linearize, hvalues, Factor.evaluate, hevaluate, bind, Except.bind]
    rfl
  · rw [hfeasible, if_pos rfl] at hevaluate
    have hcheck : Factor.checkResidual d (Factor.equality f).dimension =
        .error (.cause .residualNotFinite) := by
      have hlength : ¬ d.size ≠ (Factor.equality f).dimension := not_not.mpr hsize
      rw [Factor.checkResidual, if_neg hlength, if_pos (by simp [hnot])]
    simp only [Factor.linearize, hvalues, Factor.evaluate, hevaluate, hcheck, bind, Except.bind]
  · rw [hfeasible, if_pos rfl] at hevaluate
    have hblocks : ∀ t ∈ List.zip [f.key]
        (Factor.splitColumns (f.noise.whitenJacobian (Mat.identity d.size)) 0 [x.dim]),
        t.2.height = (-f.noise.whiten d).size := by
      intro t ht
      rw [Factor.height_of_mem_splitColumns (List.of_mem_zip ht).2, Vec.size_neg]
      exact (List.length_map _).trans (List.length_map _).symm
    have hheight : (Mat.identity d.size : Mat α).height = d.size := by
      simp [Mat.height, Mat.identity, Mat.ofFn]
    refine ⟨⟨_, _, hblocks, List.nodup_singleton f.key⟩,
      Factor.linearize_eq_ok_iff.mpr ⟨[x], d, _, .cons hx .nil, hevaluate, ⟨hsize, hall⟩,
      ⟨hheight.trans hsize, ?_⟩, hfinite, ?_⟩⟩
    · exact hdim.symm.trans (Nat.add_zero x.dim).symm
    · exact GaussianFactor.ofBlocks?_eq_ok_iff.mpr ⟨rfl, rfl, rfl⟩

end EqualityFactor

end Deviation

/-! ### Floating point numbers -/

namespace EqualityFactor

variable {f : EqualityFactor Float} {c : Config Float} {x : Value Float} {d : Vec Float}

/-- Every coordinate of a deviation is a number whose absolute value is within the tolerance. -/
def Meets (f : EqualityFactor Float) (d : Vec Float) : Prop :=
  ∀ a ∈ d.coords, a.isNaN = false ∧ Scalar.abs a ≤ f.tolerance

/-- A coordinate of a deviation is no number, and there are others after it, all of which are
numbers whose absolute values are within the tolerance. -/
def Overlooks (f : EqualityFactor Float) (d : Vec Float) : Prop :=
  ∃ before b after, d.coords = before ++ b :: after ∧ b.isNaN = true ∧ after ≠ [] ∧
    ∀ a ∈ after, a.isNaN = false ∧ Scalar.abs a ≤ f.tolerance

theorem Meets.not_overlooks (h : f.Meets d) : ¬ f.Overlooks d := by
  rintro ⟨before, b, after, hd, hb, -⟩
  have hnumber := (h b (by simp [hd])).1
  rw [hb] at hnumber
  cases hnumber

/-- The last coordinate is not overlooked. -/
theorem not_overlooks_append {l : List Float} {a : Float} (ha : a.isNaN = true) :
    ¬ f.Overlooks ⟨l ++ [a]⟩ := by
  rintro ⟨before, b, after, hd, -, hne, hafter⟩
  obtain ⟨init, last, rfl⟩ := (List.eq_nil_or_concat after).resolve_left hne
  rw [List.concat_eq_append] at hd hafter
  have hsplit : l ++ [a] = (before ++ b :: init) ++ [last] := hd.trans (by simp)
  have hlast : a = last := (List.cons.inj (List.append_inj' hsplit rfl).2).1
  have hnumber := (hafter last (by simp)).1
  rw [← hlast, ha] at hnumber
  cases hnumber

open Binary64

theorem bounded_map_abs_iff {t : Float} {l : List Float} :
    Bounded t (l.map Scalar.abs) ↔ ∀ a ∈ l, a.isNaN = false ∧ Scalar.abs a ≤ t := by
  unfold Bounded
  rw [List.forall_mem_map]
  refine forall₂_congr fun a _ => ⟨fun h => ⟨?_, h⟩, And.right⟩
  rw [← isNaN_abs]
  exact (le_iff_place.mp h).1

theorem masked_map_abs_iff : Masked f.tolerance (d.coords.map Scalar.abs) ↔ f.Overlooks d := by
  constructor
  · rintro ⟨before', b', after', h, hb, hne, hafter⟩
    obtain ⟨before, rest, hsplit, -, hrest⟩ := List.map_eq_append_iff.mp h
    obtain ⟨b, after, rfl, rfl, rfl⟩ := List.map_eq_cons_iff.mp hrest
    refine ⟨before, b, after, hsplit, ?_, by simpa using hne, bounded_map_abs_iff.mp hafter⟩
    rw [← isNaN_abs, hb]
  · rintro ⟨before, b, after, hsplit, hb, hne, hafter⟩
    refine ⟨before.map Scalar.abs, Scalar.abs b, after.map Scalar.abs, by simp [hsplit],
      ?_, by simpa using hne, bounded_map_abs_iff.mpr hafter⟩
    rw [isNaN_abs, hb]

/-- **Which deviations count as satisfied.** -/
theorem isFeasible_iff (hd : d.size ≠ 0) : f.isFeasible d = true ↔ f.Meets d ∨ f.Overlooks d := by
  have hne : d.coords.map Scalar.abs ≠ [] := by
    intro h
    exact hd (congrArg List.length (List.map_eq_nil_iff.mp h))
  rw [isFeasible, decide_eq_true_iff, Vec.amax, largest_le_iff hne, bounded_map_abs_iff,
    masked_map_abs_iff]
  rfl

theorem Meets.allFinite (ht : Scalar.isFinite f.tolerance = true) (h : f.Meets d) :
    d.allFinite = true := by
  rw [Vec.allFinite, List.all_eq_true]
  exact fun a ha => isFinite_of_abs_le ht (h a ha).2

theorem Overlooks.allFinite (h : f.Overlooks d) : d.allFinite = false := by
  obtain ⟨before, b, after, hd, hb, -⟩ := h
  have hbfinite : Scalar.isFinite b = false := by
    change b.toModel.unpack.isFinite = false
    rw [isNaN_iff.mp hb]
    rfl
  simp [Vec.allFinite, hd, hbfinite]

theorem allFinite_identity (n : ℕ) : (Mat.identity n : Mat Float).allFinite = true := by
  have hone : Scalar.isFinite (1 : Float) = true := by decide
  have hzero : Scalar.isFinite (0 : Float) = true := by decide
  simp only [Mat.allFinite, Mat.identity, Mat.ofFn, List.all_map, List.all_eq_true,
    Function.comp_apply, Vec.allFinite]
  intro i _ j _
  split_ifs
  · exact hone
  · exact hzero

theorem infinity_ne_zero : (Scalar.infinity : Float) ≠ 0 := fun h => by
  have hfinite : Scalar.isFinite (Scalar.infinity : Float) = true := h ▸ (by decide)
  rw [isFinite_infinity] at hfinite
  cases hfinite

/-- **What a hard constraint answers at a value of its group and dimension.** If it does not
overlook a coordinate of the deviation, its error is zero where all coordinates are numbers within
the tolerance and infinite elsewhere, and zero exactly where it is linearized. If it does overlook
one, the error is zero, and there is no linearization. -/
theorem IsBuilt.error_spec (hf : f.IsBuilt) (hhard : f.allowError = false)
    (hx : c.get? f.key = some x) (hshape : x.shape = f.feasible.shape) :
    ∃ d, f.feasible.deviation f.key x = .ok d ∧ d.size = f.feasible.dim ∧
      (¬ f.Overlooks d →
        ((Factor.equality f).error c = .ok 0 ↔ f.Meets d) ∧
        (¬ f.Meets d → (Factor.equality f).error c = .ok Scalar.infinity) ∧
        ((Factor.equality f).error c = .ok 0 ↔ ∃ g, (Factor.equality f).linearize c = .ok g)) ∧
      (f.Overlooks d → (Factor.equality f).error c = .ok 0 ∧
        (Factor.equality f).linearize c = .error (.cause .residualNotFinite)) := by
  obtain ⟨hnoise, hne, ht⟩ := hf.spec (by decide)
  obtain ⟨d, hd, hsize⟩ := Value.exists_deviation hshape f.key
  have hdim : x.dim = d.size := (Prod.mk.inj hshape).2.trans hsize.symm
  have herror := error_eq hx hd hhard
  obtain ⟨hviolated, hnot, hok⟩ :=
    linearize_eq hx hd hhard (allFinite_identity d.size) (hsize.trans hnoise.symm) hdim
  have hfeasible := isFeasible_iff (f := f) (d := d) (hsize ▸ hne)
  refine ⟨d, hd, hsize, fun hsees => ?_, fun hoverlooks => ?_⟩
  · by_cases hmeets : f.Meets d
    · have hsatisfied := hfeasible.mpr (.inl hmeets)
      obtain ⟨g, hg⟩ := hok hsatisfied (hmeets.allFinite ht)
      rw [hsatisfied, if_pos rfl] at herror
      exact ⟨iff_of_true herror hmeets, fun h => absurd hmeets h, iff_of_true herror ⟨g, hg⟩⟩
    · have hunsatisfied : f.isFeasible d = false := by
        rw [← Bool.not_eq_true, hfeasible]
        exact not_or.mpr ⟨hmeets, hsees⟩
      have hinfinite : (Factor.equality f).error c = .ok Scalar.infinity := by
        rw [herror, hunsatisfied]
        rfl
      have hnonzero : ¬ (Factor.equality f).error c = .ok 0 := by
        rw [hinfinite, Except.ok.injEq]
        exact infinity_ne_zero
      refine ⟨iff_of_false hnonzero hmeets, fun _ => hinfinite, iff_of_false hnonzero ?_⟩
      rintro ⟨g, hg⟩
      cases (hviolated hunsatisfied).symm.trans hg
  · have hsatisfied := hfeasible.mpr (.inr hoverlooks)
    rw [hsatisfied, if_pos rfl] at herror
    exact ⟨herror, hnot hsatisfied hoverlooks.allFinite⟩

end EqualityFactor

/-! ### A pinned point

A point of the plane is kept at `(1, 2)`. Where its first coordinate is no number, the constraint
overlooks it; where the second one is none, it does not. -/

namespace PinnedPoint

open EqualityFactor

def key : Key := ⟨'x', 1⟩

def feasible : Value Float := .rn ⟨[1.0, 2.0]⟩

/-- The constraint as it is built. -/
def built : FactorBuild Float (EqualityFactor Float) := EqualityFactor.build key feasible

/-- The point at the given coordinates. -/
def pointAt (a b : Float) : Config Float := KeyMap.empty.insert key (.rn ⟨[a, b]⟩)

theorem get?_pointAt (a b : Float) : (pointAt a b).get? key = some (.rn ⟨[a, b]⟩) :=
  KeyMap.get?_insert_self _ _ _

theorem exists_built :
    ∃ noise, built.outcome = .ok ⟨key, feasible, noise, defaultTolerance, false⟩ := by
  have hok : built.outcome.isOk = true := by decide +kernel
  obtain ⟨f, hf⟩ := Logged.exists_of_isOk hok
  obtain ⟨noise, rfl, -⟩ := build_eq_ok hf
  exact ⟨noise, hf⟩

/-- The deviation of a point. -/
def deviationAt (a b : Float) : Vec Float := ⟨[-1.0 + a, -2.0 + b]⟩

theorem deviation_pointAt (a b : Float) :
    feasible.deviation key (.rn ⟨[a, b]⟩) = .ok (deviationAt a b) :=
  rfl

/-- Where the point is in its place, the error is zero and the constraint is linearized; where its
second coordinate is no number, the error is infinite. -/
theorem error_spec_pointAt : ∃ f, built.outcome = .ok f ∧ f.allowError = false ∧
    (Factor.equality f).error (pointAt 1 2) = .ok 0 ∧
    (∃ g, (Factor.equality f).linearize (pointAt 1 2) = .ok g) ∧
    (Factor.equality f).error (pointAt 1 Float.nan) = .ok Scalar.infinity := by
  obtain ⟨noise, hf⟩ := exists_built
  obtain ⟨d, hd, -, hsees, -⟩ := (IsBuilt.build hf).error_spec rfl (get?_pointAt 1 2) rfl
  obtain ⟨d', hd', -, hsees', -⟩ := (IsBuilt.build hf).error_spec rfl (get?_pointAt 1 Float.nan) rfl
  rw [deviation_pointAt, Except.ok.injEq] at hd hd'
  subst hd hd'
  have hmeets : Meets ⟨key, feasible, noise, defaultTolerance, false⟩ (deviationAt 1 2) := by
    have hall : ∀ a ∈ (deviationAt 1 2).coords, a.isNaN = false ∧
        Scalar.abs a ≤ (defaultTolerance : Float) := by
      decide +kernel
    exact hall
  obtain ⟨hzero, -, hlinear⟩ := hsees hmeets.not_overlooks
  have hmisses : ¬ Meets ⟨key, feasible, noise, defaultTolerance,
      false⟩ (deviationAt 1 Float.nan) := by
    have hnot : ¬ ∀ a ∈ (deviationAt 1 Float.nan).coords, a.isNaN = false ∧
        Scalar.abs a ≤ (defaultTolerance : Float) := by
      decide +kernel
    exact hnot
  have hlast : ¬ Overlooks ⟨key, feasible, noise, defaultTolerance,
      false⟩ (deviationAt 1 Float.nan) :=
    not_overlooks_append (l := [-1.0 + 1]) (by decide +kernel)
  exact ⟨_, hf, rfl, hzero.mpr hmeets, hlinear.mp (hzero.mpr hmeets), (hsees' hlast).2.1 hmisses⟩

/-- **A coordinate that is no number is overlooked** if another one follows: the error is zero,
although the deviation is not within the tolerance and the constraint is not linearized. -/
theorem error_eq_zero_of_nan : ∃ f x d, built.outcome = .ok f ∧ f.allowError = false ∧
    (pointAt Float.nan 2).get? f.key = some x ∧ x.shape = f.feasible.shape ∧
    f.feasible.deviation f.key x = .ok d ∧
    ¬ f.Meets d ∧ (Factor.equality f).error (pointAt Float.nan 2) = .ok 0 ∧
    ¬ ∃ g, (Factor.equality f).linearize (pointAt Float.nan 2) = .ok g := by
  obtain ⟨noise, hf⟩ := exists_built
  obtain ⟨hdim, -⟩ := (IsBuilt.build hf).spec (by decide)
  have hafter : ∀ a ∈ [(-2.0 + 2 : Float)], a.isNaN = false ∧
      Scalar.abs a ≤ (defaultTolerance : Float) := by decide +kernel
  have hoverlooks : Overlooks ⟨key, feasible, noise, defaultTolerance,
      false⟩ (deviationAt Float.nan 2) :=
    ⟨[], _, _, rfl, by decide +kernel, List.cons_ne_nil _ _, hafter⟩
  have hfeasible :=
    (isFeasible_iff (d := deviationAt Float.nan 2) (by decide)).mpr (.inr hoverlooks)
  have hmisses : ¬ ∀ a ∈ (deviationAt Float.nan 2).coords, a.isNaN = false ∧
      Scalar.abs a ≤ (defaultTolerance : Float) := by
    decide +kernel
  have hx := get?_pointAt Float.nan 2
  have herror :=
    error_eq (f := ⟨key, feasible, noise, defaultTolerance, false⟩) hx (deviation_pointAt _ _) rfl
  have hlinearize :=
    (linearize_eq (f := ⟨key, feasible, noise, defaultTolerance, false⟩) hx
      (deviation_pointAt _ _) rfl
    (allFinite_identity 2) hdim.symm rfl).2.1 hfeasible hoverlooks.allFinite
  refine ⟨_, _, _, hf, rfl, hx, rfl, deviation_pointAt _ _, hmisses, herror.trans ?_, ?_⟩
  · exact congrArg Except.ok (if_pos hfeasible)
  · rintro ⟨g, hg⟩
    cases hlinearize.symm.trans hg

end PinnedPoint

end Smoothing
