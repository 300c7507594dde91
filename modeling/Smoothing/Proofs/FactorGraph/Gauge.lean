import Mathlib
import Smoothing.Proofs.Factor
import Smoothing.Proofs.FactorGraph
import Smoothing.Proofs.Lie.Action

/-!
# Relative measurements do not fix a position

A problem that measures one variable relative to another cannot tell a configuration from the same
configuration seen from another place: if every value `x` is replaced by `g ∘ x`, with one `g` for
all of them, error and linearization stay what they are (**`FactorGraph.compose_invariant`**). A
factor sees two values `x` and `y` through `x⁻¹ ∘ y` and the dimension of `y` alone
(`BetweenFactor.residual_eq_of_between`), and these do not depend on `g`. What a factor is evaluated
to decides its error and its linearization, and the factors decide those of the problem
(`FactorGraph.error_eq_of_factors`, `FactorGraph.linearize_eq_of_factors`), failures included.
-/

namespace Smoothing

open LieStructure

/-! ### What evaluations depend on -/

section Dependence

variable {α : Type} [Scalar α]

namespace Factor

variable {c d : Config α}

omit [Scalar α] in
theorem lookUp_map (m : Value α → Value α) (c : Config α) (ks : List Key) :
    lookUp (c.map fun _ => m) ks = (lookUp c ks).map (List.map m) := by
  induction ks with
  | nil => rfl
  | cons k ks ih =>
    rw [lookUp, lookUp, KeyMap.get?_map, ih]
    cases c.get? k with
    | none => rfl
    | some x => cases lookUp c ks <;> rfl

theorem linearize_eq_of_evaluate {f : Factor α} {r : Evaluated α (List (Value α))}
    {m : Value α → Value α} (hc : f.values c = r) (hd : f.values d = r.map (List.map m))
    (h : ∀ xs, r = .ok xs → f.evaluate (xs.map m) true = f.evaluate xs true ∧
      ∀ x ∈ xs, (m x).dim = x.dim) : f.linearize d = f.linearize c := by
  unfold linearize
  rw [hc, hd]
  cases r with
  | error s => rfl
  | ok xs =>
    obtain ⟨heval, hdim⟩ := h xs rfl
    have hdims : (xs.map m).map Value.dim = xs.map Value.dim := by
      rw [List.map_map]
      exact List.map_congr_left hdim
    change (f.evaluate (xs.map m) true >>= _) = (f.evaluate xs true >>= _)
    rw [heval, hdims]

theorem whitened_eq_of_evaluate {f : Factor α} {r : Evaluated α (List (Value α))}
    {m : Value α → Value α} (hc : f.values c = r) (hd : f.values d = r.map (List.map m))
    (h : ∀ xs, r = .ok xs → f.evaluate (xs.map m) false = f.evaluate xs false) :
    f.whitened d = f.whitened c := by
  unfold whitened unwhitened
  rw [hc, hd]
  cases r with
  | error s => rfl
  | ok xs =>
    change ((f.evaluate (xs.map m) false >>= _) >>= _) = ((f.evaluate xs false >>= _) >>= _)
    rw [h xs rfl]

end Factor

namespace FactorGraph

variable {c d : Config α} {β : Type}

omit [Scalar α] in
theorem each_eq_of_factors {eval eval' : Factor α → Evaluated α β} {fs : List (Factor α)} (i : ℕ)
    (h : ∀ f ∈ fs, eval f = eval' f) : each eval i fs = each eval' i fs := by
  induction fs generalizing i with
  | nil => rfl
  | cons f fs ih =>
    obtain ⟨hf, hfs⟩ := List.forall_mem_cons.mp h
    rw [each, each, hf, ih (i + 1) hfs]

omit [Scalar α] in
theorem validate_eq_of_contains (g : FactorGraph α) (h : ∀ k, d.contains k = c.contains k) :
    g.validate d = g.validate c := by
  have hmissing : ∀ (fs : List (Factor α)) (i : ℕ), missing? d i fs = missing? c i fs := by
    intro fs
    induction fs with
    | nil => exact fun _ => rfl
    | cons f fs ih =>
      intro i
      simp only [missing?, h, ih]
  rw [validate, validate, hmissing]

variable {g : FactorGraph α} (hcontains : ∀ k, d.contains k = c.contains k)
include hcontains

/-- **The errors of the factors decide the error of the problem.** -/
theorem error_eq_of_factors (h : ∀ f ∈ g.factors, f.error d = f.error c) :
    g.error d = g.error c := by
  rw [error, error, validate_eq_of_contains g hcontains, each_eq_of_factors 0 h]

/-- **The linearizations of the factors decide the linearization of the problem.** -/
theorem linearize_eq_of_factors (h : ∀ f ∈ g.factors, f.linearize d = f.linearize c) :
    g.linearize d = g.linearize c := by
  rw [linearize, linearize, validate_eq_of_contains g hcontains, each_eq_of_factors 0 h]

end FactorGraph

/-- **Two values are seen through the element that leads from the first to the second**, and the
dimension of the second. -/
theorem BetweenFactor.residual_eq_of_between {G T : Type} [LieStructure α G T] {x y x' y' : G}
    (hbetween : between x' y' = between x y) (hdim : dim y' = dim y) (z : G) (wantJacobian : Bool) :
    residual z x' y' wantJacobian = residual z x y wantJacobian := by
  unfold residual betweenJacobian jacobianIdentity
  rw [hbetween, hdim]

end Dependence

/-! ### Moved values -/

theorem Vec.between_compose {u x y : Vec ℝ} (hx : x.size = u.size) (hy : y.size = u.size) :
    between (compose u x) (compose u y) = between x y := by
  have hsum : (-(u + x)).size = (u + y).size := by rw [size_neg, size_add, size_add, hx, hy]
  have hdifference : (-x).size = y.size := by rw [size_neg, hx, hy]
  change -(u + x) + (u + y) = -x + y
  refine ext_get ?_ fun i _ => ?_
  · simp only [size_add, size_neg, hx, hy, min_self]
  · rw [get_add hsum, get_add hdifference, get_neg, get_neg, get_add hx.symm, get_add hy.symm]
    ring

namespace Value

/-- The composition of two values of one group; the second value, if the groups are different. -/
def compose {α : Type} [Scalar α] : Value α → Value α → Value α
  | rn g, rn x => rn (LieStructure.compose g x)
  | so2 g, so2 x => so2 (LieStructure.compose g x)
  | se2 g, se2 x => se2 (LieStructure.compose g x)
  | so3 g, so3 x => so3 (LieStructure.compose g x)
  | se3 g, se3 x => se3 (LieStructure.compose g x)
  | _, x => x

/-- Two values are in one group: they are vectors with as many coordinates, or they are both
rotations or both motions of the plane or of space, with rotations of length one. -/
inductive SameGroup : Value ℝ → Value ℝ → Prop
  | rn {g x : Vec ℝ} (h : x.size = g.size) : SameGroup (rn g) (rn x)
  | so2 {g x : SO2 ℝ} (hg : g.normSq = 1) (hx : x.normSq = 1) : SameGroup (so2 g) (so2 x)
  | se2 {g x : SE2 ℝ} (hg : g.rotation.normSq = 1) (hx : x.rotation.normSq = 1) :
    SameGroup (se2 g) (se2 x)
  | so3 {g x : SO3 ℝ} (hg : g.normSq = 1) (hx : x.normSq = 1) : SameGroup (so3 g) (so3 x)
  | se3 {g x : SE3 ℝ} (hg : g.rotation.normSq = 1) (hx : x.rotation.normSq = 1) :
    SameGroup (se3 g) (se3 x)

theorem SameGroup.dim_compose {g x : Value ℝ} (h : SameGroup g x) : (g.compose x).dim = x.dim := by
  cases h with
  | @rn g x h =>
    change (g + x).size = x.size
    rw [Vec.size_add, h, min_self]
  | _ => rfl

end Value

/-- **A relative measurement does not change when both values are moved**, whatever was measured. -/
theorem BetweenFactor.evaluate_compose (f : BetweenFactor ℝ) {g x y : Value ℝ} (hx : g.SameGroup x)
    (hy : g.SameGroup y) (wantJacobian : Bool) :
    f.evaluate [g.compose x, g.compose y] wantJacobian = f.evaluate [x, y] wantJacobian := by
  obtain ⟨first, second, z, noise⟩ := f
  cases hx with
  | @rn g x hx =>
    cases hy with
    | @rn _ y hy =>
      have hgx : (LieStructure.compose g x).size = x.size := (Value.SameGroup.rn hx).dim_compose
      have hgy : (LieStructure.compose g y).size = y.size := (Value.SameGroup.rn hy).dim_compose
      cases z with
      | rn z =>
        simp only [evaluate, Value.compose, hgx, hgy]
        rw [residual_eq_of_between (Vec.between_compose hx hy) hgy]
      | _ => rfl
  | so2 hg hx =>
    cases hy with
    | so2 _ hy =>
      cases z with
      | so2 z =>
        exact congrArg _ (residual_eq_of_between (SO2.isActingOn.between_compose hg hx hy) rfl z
          wantJacobian)
      | _ => rfl
  | se2 hg hx =>
    cases hy with
    | se2 _ hy =>
      cases z with
      | se2 z =>
        exact congrArg _ (residual_eq_of_between (SE2.isActingOn.between_compose hg hx hy) rfl z
          wantJacobian)
      | _ => rfl
  | so3 hg hx =>
    cases hy with
    | so3 _ hy =>
      cases z with
      | so3 z =>
        exact congrArg _ (residual_eq_of_between (SO3.isActingOn.between_compose hg hx hy) rfl z
          wantJacobian)
      | _ => rfl
  | se3 hg hx =>
    cases hy with
    | se3 _ hy =>
      cases z with
      | se3 z =>
        exact congrArg _ (residual_eq_of_between (SE3.isActingOn.between_compose hg hx hy) rfl z
          wantJacobian)
      | _ => rfl

/-! ### Moved configurations -/

/-- A configuration seen from another place: `g` is composed with every value from the left. -/
def Config.moved {α : Type} [Scalar α] (g : Value α) (c : Config α) : Config α :=
  c.map fun _ => g.compose

section Moved

variable {g : Value ℝ} {c : Config ℝ} (hc : ∀ k x, c.get? k = some x → g.SameGroup x)
include hc

theorem Factor.exists_values_between {f : BetweenFactor ℝ} {xs : List (Value ℝ)}
    (h : (between f).values c = .ok xs) : ∃ x y, xs = [x, y] ∧ g.SameGroup x ∧ g.SameGroup y := by
  have hxs : List.Forall₂ (fun k x => c.get? k = some x) [f.first, f.second] xs :=
    lookUp_eq_ok_iff.mp h
  cases hxs with
  | cons hx hxs =>
    cases hxs with
    | cons hy hxs =>
      cases hxs
      exact ⟨_, _, rfl, hc _ _ hx, hc _ _ hy⟩

theorem Factor.error_moved (f : BetweenFactor ℝ) :
    (between f).error (c.moved g) = (between f).error c := by
  have hwhitened : (between f).whitened (c.moved g) = (between f).whitened c := by
    refine whitened_eq_of_evaluate rfl (lookUp_map g.compose c _) fun xs hxs => ?_
    obtain ⟨x, y, rfl, hx, hy⟩ := exists_values_between hc hxs
    exact f.evaluate_compose hx hy false
  simp only [error, hwhitened]

theorem Factor.linearize_moved (f : BetweenFactor ℝ) :
    (between f).linearize (c.moved g) = (between f).linearize c := by
  refine linearize_eq_of_evaluate rfl (lookUp_map g.compose c _) fun xs hxs => ?_
  obtain ⟨x, y, rfl, hx, hy⟩ := exists_values_between hc hxs
  refine ⟨f.evaluate_compose hx hy true, fun z hz => ?_⟩
  rcases List.mem_pair.mp hz with rfl | rfl
  · exact hx.dim_compose
  · exact hy.dim_compose

/-- **Relative measurements do not fix a position**: moving all values of a configuration by one
element of their group changes neither the error nor the linearization of a problem with relative
measurements only. -/
theorem FactorGraph.compose_invariant {graph : FactorGraph ℝ}
    (hgraph : ∀ f ∈ graph.factors, ∃ b, f = .between b) :
    graph.error (c.moved g) = graph.error c ∧ graph.linearize (c.moved g) = graph.linearize c := by
  have hcontains : ∀ k, (c.moved g).contains k = c.contains k := fun k => by
    rw [KeyMap.contains, Config.moved, KeyMap.get?_map, Option.isSome_map, KeyMap.contains]
  constructor
  · refine error_eq_of_factors hcontains fun f hf => ?_
    obtain ⟨b, rfl⟩ := hgraph f hf
    exact Factor.error_moved hc b
  · refine linearize_eq_of_factors hcontains fun f hf => ?_
    obtain ⟨b, rfl⟩ := hgraph f hf
    exact Factor.linearize_moved hc b

end Moved

/-! ### Two poses

Two poses of space and a measurement of the second relative to the first. Both are moved by the
second one. -/

namespace Odometry

def first : Key := ⟨'x', 1⟩

def second : Key := ⟨'x', 2⟩

noncomputable def graph : FactorGraph ℝ :=
  ⟨[.between ⟨first, second, .se3 ⟨⟨1, 0, 0⟩, QuarterTurn.start⟩, ⟨.unit, Mat.identity 6⟩⟩]⟩

noncomputable def pose : Value ℝ := .se3 ⟨⟨1, 0, 1⟩, QuarterTurn.stored⟩

noncomputable def config : Config ℝ :=
  (KeyMap.empty.insert first (.se3 ⟨⟨0, 3, 0⟩, QuarterTurn.start⟩)).insert second pose

theorem compose_invariant_poses :
    graph.error (config.moved pose) = graph.error config ∧
      graph.linearize (config.moved pose) = graph.linearize config := by
  refine FactorGraph.compose_invariant (fun k x hx => ?_) fun f hf => ⟨_, List.mem_singleton.mp hf⟩
  rw [config, KeyMap.get?_insert, KeyMap.get?_insert] at hx
  split_ifs at hx
  · cases hx
    exact .se3 QuarterTurn.normSq_stored QuarterTurn.normSq_stored
  · cases hx
    exact .se3 QuarterTurn.normSq_stored QuarterTurn.normSq_start
  · cases hx

end Odometry

end Smoothing
