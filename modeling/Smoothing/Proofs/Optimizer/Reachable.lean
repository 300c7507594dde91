import Mathlib
import Smoothing.Linear.Solver
import Smoothing.Proofs.Config
import Smoothing.Proofs.FactorGraph
import Smoothing.Proofs.Optimizer.Run
import Smoothing.Proofs.Optimizer.Step
import Smoothing.Proofs.Scalar.Rational

/-!
# States of an optimizer

The states of an optimizer are those that are reached from a start by other dampings, other
parameters, steps and runs (`Optimizer.Reachable`). All of these are made of three kinds of
transitions (`Optimizer.Transition`), so what holds at the start and is kept by transitions holds of
every state (`Optimizer.Reachable.exists_transitions`). The graph, the order, the solver and the
shape of the configuration never change, and the error that is kept beside the configuration is its
error (`Optimizer.Consistent`). The parameters pass their check (`Params.IsSound`), and over exact
scalars the damping remains valid too: `Optimizer.Reachable.isValid`.
-/

namespace Smoothing

variable {α : Type} [Scalar α]

namespace Optimizer

/-! ### Reachable states -/

/-- The states of an optimizer for a problem. -/
inductive Reachable (graph : FactorGraph α) (config : Config α) (ordering : EliminationOrder)
    (solver : LinearSolver α) : Optimizer α → Prop
  | start {s : Optimizer α} (h : (build graph config ordering solver).outcome = .ok s) :
      Reachable graph config ordering solver s
  | withLambda {s s' : Optimizer α} {lambda : α} (hs : Reachable graph config ordering solver s)
      (h : (s.withLambda lambda).outcome = .ok s') : Reachable graph config ordering solver s'
  | withParams {s s' : Optimizer α} {params : Params α}
      (hs : Reachable graph config ordering solver s)
      (h : (s.withParams params).outcome = .ok s') : Reachable graph config ordering solver s'
  | step {s s' : Optimizer α} {v : Verbosity} (hs : Reachable graph config ordering solver s)
      (h : (s.step v).outcome = .ok s') : Reachable graph config ordering solver s'
  | dampedStep {s s' : Optimizer α} {v : Verbosity} (hs : Reachable graph config ordering solver s)
      (h : (s.dampedStep v).outcome = .ok s') : Reachable graph config ordering solver s'
  | gaussNewton {s : Optimizer α} {t : Thresholds α} {v : Verbosity} {r : Report α}
      (hs : Reachable graph config ordering solver s) (h : (s.gaussNewton t v).outcome = .ok r) :
      Reachable graph config ordering solver r.optimizer
  | levenbergMarquardt {s : Optimizer α} {t : Thresholds α} {v : Verbosity} {r : Report α}
      (hs : Reachable graph config ordering solver s)
      (h : (s.levenbergMarquardt t v).outcome = .ok r) :
      Reachable graph config ordering solver r.optimizer

/-- A change of a state. -/
inductive Transition (s : Optimizer α) : Optimizer α → Prop
  /-- Another damping. -/
  | damping {lambda : α} (h : Params.IsUsable lambda) : Transition s { s with lambda := lambda }
  /-- Other parameters. -/
  | params {params : Params α} (h : params.refused? = none) :
      Transition s { s with params := params, lambda := params.initialLambda }
  /-- Another configuration, reached by an update. The damping stays, or is a part of one that was
  tried. -/
  | moved {δ : BlockVector α} {c : Config α} {e lambda : α} (hc : s.config.retract δ = .ok c)
      (he : (s.graph.error c).outcome = .ok e) (hfinite : Scalar.isFinite e = true)
      (hlambda : lambda = s.lambda ∨ ∃ tried, Params.IsUsable tried ∧
        lambda = tried * s.params.decrease) :
      Transition s (s.advance c e lambda)

section Transition

variable {s s' : Optimizer α} {v : Verbosity}

theorem refused?_eq_none_of_validate {p : Params α} {u : Unit} (h : (p.validate).outcome = .ok u) :
    p.refused? = none := by
  unfold Params.validate at h
  split at h
  · cases h
  · assumption

theorem transition_of_withLambda {lambda : α} (h : (s.withLambda lambda).outcome = .ok s') :
    Transition s s' := by
  unfold withLambda at h
  split at h
  · cases h
  · next hlambda =>
    cases h
    exact .damping (.inr (by simpa using hlambda))

theorem transition_of_withParams {params : Params α} (h : (s.withParams params).outcome = .ok s') :
    Transition s s' := by
  obtain ⟨_, hvalid, h⟩ := Logged.outcome_bind_eq_ok.mp h
  cases h
  exact .params (refused?_eq_none_of_validate hvalid)

theorem transition_of_step (h : (s.step v).outcome = .ok s') : Transition s s' := by
  obtain ⟨δ, c, e, -, hc, he, hfinite, rfl⟩ := step_eq_ok_iff.mp h
  exact .moved hc he hfinite (.inl rfl)

theorem transition_of_dampedStep (h : (s.dampedStep v).outcome = .ok s') : Transition s s' := by
  obtain ⟨linear, -, i, -, -, ⟨⟨damped, hdamped, -⟩, hc, he, haccepts⟩⟩ := dampedStep_eq_ok_iff.mp h
  rw [accepts, Bool.and_eq_true] at haccepts
  exact .moved hc he haccepts.1 (.inr ⟨_, GaussianGraph.isUsable_of_damped hdamped, rfl⟩)

theorem transitions_of_gaussNewton {t : Thresholds α} {r : Report α}
    (h : (s.gaussNewton t v).outcome = .ok r) : Relation.ReflTransGen Transition s r.optimizer :=
  (run_ends h).2.2.2.reflTransGen.lift id fun _ _ hab =>
    transition_of_step (some_step_eq_some_iff.mp hab)

theorem transitions_of_levenbergMarquardt {t : Thresholds α} {r : Report α}
    (h : (s.levenbergMarquardt t v).outcome = .ok r) :
    Relation.ReflTransGen Transition s r.optimizer :=
  (run_ends h).2.2.2.reflTransGen.lift id fun _ _ hab =>
    transition_of_dampedStep (dampedStep?_eq_some_iff.mp hab)

end Transition

section Reachable

variable {graph : FactorGraph α} {config : Config α} {ordering : EliminationOrder}
  {solver : LinearSolver α} {s s' : Optimizer α}

/-- **Transitions lead from the start to every state.** -/
theorem Reachable.exists_transitions (h : Reachable graph config ordering solver s) :
    ∃ s₀, (build graph config ordering solver).outcome = .ok s₀ ∧
    Relation.ReflTransGen Transition s₀ s := by
  induction h with
  | start h => exact ⟨_, h, .refl⟩
  | withLambda _ h ih =>
    obtain ⟨s₀, h₀, ht⟩ := ih
    exact ⟨s₀, h₀, ht.tail (transition_of_withLambda h)⟩
  | withParams _ h ih =>
    obtain ⟨s₀, h₀, ht⟩ := ih
    exact ⟨s₀, h₀, ht.tail (transition_of_withParams h)⟩
  | step _ h ih =>
    obtain ⟨s₀, h₀, ht⟩ := ih
    exact ⟨s₀, h₀, ht.tail (transition_of_step h)⟩
  | dampedStep _ h ih =>
    obtain ⟨s₀, h₀, ht⟩ := ih
    exact ⟨s₀, h₀, ht.tail (transition_of_dampedStep h)⟩
  | gaussNewton _ h ih =>
    obtain ⟨s₀, h₀, ht⟩ := ih
    exact ⟨s₀, h₀, ht.trans (transitions_of_gaussNewton h)⟩
  | levenbergMarquardt _ h ih =>
    obtain ⟨s₀, h₀, ht⟩ := ih
    exact ⟨s₀, h₀, ht.trans (transitions_of_levenbergMarquardt h)⟩

theorem Reachable.invariant {P : Optimizer α → Prop} (h : Reachable graph config ordering solver s)
    (hstart : ∀ s₀, (build graph config ordering solver).outcome = .ok s₀ → P s₀)
    (hstep : ∀ a b, P a → Transition a b → P b) : P s := by
  obtain ⟨s₀, h₀, ht⟩ := h.exists_transitions
  clear h
  induction ht with
  | refl => exact hstart s₀ h₀
  | tail _ hab ih => exact hstep _ _ ih hab

/-! ### What never changes -/

/-- The state is one for the problem, and the error beside its configuration is the error there. -/
structure Consistent (graph : FactorGraph α) (config : Config α) (ordering : EliminationOrder)
    (solver : LinearSolver α) (s : Optimizer α) : Prop where
  graph_eq : s.graph = graph
  ordering_eq : s.ordering = ordering
  solver_eq : s.solver = solver
  perm_keys : s.ordering.keys.Perm s.graph.keys.keys
  shape_eq : s.config.shape = config.shape
  error_eq : (s.graph.error s.config).outcome = .ok s.error
  isFinite_error : Scalar.isFinite s.error = true

theorem build_spec (h : (build graph config ordering solver).outcome = .ok s) :
    Consistent graph config ordering solver s ∧ s.params = Params.default ∧
    s.lambda = s.params.initialLambda := by
  unfold build at h
  split at h
  · cases h
  obtain ⟨_, -, h⟩ := Logged.outcome_bind_eq_ok.mp h
  obtain ⟨_, hordering, h⟩ := Logged.outcome_bind_eq_ok.mp h
  obtain ⟨error, herror, h⟩ := Logged.outcome_bind_eq_ok.mp h
  rw [Logged.outcome_mapCause_eq_ok] at hordering herror
  split at h
  · cases h
  · next hfinite =>
    cases h
    exact ⟨⟨rfl, rfl, rfl, EliminationOrder.perm_of_validate hordering, rfl,
      herror, by simpa using hfinite⟩, rfl, rfl⟩

theorem Consistent.transition (hs : Consistent graph config ordering solver s)
    (h : Transition s s') : Consistent graph config ordering solver s' := by
  obtain ⟨hgraph, hordering, hsolver, hperm, hshape, herror, hfinite⟩ := hs
  cases h with
  | damping _ => exact ⟨hgraph, hordering, hsolver, hperm, hshape, herror, hfinite⟩
  | params _ => exact ⟨hgraph, hordering, hsolver, hperm, hshape, herror, hfinite⟩
  | moved hc he hfinite' _ =>
    exact ⟨hgraph, hordering, hsolver, hperm, (Config.shape_retract hc).trans hshape, he, hfinite'⟩

theorem Reachable.consistent (h : Reachable graph config ordering solver s) :
    Consistent graph config ordering solver s :=
  h.invariant (fun _ h₀ => (build_spec h₀).1) fun _ _ hs ht => hs.transition ht

end Reachable

end Optimizer

/-! ### Dampings and parameters -/

/-- What parameters that can be used satisfy. -/
structure Params.IsSound (p : Params α) : Prop where
  initialLambda : isDamping p.initialLambda = true
  isFinite_increase : Scalar.isFinite p.increase = true
  increase : ¬ p.increase ≤ 1
  decrease_pos : 0 < p.decrease
  decrease_le : p.decrease ≤ 1
  isFinite_minRejected : Scalar.isFinite p.minRejected = true
  minRejected_pos : 0 < p.minRejected
  maxAttempts : p.maxAttempts ≠ 0

/-- **The check lets pass what can be used.** -/
theorem Params.refused?_eq_none_iff {p : Params α} : p.refused? = none ↔ p.IsSound := by
  constructor
  · intro h
    unfold refused? at h
    split_ifs at h with hinitial hincrease hdecrease hrejected hattempts
    simp only [Bool.not_eq_true, Bool.not_eq_false', Bool.and_eq_true, Bool.or_eq_false_iff,
      decide_eq_true_iff, decide_eq_false_iff_not] at hinitial hincrease hdecrease hrejected
    exact ⟨hinitial, hincrease.1, hincrease.2, hdecrease.1, hdecrease.2, hrejected.1,
      hrejected.2, hattempts⟩
  · intro h
    simp [refused?, h.initialLambda, h.isFinite_increase, h.increase, h.decrease_pos, h.decrease_le,
      h.isFinite_minRejected, h.minRejected_pos, h.maxAttempts]

theorem Optimizer.Reachable.isSound_params {graph : FactorGraph α} {config : Config α}
    {ordering : EliminationOrder} {solver : LinearSolver α} {s : Optimizer α}
    (h : Reachable graph config ordering solver s)
    (hdefault : (Params.default : Params α).IsSound) : s.params.IsSound := by
  refine h.invariant (fun s₀ h₀ => (build_spec h₀).2.1 ▸ hdefault) fun s s' hs ht => ?_
  cases ht with
  | damping _ => exact hs
  | params hnew => exact Params.refused?_eq_none_iff.mp hnew
  | moved _ _ _ _ => exact hs

section Exact

variable {𝕜 : Type} [Field 𝕜] [LinearOrder 𝕜] [IsStrictOrderedRing 𝕜] [exact : ExactScalar 𝕜 α]
include exact

open ExactScalar

namespace Params

theorem isDamping_iff {lambda : α} :
    isDamping lambda = true ↔ ∃ x : 𝕜, 0 ≤ x ∧ number x = lambda := by
  rw [isDamping, Bool.and_eq_true, decide_eq_true_iff, isFinite_iff]
  constructor
  · rintro ⟨⟨x, rfl⟩, hx⟩
    exact ⟨x, (nonneg_iff x).mp hx, rfl⟩
  · rintro ⟨x, hx, rfl⟩
    exact ⟨⟨x, rfl⟩, (nonneg_iff x).mpr hx⟩

theorem IsUsable.isDamping {lambda : α} (h : IsUsable lambda) : isDamping lambda = true := by
  rw [isDamping_iff]
  rcases h with h | ⟨hfinite, hnonneg⟩
  · rw [← number_zero, beq_number] at h
    exact ⟨0, le_rfl, h.symm⟩
  · obtain ⟨x, rfl⟩ := exists_number hfinite
    rw [← number_zero, number_lt, not_lt] at hnonneg
    exact ⟨x, hnonneg, rfl⟩

theorem isDamping_mul {lambda d : α} (h : isDamping lambda = true) (hpos : 0 < d) (hle : d ≤ 1) :
    isDamping (lambda * d) = true := by
  obtain ⟨x, hx, rfl⟩ := isDamping_iff.mp h
  rw [← number_zero] at hpos
  rw [← number_one] at hle
  obtain ⟨y, rfl⟩ := exists_number (isFinite_of_between d 0 1 hpos hle)
  exact isDamping_iff.mpr ⟨x * y, mul_nonneg hx ((number_lt 0 y).mp hpos).le, number_mul x y⟩

/-- **The parameters of a fresh optimizer are sound.** -/
theorem isSound_default : (default : Params α).IsSound := by
  have hinitial : isDamping (1e-5 : α) = true :=
    isDamping_iff.mpr ⟨1e-5, by norm_num, number_ofScientific 1 true 5⟩
  have hincrease : Scalar.isFinite (10.0 : α) = true ∧ ¬ (10.0 : α) ≤ 1 := by
    rw [← number_ofScientific 100 true 1, ← number_one, number_le]
    exact ⟨isFinite_number _, by norm_num⟩
  have hdecrease : (0 : α) < 0.1 ∧ (0.1 : α) ≤ 1 := by
    rw [← number_ofScientific 1 true 1, ← number_one, ← number_zero, number_le, number_lt]
    norm_num
  have hrejected : Scalar.isFinite (1e-8 : α) = true ∧ (0 : α) < 1e-8 := by
    rw [← number_ofScientific 1 true 8, ← number_zero, number_lt]
    exact ⟨isFinite_number _, by norm_num⟩
  exact ⟨hinitial, hincrease.1, hincrease.2, hdecrease.1, hdecrease.2, hrejected.1, hrejected.2,
    Nat.succ_ne_zero 19⟩

theorem IsSound.exists_numbers {p : Params α} (h : p.IsSound) :
    ∃ increase bound : 𝕜, number increase = p.increase ∧ 1 < increase ∧
    number bound = p.minRejected ∧ 0 < bound := by
  obtain ⟨increase, hincrease⟩ := exists_number h.isFinite_increase
  obtain ⟨bound, hbound⟩ := exists_number h.isFinite_minRejected
  refine ⟨increase, bound, hincrease, ?_, hbound, ?_⟩
  · have hgt := h.increase
    rwa [← hincrease, ← number_one, number_le, not_le] at hgt
  · have hpos := h.minRejected_pos
    rwa [← hbound, ← number_zero, number_lt] at hpos

end Params

namespace Optimizer

variable {graph : FactorGraph α} {config : Config α} {ordering : EliminationOrder}
  {solver : LinearSolver α} {s s' : Optimizer α}

/-- The parameters pass their check, and the damping can be used. -/
def Adjusted (s : Optimizer α) : Prop := s.params.refused? = none ∧ Params.isDamping s.lambda = true

theorem Adjusted.transition (hs : s.Adjusted) (h : Transition s s') : s'.Adjusted := by
  obtain ⟨hparams, hlambda⟩ := hs
  cases h with
  | damping husable => exact ⟨hparams, husable.isDamping⟩
  | params hnew => exact ⟨hnew, (Params.refused?_eq_none_iff.mp hnew).initialLambda⟩
  | moved _ _ _ hnext =>
    refine ⟨hparams, ?_⟩
    rcases hnext with rfl | ⟨tried, husable, rfl⟩
    · exact hlambda
    · have hsound := Params.refused?_eq_none_iff.mp hparams
      exact Params.isDamping_mul husable.isDamping hsound.decrease_pos hsound.decrease_le

theorem Reachable.adjusted (h : Reachable graph config ordering solver s) : s.Adjusted := by
  refine h.invariant (fun s₀ h₀ => ?_) fun _ _ hs ht => hs.transition ht
  obtain ⟨-, hparams, hlambda⟩ := build_spec h₀
  have hsound : s₀.params.IsSound := hparams ▸ Params.isSound_default
  exact ⟨Params.refused?_eq_none_iff.mpr hsound, hlambda ▸ hsound.initialLambda⟩

/-- The state is one for the problem, with a valid damping and valid parameters. -/
structure IsValid (graph : FactorGraph α) (config : Config α) (ordering : EliminationOrder)
    (solver : LinearSolver α) (s : Optimizer α) :
    Prop extends Consistent graph config ordering solver s where
  isFinite_lambda : Scalar.isFinite s.lambda = true
  lambda_nonneg : 0 ≤ s.lambda
  validate_params : s.params.validate.outcome = .ok ()

/-- **Every state of an optimizer is valid.** -/
theorem Reachable.isValid (h : Reachable graph config ordering solver s) :
    IsValid graph config ordering solver s := by
  obtain ⟨hparams, hlambda⟩ := h.adjusted
  rw [Params.isDamping, Bool.and_eq_true, decide_eq_true_iff] at hlambda
  refine ⟨h.consistent, hlambda.1, hlambda.2, ?_⟩
  rw [Params.validate, hparams]
  rfl

end Optimizer

end Exact

/-! ### Two variables in a row

A prior on `x`, of weight `7/24`, and a relative measurement from `x` to `y`. The weight makes the
elimination rational. -/

namespace Chain

open Rational (number)

def x : Key := ⟨'x', 1⟩

def y : Key := ⟨'x', 2⟩

def graph : FactorGraph Rational :=
  ⟨[.prior ⟨x, .rn ⟨[number 0]⟩, ⟨.isotropic, Mat.diagonal ⟨[number (7 / 24)]⟩⟩⟩,
    .between ⟨x, y, .rn ⟨[number 1]⟩, ⟨.unit, Mat.identity 1⟩⟩]⟩

def config : Config Rational :=
  (KeyMap.empty.insert x (.rn ⟨[number 5]⟩)).insert y (.rn ⟨[number 7]⟩)

def ordering : EliminationOrder := .natural graph

def solver : LinearSolver Rational := DirectMethod.qr.solver

/-- The start, without damping. -/
def start : OptimizerRun Rational (Optimizer Rational) := do
  let s ← Optimizer.build graph config ordering solver
  s.withParams { Params.default with initialLambda := 0 }

theorem reachable_start {s : Optimizer Rational} (h : start.outcome = .ok s) :
    Optimizer.Reachable graph config ordering solver s := by
  obtain ⟨s₀, h₀, h⟩ := Logged.outcome_bind_eq_ok.mp h
  exact .withParams (.start h₀) h

/-- Steps of both kinds, runs of both kinds and another damping. -/
def travel (s : Optimizer Rational) : OptimizerRun Rational (Optimizer Rational) := do
  let s ← s.step .silent
  let s ← s.dampedStep .silent
  let r ← s.gaussNewton ⟨0, 0⟩ .silent
  let r ← r.optimizer.levenbergMarquardt ⟨0, 0⟩ .silent
  r.optimizer.withLambda (number 3)

theorem isValid_travel :
    ∃ s, (start >>= travel).outcome = .ok s ∧ Optimizer.IsValid graph config ordering solver s := by
  have hok : (start >>= travel).outcome.isOk = true := by decide +kernel
  obtain ⟨s, h⟩ := Logged.exists_of_isOk hok
  obtain ⟨s₀, h₀, hs⟩ := Logged.outcome_bind_eq_ok.mp h
  obtain ⟨s₁, h₁, hs⟩ := Logged.outcome_bind_eq_ok.mp hs
  obtain ⟨s₂, h₂, hs⟩ := Logged.outcome_bind_eq_ok.mp hs
  obtain ⟨r₁, hr₁, hs⟩ := Logged.outcome_bind_eq_ok.mp hs
  obtain ⟨r₂, hr₂, hs⟩ := Logged.outcome_bind_eq_ok.mp hs
  have hstep : Optimizer.Reachable graph config ordering solver s₂ :=
    .dampedStep (.step (reachable_start h₀) h₁) h₂
  exact ⟨s, h,
    Optimizer.Reachable.isValid (.withLambda (.levenbergMarquardt (.gaussNewton hstep hr₁) hr₂) hs)⟩

end Chain

end Smoothing
