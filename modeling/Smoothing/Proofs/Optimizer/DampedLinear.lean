import Mathlib
import Smoothing.Proofs.Linear.DampedSolution
import Smoothing.Proofs.Optimizer.Dampings
import Smoothing.Proofs.Optimizer.LinearProblem

/-!
# Damped steps on linear problems

The linearization of a problem of priors and relative measurements of vectors is exact: at an update
it has the error after the update, and without an update the current one
(`Optimizer.Consistent.error_eq_linear`). The solution of a damped linearization is not worse than
no update, whatever the damping. So a damping whose problem is solved is accepted
(`Optimizer.Consistent.accepts_of_solves`), and only one whose problem does not determine a variable
is rejected (`Optimizer.Consistent.rejects_iff`). Main statement:
`Optimizer.Reachable.dampedStep_accepts_solved`.
-/

namespace Smoothing

theorem Config.updated_empty {α : Type} [Scalar α] (c : Config α) : c.updated KeyMap.empty = c := by
  refine KeyMap.ext fun k => ?_
  rw [get?_updated, KeyMap.get?_empty]
  exact Option.map_id'

theorem GaussianGraph.exists_solve_of_sameBlocks {g g' : GaussianGraph ℝ} {o : EliminationOrder}
    {x : BlockVector ℝ} (h : List.Forall₂ GaussianFactor.SameBlocks g.factors g'.factors)
    (hx : (DirectMethod.qr.solve g o).outcome = .ok x) :
    ∃ x', (DirectMethod.qr.solve g' o).outcome = .ok x' := by
  have hoptimize : (g.optimize o).outcome = .ok x := (Logged.outcome_report_bind _ _).symm.trans hx
  obtain ⟨net, hnet, -⟩ := Logged.outcome_bind_eq_ok.mp hoptimize
  obtain ⟨net', hnet'⟩ := exists_eliminate_of_sameBlocks h hnet
  have hkeys : g'.keys = g.keys := congrArg KeyMap.setOf (Elimination.keys_of_sameBlocks h)
  obtain ⟨-, x', -, hx', -⟩ := isMinimizer_optimize (hkeys ▸ perm_keys_of_optimize hoptimize) hnet'
  exact ⟨x', (Optimizer.outcome_solve_qr g' o).trans ((Logged.outcome_bind_ok _ hnet').trans hx')⟩

namespace Optimizer

variable {graph : FactorGraph ℝ} {config : Config ℝ} {ordering : EliminationOrder} {s : Optimizer ℝ}
  {linear : GaussianGraph ℝ} {lambda : ℝ} {δ : BlockVector ℝ}

theorem outcome_withLambda (s : Optimizer ℝ) (hlambda : 0 ≤ lambda) :
    (s.withLambda lambda).outcome = .ok { s with lambda := lambda } := by
  rw [withLambda, if_neg (by simpa using hlambda)]
  rfl

namespace Consistent

variable (hs : Consistent graph config ordering DirectMethod.qr.solver s) (hg : s.graph.IsEuclidean)
  (hlinear : (s.graph.linearize s.config).outcome = .ok linear)
include hs hg hlinear

theorem error_eq_linear : s.error = linear.error KeyMap.empty := by
  have hfits : s.config.Fits KeyMap.empty := fun k v hv => by cases hv
  have herror := (hg.error_updated hlinear hfits).2
  rw [Config.updated_empty] at herror
  exact Except.ok.inj (hs.error_eq.symm.trans herror)

variable (hlambda : 0 ≤ lambda)
include hlambda

/-- **A damping whose problem is solved is accepted.** -/
theorem accepts_of_solves (hδ : s.Solves linear lambda δ) :
    s.Accepts linear lambda
    (s.advance (s.config.updated δ) (linear.error δ) (lambda * s.params.decrease)) ∧
      s.config.retract δ = .ok (s.config.updated δ) ∧ linear.error δ ≤ s.error := by
  have hkeys : ∀ f ∈ s.graph.factors, f.keys ≠ [] := fun f hf => (hg f hf).keys_ne_nil
  obtain ⟨c, hc⟩ := hs.exists_retract hkeys hs.solver_eq hlinear hlambda hδ
  obtain ⟨hfits, -, rfl⟩ := Config.retract_eq_ok_iff.mp hc
  have hle : linear.error δ ≤ s.error := by
    obtain ⟨dims, hdims⟩ := GaussianGraph.exists_dims (FactorGraph.consistent_of_linearize hlinear)
    obtain ⟨damped, hdamped, hsolve⟩ := hδ
    rw [hs.solver_eq] at hsolve
    rw [hs.error_eq_linear hg hlinear]
    exact GaussianGraph.error_le_of_damped hdims hlambda hdamped hsolve
  have haccepts : s.accepts (linear.error δ) = true := by simpa [accepts] using hle
  exact ⟨.intro hδ hc (hg.error_updated hlinear hfits).2 haccepts, hc, hle⟩

/-- **A damping is rejected exactly if its problem does not determine a variable.** -/
theorem rejects_iff :
    s.Rejects linear lambda ↔ ∃ damped k, (linear.damped lambda).outcome = .ok damped ∧
    (s.solver.solve damped s.ordering).outcome = .error (.cause (.degenerate k)) := by
  have hkeys : ∀ f ∈ s.graph.factors, f.keys ≠ [] := fun f hf => (hg f hf).keys_ne_nil
  constructor
  · intro h
    cases h with
    | unsolved hdamped hsolve _ =>
      obtain ⟨k, hk⟩ := hs.exists_degenerate hkeys hs.solver_eq hlinear hlambda hdamped hsolve
      exact ⟨_, k, hdamped, hk ▸ hsolve⟩
    | worse hδ hc he hworse =>
      -- the same problem would be accepted
      have hrejected : (s.tryLambda linear .silent 1 lambda).outcome = .ok none :=
        (Rejects.worse hδ hc he hworse).outcome_tryLambda
      obtain ⟨haccepts, -⟩ := hs.accepts_of_solves hg hlinear hlambda hδ
      cases hrejected.symm.trans haccepts.outcome_tryLambda
  · rintro ⟨damped, k, hdamped, hsolve⟩
    exact .unsolved hdamped hsolve rfl

end Consistent

/-- **Linear problems accept what is solved.** Let all factors be priors on vectors or relative
measurements of vectors, and let elimination solve. The damping of a state is not negative, and any
other that is not can be set. If the problem with the damping of the state is solved, then the first
attempt of a damped step is accepted: the step moves by the solution, the error does not grow, and
the next damping is the reduced one. A damping is rejected only where its problem does not determine
a variable, and a step stalls only where this is so for all dampings that it tries. -/
theorem Reachable.dampedStep_accepts_solved (hg : graph.IsEuclidean)
    (h : Reachable graph config ordering DirectMethod.qr.solver s) :
    0 ≤ s.lambda ∧
      (∀ lambda, 0 ≤ lambda → (s.withLambda lambda).outcome = .ok { s with lambda := lambda }) ∧
    ∃ linear, (s.graph.linearize s.config).outcome = .ok linear ∧
      (∀ δ v, s.Solves linear s.lambda δ → ∃ next, (s.dampedStep v).outcome = .ok next ∧
        s.config.retract δ = .ok next.config ∧ next.error ≤ s.error ∧
        next.lambda = s.lambda * s.params.decrease) ∧
      (∀ lambda, 0 ≤ lambda → s.Rejects linear lambda →
        ∃ damped k, (linear.damped lambda).outcome = .ok damped ∧
          (s.solver.solve damped s.ordering).outcome = .error (.cause (.degenerate k))) ∧
      ∀ v n lambda error, (s.dampedStep v).outcome = .error (.cause (.stalled n lambda error)) →
        ∀ j < s.params.maxAttempts, ∃ damped k,
          (linear.damped (s.raised^[j] s.lambda)).outcome = .ok damped ∧
          (s.solver.solve damped s.ordering).outcome = .error (.cause (.degenerate k)) := by
  have hs := h.consistent
  rw [← hs.graph_eq] at hg
  obtain ⟨hparams, hdamping⟩ := h.adjusted
  have hlambda : 0 ≤ s.lambda := by simpa [Params.isDamping] using hdamping
  have hattempts : 0 < s.params.maxAttempts :=
    Nat.pos_of_ne_zero (Params.refused?_eq_none_iff.mp hparams).maxAttempts
  obtain ⟨linear, hlinear⟩ := hg.exists_linearize hs.error_eq
  refine ⟨hlambda, fun lambda => s.outcome_withLambda, linear, hlinear, fun δ v hδ => ?_,
      fun lambda hlambda hrejects =>
    (hs.rejects_iff hg hlinear hlambda).mp hrejects, fun v n lambda error hstalled j hj => ?_⟩
  · obtain ⟨haccepts, hc, hle⟩ := hs.accepts_of_solves hg hlinear hlambda hδ
    exact ⟨_, dampedStep_eq_ok_iff.mpr ⟨linear, hlinear, 0, hattempts,
      fun j hj => absurd hj j.not_lt_zero, haccepts⟩, hc, hle, rfl⟩
  · obtain ⟨linear', hlinear', hrejects, -⟩ := exists_of_stalled hstalled
    obtain rfl : linear' = linear := Except.ok.inj (hlinear'.symm.trans hlinear)
    exact (hs.rejects_iff hg hlinear (raised_iterate_nonneg hparams hlambda j)).mp (hrejects j hj)

end Optimizer

/-! ### A walk

A prior on `x` at zero, and a relative measurement of one from `x` to `y`. -/

namespace Walk

theorem exists_solves {s : Optimizer ℝ} (hordering : s.ordering = ordering)
    (hsolver : s.solver = DirectMethod.qr.solver) {c : Config ℝ} {linear : GaussianGraph ℝ}
    (hlinear : (graph.linearize c).outcome = .ok linear) {lambda : ℝ} (hlambda : 0 < lambda) :
    ∃ δ, s.Solves linear lambda δ := by
  have hsame := sameBlocks_of_linearize hlinear
  have hwalk : List.Forall₂ GaussianFactor.SameBlocks TwoEquations.walk.factors [first, second] :=
    .cons ⟨rfl, rfl⟩ (.cons ⟨rfl, rfl⟩ .nil)
  have hdims : linear.dims.outcome = .ok dims := by
    rw [GaussianGraph.dims, Elimination.terms_of_sameBlocks hsame]
    rfl
  have hdamping : ∀ fs : List (GaussianFactor ℝ),
      List.Forall₂ GaussianFactor.SameBlocks fs fs := fun fs =>
    List.forall₂_same.mpr fun _ _ => ⟨rfl, rfl⟩
  obtain ⟨x, hx⟩ := TwoEquations.exists_solve_damped lambda
  obtain ⟨x', hx'⟩ :=
    GaussianGraph.exists_solve_of_sameBlocks (List.rel_append hwalk (hdamping _)) hx
  obtain ⟨δ, hδ⟩ :=
    GaussianGraph.exists_solve_of_sameBlocks (List.rel_append hsame (hdamping _)) hx'
  refine ⟨δ, _, GaussianGraph.outcome_damped hdims hlambda, ?_⟩
  rw [hsolver, hordering]
  exact hδ

/-- The first attempt from the start is accepted, with the damping of a fresh optimizer. -/
theorem dampedStep_accepts_solved_start :
    graph.IsEuclidean ∧ ∃ s linear δ next,
    Optimizer.Reachable graph config ordering DirectMethod.qr.solver s ∧
      0 < s.lambda ∧ (s.graph.linearize s.config).outcome = .ok linear ∧
      s.Solves linear s.lambda δ ∧
      (s.dampedStep .silent).outcome = .ok next ∧ next.error ≤ s.error ∧
      next.lambda = s.lambda * s.params.decrease := by
  obtain ⟨s, hs, hgraph, -⟩ := exists_build
  obtain ⟨hconsistent, hparams, hdamping⟩ := Optimizer.build_spec hs
  have hlambda : 0 < s.lambda := by
    rw [hdamping, hparams]
    norm_num [Params.default]
  obtain ⟨-, -, linear, hlinear, haccepts, -⟩ :=
    Optimizer.Reachable.dampedStep_accepts_solved isEuclidean_graph (.start hs)
  obtain ⟨δ, hδ⟩ :=
    exists_solves hconsistent.ordering_eq hconsistent.solver_eq (hgraph ▸ hlinear) hlambda
  obtain ⟨next, hnext, -, hle, hreduced⟩ := haccepts δ .silent hδ
  exact ⟨isEuclidean_graph, s, linear, δ, next, .start hs, hlambda, hlinear, hδ, hnext,
    hle, hreduced⟩

end Walk

end Smoothing
