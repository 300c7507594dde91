import Mathlib
import Smoothing.Proofs.Factor.Euclidean
import Smoothing.Proofs.FactorGraph.Linearization
import Smoothing.Proofs.Optimizer.Agreement

/-!
# Linear problems are solved in one step

A problem of priors and relative measurements of vectors is linear: its linearization has at an
update the error of the problem after the update (`FactorGraph.IsEuclidean.error_updated`), and
every configuration of the same shape is reached by an update
(`FactorGraph.IsEuclidean.exists_update`). So a step, which follows the minimizer of the
linearization, leads to the least error (`Optimizer.Consistent.isOptimal_of_step`). The next
linearization has the same blocks, so it is eliminated as well, and the next step stays where it is
(`Optimizer.Consistent.step_eq_self`): a run meets its thresholds there. Main statement:
`FactorGraph.IsEuclidean.solved_in_one_step`.
-/

namespace Smoothing

/-! ### Updates between configurations of one shape -/

namespace Config

theorem exists_update {c c' : Config ℝ} (h : c'.shape = c.shape) :
    ∃ δ, c.Fits δ ∧ δ.keys = c.keys ∧ ∀ k x, c.get? k = some (.rn x) →
    (c.updated δ).get? k = c'.get? k := by
  have hvalue : ∀ k x, c.get? k = some x →
      ∃ v : Vec ℝ, v.size = x.dim ∧ ∀ a, x = .rn a → c'.get? k = some (x.plus v) := by
    intro k x hx
    cases x with
    | rn a =>
      have hk : (c'.get? k).map Value.shape = some (Value.rn a).shape := by
        rw [← get?_shape, h, get?_shape, hx, Option.map_some]
      obtain ⟨y, hy, hshape⟩ := Option.map_eq_some_iff.mp hk
      cases y with
      | rn b =>
        obtain ⟨v, -, hs, hv⟩ :=
          Value.exists_localCoords (x := .rn a) (y := .rn b) trivial trivial hshape
        exact ⟨v, hs, fun _ _ => hv ▸ hy⟩
      | so2 b => cases hshape
      | se2 b => cases hshape
      | so3 b => cases hshape
      | se3 b => cases hshape
    | so2 x => exact ⟨Vec.zero _, Vec.size_zero _, fun _ ha => nomatch ha⟩
    | se2 x => exact ⟨Vec.zero _, Vec.size_zero _, fun _ ha => nomatch ha⟩
    | so3 x => exact ⟨Vec.zero _, Vec.size_zero _, fun _ ha => nomatch ha⟩
    | se3 x => exact ⟨Vec.zero _, Vec.size_zero _, fun _ ha => nomatch ha⟩
  choose! f hsize hplus using hvalue
  refine ⟨c.map f, fun k v hv => ?_, KeyMap.keys_map f c, fun k x hx => ?_⟩
  · rw [KeyMap.get?_map] at hv
    obtain ⟨x, hx, rfl⟩ := Option.map_eq_some_iff.mp hv
    exact ⟨x, hx, hsize k x hx⟩
  · rw [hplus k _ hx x rfl, get?_updated, KeyMap.get?_map, hx]
    rfl

theorem Fits.get?_widths_eq {c : Config ℝ} {δ δ' : BlockVector ℝ} (hδ : c.Fits δ)
    (hδ' : c.Fits δ') {k : Key} (hk : k ∈ δ.keys) (hk' : k ∈ δ'.keys) :
    δ'.widths.get? k = δ.widths.get? k := by
  obtain ⟨v, hv⟩ := KeyMap.mem_keys_iff_exists.mp hk
  obtain ⟨v', hv'⟩ := KeyMap.mem_keys_iff_exists.mp hk'
  obtain ⟨x, hx, hs⟩ := hδ k v hv
  obtain ⟨x', hx', hs'⟩ := hδ' k v' hv'
  rw [BlockVector.get?_widths_of_get? hv, BlockVector.get?_widths_of_get? hv', hs, hs',
    Option.some.inj (hx.symm.trans hx')]

end Config

/-! ### Linear problems -/

namespace FactorGraph

/-- All factors are priors on vectors or relative measurements of vectors. -/
def IsEuclidean (g : FactorGraph ℝ) : Prop := ∀ f ∈ g.factors, f.IsEuclidean

variable {g : FactorGraph ℝ} {c c' : Config ℝ} {a : ℝ} {linear : GaussianGraph ℝ}
  {δ : BlockVector ℝ}

theorem error_congr (h : ∀ k ∈ g.keys.keys, c.get? k = c'.get? k)
    (hc : (g.error c).outcome = .ok a) : (g.error c').outcome = .ok a := by
  have hkeys : ∀ f ∈ g.factors, ∀ k ∈ f.keys, c.get? k = c'.get? k := fun f hf k hk =>
    h k (KeyMap.mem_keys_setOf.mpr (List.mem_flatMap.mpr ⟨f, hf, hk⟩))
  obtain ⟨hv, errors, herrors, rfl⟩ := error_eq_ok_iff.mp hc
  refine error_eq_ok_iff.mpr ⟨validate_eq_ok_iff.mpr fun f hf k hk => ?_, errors, ?_, rfl⟩
  · rw [← hkeys f hf k hk]
    exact validate_eq_ok_iff.mp hv f hf k hk
  · have hboth := (List.forall₂_and_left _ _).mpr ⟨fun f hf => hkeys f hf, herrors⟩
    exact hboth.imp fun f b ⟨hf, hb⟩ => (Factor.error_congr hf).symm.trans hb

variable (hg : g.IsEuclidean)
include hg

theorem IsEuclidean.exists_isAffine (h : (g.error c).outcome = .ok a) {f : Factor ℝ}
    (hf : f ∈ g.factors) :
    ∃ d jacobian residual, f.IsAffine d jacobian residual ∧ c.HasVectors f.keys d := by
  obtain ⟨d, jacobian, residual, haffine⟩ := (hg f hf).exists_isAffine
  obtain ⟨errors, herrors, -⟩ := exists_errors h
  obtain ⟨b, hb⟩ := exists_forall₂_iff.mp ⟨errors, herrors⟩ f hf
  exact ⟨d, jacobian, residual, haffine, (haffine.error_eq_ok_iff.mp hb).1⟩

/-- **Where a linear problem has an error, it has a linearization.** -/
theorem IsEuclidean.exists_linearize (h : (g.error c).outcome = .ok a) :
    ∃ linear, (g.linearize c).outcome = .ok linear := by
  obtain ⟨ls, hls⟩ : ∃ ls, List.Forall₂ (fun f l => f.linearize c = .ok l) g.factors ls := by
    refine exists_forall₂_iff.mpr fun f hf => ?_
    obtain ⟨d, jacobian, residual, haffine, hc⟩ := hg.exists_isAffine h hf
    obtain ⟨l, hl, -⟩ := haffine.exists_linearize hc
    exact ⟨l, hl⟩
  exact ⟨⟨ls⟩, linearize_eq_ok_iff.mpr ⟨(error_eq_ok_iff.mp h).1, hls⟩⟩

section Linearized
variable (hlinear : (g.linearize c).outcome = .ok linear)
include hlinear

/-- **The linearization of a linear problem is exact.** -/
theorem IsEuclidean.error_updated (hδ : c.Fits δ) :
    linear.fits δ = true ∧ (g.error (c.updated δ)).outcome = .ok (linear.error δ) := by
  obtain ⟨hv, hls⟩ := linearize_eq_ok_iff.mp hlinear
  have hboth := (List.forall₂_and_left _ _).mpr ⟨hg, hls⟩
  refine ⟨fits_of_linearize hlinear hδ, error_eq_ok_iff.mpr
    ⟨validate_of_shape (Config.shape_updated hδ) hv, linear.factors.map (·.error δ),
      List.forall₂_map_right_iff.mpr (hboth.imp fun f l ⟨hf, hl⟩ => ?_), rfl⟩⟩
  obtain ⟨d, jacobian, residual, haffine⟩ := hf.exists_isAffine
  exact haffine.error_updated hl hδ

theorem IsEuclidean.sameBlocks {linear' : GaussianGraph ℝ}
    (hlinear' : (g.linearize c').outcome = .ok linear') :
    List.Forall₂ GaussianFactor.SameBlocks linear.factors linear'.factors := by
  have hls := (linearize_eq_ok_iff.mp hlinear).2
  have hls' := (linearize_eq_ok_iff.mp hlinear').2
  refine List.forall₂_iff_get.mpr ⟨hls.length_eq.symm.trans hls'.length_eq, fun i hi hi' => ?_⟩
  have hi'' : i < g.factors.length := hls.length_eq ▸ hi
  obtain ⟨d, jacobian, residual, haffine⟩ := (hg _ (List.getElem_mem hi'')).exists_isAffine
  exact haffine.sameBlocks (hls.get hi'' hi) (hls'.get hi'' hi')

theorem IsEuclidean.exists_vector {k : Key} (hk : k ∈ g.keys.keys) :
    ∃ x, c.get? k = some (.rn x) := by
  obtain ⟨f, hf, hkf⟩ := List.mem_flatMap.mp (KeyMap.mem_keys_setOf.mp hk)
  obtain ⟨d, jacobian, residual, haffine⟩ := (hg f hf).exists_isAffine
  obtain ⟨l, hl⟩ := exists_forall₂_iff.mp ⟨_, (linearize_eq_ok_iff.mp hlinear).2⟩ f hf
  obtain ⟨x, hx, -⟩ := haffine.hasVectors_of_linearize hl k hkf
  exact ⟨x, hx⟩

/-- **Every error at a configuration of the same shape** is the error of the linearization at an
update. -/
theorem IsEuclidean.exists_update (hc : c'.shape = c.shape) :
    ∃ δ, c.Fits δ ∧ (∀ k ∈ g.keys.keys, k ∈ δ.keys ∧ (c.updated δ).get? k = c'.get? k) ∧
      (g.error c').outcome = .ok (linear.error δ) := by
  obtain ⟨δ, hδ, hkeys, hupdated⟩ := Config.exists_update hc
  have hvalues : ∀ k ∈ g.keys.keys, k ∈ δ.keys ∧ (c.updated δ).get? k = c'.get? k := by
    intro k hk
    obtain ⟨x, hx⟩ := hg.exists_vector hlinear hk
    exact ⟨hkeys ▸ KeyMap.mem_keys_iff_exists.mpr ⟨_, hx⟩, hupdated k x hx⟩
  exact ⟨δ, hδ, hvalues, error_congr (fun k hk => (hvalues k hk).2) (hg.error_updated hlinear hδ).2⟩

end Linearized

end FactorGraph

/-! ### One step -/

namespace Optimizer

/-- The state is at a minimum of the error among all configurations of its shape, and every other
minimum has the same values of the variables of the problem. -/
structure IsOptimal (s : Optimizer ℝ) : Prop where
  error_eq : (s.graph.error s.config).outcome = .ok s.error
  minimal : ∀ c, c.shape = s.config.shape → ∃ a, (s.graph.error c).outcome = .ok a ∧ s.error ≤ a ∧
    (a = s.error → ∀ k ∈ s.graph.keys.keys, c.get? k = s.config.get? k)

variable {graph : FactorGraph ℝ} {config : Config ℝ} {ordering : EliminationOrder}
  {s next : Optimizer ℝ} {v : Verbosity} {t : Thresholds ℝ} {linear : GaussianGraph ℝ}

theorem outcome_solve_qr (g : GaussianGraph ℝ) (o : EliminationOrder) :
    (DirectMethod.qr.solver.solve g o).outcome = (g.optimize o).outcome :=
  Logged.outcome_report_bind _ _

theorem exists_isMinimizer (hperm : s.ordering.keys.Perm s.graph.keys.keys)
    (hlinear : (s.graph.linearize s.config).outcome = .ok linear) {net : BayesNet ℝ}
    (hnet : (linear.eliminate s.ordering).outcome = .ok net) :
    ∃ δ, linear.IsMinimizer δ.widths δ ∧ δ.keys = s.graph.keys.keys ∧
      (DirectMethod.qr.solver.solve linear s.ordering).outcome = .ok δ := by
  have hkeys : linear.keys = s.graph.keys := FactorGraph.keys_eq_of_linearize hlinear
  obtain ⟨dims, δ, hdims, hδ, hmin⟩ := GaussianGraph.isMinimizer_optimize (hkeys ▸ hperm) hnet
  refine ⟨δ, hmin.widths.symm ▸ hmin, ?_, ?_⟩
  · rw [← BlockVector.keys_widths, hmin.widths, (GaussianGraph.dims_of_ok hdims).2, hkeys]
  · rw [outcome_solve_qr, GaussianGraph.optimize, Logged.outcome_bind_ok _ hnet, hδ]

namespace Consistent

variable (hs : Consistent graph config ordering DirectMethod.qr.solver s)
include hs

/-- What a step does: it follows the minimizer of the linearization. -/
theorem exists_of_step (h : (s.step v).outcome = .ok next) :
    ∃ linear net δ e, (s.graph.linearize s.config).outcome = .ok linear ∧
      (linear.eliminate s.ordering).outcome = .ok net ∧ linear.IsMinimizer δ.widths δ ∧
      δ.keys = s.graph.keys.keys ∧
      s.config.Fits δ ∧ (s.graph.error (s.config.updated δ)).outcome = .ok e ∧
      next = s.advance (s.config.updated δ) e s.lambda := by
  obtain ⟨δ, c, e, hδ, hc, he, -, rfl⟩ := step_eq_ok_iff.mp h
  obtain ⟨linear, hlinear, hsolve⟩ := update_eq_ok_iff.mp hδ
  obtain ⟨hfits, -, rfl⟩ := Config.retract_eq_ok_iff.mp hc
  rw [hs.solver_eq] at hsolve
  obtain ⟨net, hnet, -⟩ := Logged.outcome_bind_eq_ok.mp ((outcome_solve_qr _ _).symm.trans hsolve)
  obtain ⟨δ', hmin, hkeys, hsolve'⟩ := exists_isMinimizer hs.perm_keys hlinear hnet
  obtain rfl : δ' = δ := Except.ok.inj (hsolve'.symm.trans hsolve)
  exact ⟨linear, net, δ', e, hlinear, hnet, hmin, hkeys, hfits, he, rfl⟩

variable (hg : s.graph.IsEuclidean)
include hg

/-- **A step on a linear problem leads to the minimum.** -/
theorem isOptimal_of_step (h : (s.step v).outcome = .ok next) : next.IsOptimal := by
  obtain ⟨linear, net, δ, e, hlinear, -, hmin, hkeys, hδ, he, rfl⟩ := hs.exists_of_step h
  obtain rfl : linear.error δ = e := Except.ok.inj ((hg.error_updated hlinear hδ).2.symm.trans he)
  refine ⟨he, fun c hc => ?_⟩
  obtain ⟨δ', hδ', hvalues, herror⟩ := hg.exists_update hlinear (hc.trans (Config.shape_updated hδ))
  refine ⟨_, herror, hmin.error_le δ', fun heq k hk => ?_⟩
  obtain ⟨hk', hvalue⟩ := hvalues k hk
  have hblock : δ'.get? k = δ.get? k := hmin.get?_eq heq (hδ.get?_widths_eq hδ' (hkeys ▸ hk) hk')
  rw [← hvalue, Config.get?_updated, hblock]
  exact (Config.get?_updated _ _ _).symm

theorem exists_step (hlinear : (s.graph.linearize s.config).outcome = .ok linear) {net : BayesNet ℝ}
    (hnet : (linear.eliminate s.ordering).outcome = .ok net) :
    ∃ δ, δ.keys = s.graph.keys.keys ∧ s.config.Fits δ ∧
      ∀ v, (s.step v).outcome = .ok (s.advance (s.config.updated δ) (linear.error δ) s.lambda) := by
  have hkeys : ∀ f ∈ s.graph.factors, f.keys ≠ [] := fun f hf => (hg f hf).keys_ne_nil
  obtain ⟨δ, -, hδkeys, hsolve⟩ := exists_isMinimizer hs.perm_keys hlinear hnet
  rw [← hs.solver_eq] at hsolve
  obtain ⟨c, hc⟩ :=
    hs.exists_retract hkeys hs.solver_eq hlinear le_rfl ⟨_, linear.outcome_damped_zero, hsolve⟩
  obtain ⟨hδ, -, rfl⟩ := Config.retract_eq_ok_iff.mp hc
  exact ⟨δ, hδkeys, hδ, fun v => step_eq_ok_iff.mpr
    ⟨δ, _, _, update_eq_ok_iff.mpr ⟨linear, hlinear, hsolve⟩, hc, (hg.error_updated hlinear hδ).2,
    rfl, rfl⟩⟩

/-- **The minimum is a fixed point**: a step from it succeeds and leads nowhere else. -/
theorem step_eq_self (h : (s.step v).outcome = .ok next) : (next.step v).outcome = .ok next := by
  have hnext : Consistent graph config ordering DirectMethod.qr.solver next :=
    hs.transition (transition_of_step h)
  have hoptimal : next.IsOptimal := hs.isOptimal_of_step hg h
  have hgraph : next.graph = s.graph := hnext.graph_eq.trans hs.graph_eq.symm
  have hordering : next.ordering = s.ordering := hnext.ordering_eq.trans hs.ordering_eq.symm
  have hg' : next.graph.IsEuclidean := hgraph ▸ hg
  -- the second linearization has the blocks of the first one, so it is eliminated too
  obtain ⟨linear, net, -, -, hlinear, hnet, -⟩ := hs.exists_of_step h
  obtain ⟨linear', hlinear'⟩ := hg'.exists_linearize hnext.error_eq
  obtain ⟨net', hnet'⟩ :=
    GaussianGraph.exists_eliminate_of_sameBlocks (hg.sameBlocks hlinear (hgraph ▸ hlinear')) hnet
  obtain ⟨δ, hkeys, hδ, hstep⟩ := hnext.exists_step hg' hlinear' (hordering ▸ hnet')
  -- both states have the least error, and so the same values
  have hoptimal' := hnext.isOptimal_of_step hg' (hstep v)
  obtain ⟨a, ha, hle, hunique⟩ := hoptimal.minimal _ (Config.shape_updated hδ)
  obtain rfl : linear'.error δ = a := Except.ok.inj (hoptimal'.error_eq.symm.trans ha)
  obtain ⟨a, ha, hle', -⟩ := hoptimal'.minimal next.config (Config.shape_updated hδ).symm
  obtain rfl : next.error = a := Except.ok.inj (hoptimal.error_eq.symm.trans ha)
  have heq : linear'.error δ = next.error := le_antisymm hle' hle
  have hconfig : next.config.updated δ = next.config := by
    refine KeyMap.ext fun k => ?_
    by_cases hk : k ∈ next.graph.keys.keys
    · exact hunique heq k hk
    · have hnone : δ.get? k = none := KeyMap.get?_eq_none_iff.mpr (hkeys ▸ hk)
      rw [Config.get?_updated, hnone]
      exact Option.map_id'
  rw [hstep v, hconfig, heq]
  rfl

end Consistent

theorem exists_gaussNewton_of_fixed (h : (s.step v).outcome = .ok next)
    (hfixed : (next.step v).outcome = .ok next) (hle : next.error ≤ s.error)
    (habsolute : 0 < t.absolute) (hrelative : 0 ≤ t.relative) (hmax : 2 ≤ s.params.maxIterations) :
    ∃ r, (s.gaussNewton t v).outcome = .ok r ∧ r.status = .converged ∧ r.iterations ≤ 2 ∧
      r.optimizer = next := by
  have hvalid : t.validate.outcome = .ok () := by
    simp [Thresholds.validate, Params.isDamping, hrelative, habsolute.le]
  have hmet : t.met next.error next.error = true := by simp [Thresholds.met, habsolute]
  have hfirst : (some <$> s.step v).outcome = .ok (some next) := some_step_eq_some_iff.mpr h
  have hsecond : (some <$> next.step v).outcome = .ok (some next) :=
    some_step_eq_some_iff.mpr hfixed
  obtain ⟨n, hn⟩ := Nat.exists_eq_add_of_le' hmax
  obtain ⟨i, hi, hloop⟩ :
      ∃ i ≤ 2, (loop (fun s => some <$> s.step v) t v s.params.maxIterations 0 s).outcome =
      .ok (.converged, i, next) := by
    rw [hn, outcome_loop_succ hfirst]
    split_ifs
    · exact ⟨1, one_le_two, by rw [better, if_pos hle]⟩
    · exact ⟨2, le_rfl, by rw [outcome_loop_succ hsecond, if_pos hmet, better, if_pos le_rfl]⟩
  exact ⟨_, outcome_run hvalid hloop, rfl, hi, rfl⟩

end Optimizer

/-- **Linear problems are solved in one step.** Let all factors be priors on vectors or relative
measurements of vectors. Then the linearization at a configuration has at every update the error of
the problem after the update. If a step that solves by elimination succeeds, it leads to the least
error of all configurations of the shape, and no other configuration with this error has other
values of the variables. A run with thresholds that are accepted, of which the absolute one is
positive, ends there as converged, after at most two steps. -/
theorem FactorGraph.IsEuclidean.solved_in_one_step {g : FactorGraph ℝ} (hg : g.IsEuclidean) :
    (∀ c a δ, (g.error c).outcome = .ok a → c.Fits δ → ∃ c' linear a', c.retract δ = .ok c' ∧
      (g.linearize c).outcome = .ok linear ∧ linear.error? δ = some a' ∧
      (g.error c').outcome = .ok a') ∧
    ∀ config ordering s v next, Optimizer.Reachable g config ordering DirectMethod.qr.solver s →
      (s.step v).outcome = .ok next → next.graph = g ∧ next.config.shape = s.config.shape ∧
      next.IsOptimal ∧ ∀ t v', 0 < t.absolute → 0 ≤ t.relative → 2 ≤ s.params.maxIterations →
        ∃ r, (s.gaussNewton t v').outcome = .ok r ∧ r.status = .converged ∧ r.iterations ≤ 2 ∧
          r.optimizer = next := by
  constructor
  · intro c a δ hc hδ
    obtain ⟨linear, hlinear⟩ := hg.exists_linearize hc
    obtain ⟨hfits, herror⟩ := hg.error_updated hlinear hδ
    exact ⟨_, linear, linear.error δ, Config.retract_of_fits hδ, hlinear, if_pos hfits, herror⟩
  · intro config ordering s v next hreachable h
    have hs := hreachable.consistent
    have hg' : s.graph.IsEuclidean := hs.graph_eq ▸ hg
    have hnext := hs.transition (Optimizer.transition_of_step h)
    have hshape : next.config.shape = s.config.shape := hnext.shape_eq.trans hs.shape_eq.symm
    have hoptimal := hs.isOptimal_of_step hg' h
    refine ⟨hnext.graph_eq, hshape, hoptimal, fun t v' habsolute hrelative hmax => ?_⟩
    obtain ⟨a, ha, hle, -⟩ := hoptimal.minimal s.config hshape.symm
    obtain rfl : s.error = a := Except.ok.inj
      (hs.error_eq.symm.trans ((hnext.graph_eq.trans hs.graph_eq.symm) ▸ ha))
    have h' : (s.step v').outcome = .ok next := Optimizer.step_of_verbosity h
    exact Optimizer.exists_gaussNewton_of_fixed h' (hs.step_eq_self hg' h') hle habsolute
      hrelative hmax

/-! ### A step on a walk -/

namespace Walk

open Elimination

theorem isEuclidean_graph : graph.IsEuclidean := by
  have hprior :
      (PriorFactor.build x (.rn ⟨[0]⟩) ⟨.unit, Mat.identity 1⟩ : FactorBuild ℝ
      (PriorFactor ℝ)).outcome = .ok ⟨x, .rn ⟨[0]⟩, ⟨.unit, Mat.identity 1⟩⟩ := rfl
  have hbetween : (BetweenFactor.build x y (.rn ⟨[1]⟩) ⟨.unit, Mat.identity 1⟩ :
      FactorBuild ℝ (BetweenFactor ℝ)).outcome = .ok ⟨x, y, .rn ⟨[1]⟩, ⟨.unit, Mat.identity 1⟩⟩ :=
    rfl
  exact List.forall_mem_cons.mpr ⟨.prior hprior, List.forall_mem_singleton.mpr (.between hbetween)⟩

/-- The linearized prior, without its right-hand side. -/
noncomputable def first : GaussianFactor ℝ where
  terms := [(x, Mat.identity 1)]
  rhs := Vec.zero 1
  height_eq := by simp [Mat.height_identity]
  nodup := by decide

/-- The linearized measurement, without its right-hand side. -/
noncomputable def second : GaussianFactor ℝ where
  terms := [(x, -Mat.identity 1), (y, Mat.identity 1)]
  rhs := Vec.zero 1
  height_eq := by simp [Mat.height_neg, Mat.height_identity]
  nodup := by decide

def dims : KeyMap ℕ := ⟨[(x, 1), (y, 1)], by decide⟩

theorem eliminateOne_second : (eliminateOne y 1 [second] dims ordering).outcome =
    .ok (⟨y, Mat.ofRows 1 [⟨[1]⟩], [(x, Mat.ofRows 1 [⟨[-1]⟩])], ⟨[0]⟩⟩, none) := by
  have hscale : ((Mat.ofRows 3 [⟨[(1 : ℝ), -1, 0]⟩]).columns 0 2).amax = 1 := by
    change Vec.largest [|(1 : ℝ)|, |(-1 : ℝ)|] = 1
    simp [Vec.largest]
  exact eliminateOne_row [(x, 1)] [-1, 0] rfl rfl rfl (hscale.symm ▸ one_pos) hscale.le rfl rfl

theorem eliminateOne_first : (eliminateOne x 1 [first] dims ordering).outcome =
    .ok (⟨x, Mat.ofRows 1 [⟨[1]⟩], [], ⟨[0]⟩⟩, none) := by
  have hscale : ((Mat.ofRows 2 [⟨[(1 : ℝ), 0]⟩]).columns 0 1).amax = 1 := by
    change Vec.largest [|(1 : ℝ)|] = 1
    simp [Vec.largest]
  exact eliminateOne_row [] [0] rfl rfl rfl (hscale.symm ▸ one_pos) hscale.le rfl rfl

theorem exists_eliminate :
    ∃ net, (GaussianGraph.eliminate ⟨[first, second]⟩ ordering).outcome = .ok net := by
  have hdims : (GaussianGraph.dims ⟨[first, second]⟩ : LinearRun ℝ (KeyMap ℕ)).outcome = .ok dims :=
    rfl
  obtain ⟨cs, hlast⟩ : ∃ cs, (eliminateAll dims ordering [x] [first]).outcome = .ok (cs, []) := by
    change ∃ cs, (eliminateOne x 1 [first] dims ordering >>= _).outcome = _
    rw [Logged.outcome_bind_ok _ eliminateOne_first]
    exact ⟨_, rfl⟩
  obtain ⟨cs, hall⟩ : ∃ cs, (eliminateAll dims ordering ordering.keys [first, second]).outcome =
      .ok (cs, []) := by
    change ∃ cs, (eliminateOne y 1 [second] dims ordering >>= _).outcome = _
    rw [Logged.outcome_bind_ok _ eliminateOne_second]
    change ∃ cs, (eliminateAll dims ordering [x] [first] >>= _).outcome = _
    rw [Logged.outcome_bind_ok _ hlast]
    exact ⟨_, rfl⟩
  exact ⟨⟨cs⟩, GaussianGraph.eliminate_eq_ok_iff.mpr ⟨dims, hdims, hall⟩⟩

theorem sameBlocks_of_linearize {c : Config ℝ} {linear : GaussianGraph ℝ}
    (h : (graph.linearize c).outcome = .ok linear) :
    List.Forall₂ GaussianFactor.SameBlocks [first, second] linear.factors := by
  have hidentity : (Mat.identity 1 : Mat ℝ) * Mat.identity 1 = Mat.identity 1 :=
    Mat.identity_mul (Mat.height_identity 1)
  have hdifference : (Mat.identity 1 : Mat ℝ) * (-Mat.identity 1 : Mat ℝ).beside (Mat.identity 1) =
      (-Mat.identity 1 : Mat ℝ).beside (Mat.identity 1) := Mat.identity_mul rfl
  obtain ⟨l₁, ls, h₁, hrest, hfactors⟩ :=
    List.forall₂_cons_left_iff.mp (FactorGraph.linearize_eq_ok_iff.mp h).2
  obtain ⟨l₂, rest, h₂, hnil, rfl⟩ := List.forall₂_cons_left_iff.mp hrest
  obtain rfl := List.forall₂_nil_left_iff.mp hnil
  obtain ⟨hrhs₁, hterms₁⟩ := (Factor.isAffine_prior rfl).of_linearize h₁
  obtain ⟨hrhs₂, hterms₂⟩ := (Factor.isAffine_between (by decide) rfl).of_linearize h₂
  rw [hfactors]
  refine .cons ⟨hterms₁.trans ?_, by rw [hrhs₁]; rfl⟩
    (.cons ⟨hterms₂.trans ?_, by rw [hrhs₂]; rfl⟩ .nil)
  · change List.zip [x] (Factor.splitColumns (Mat.identity 1 * Mat.identity 1) 0 [1]) = _
    rw [hidentity, Factor.splitColumns_identity]
    rfl
  · change List.zip [x, y]
      (Factor.splitColumns (Mat.identity 1 * (-Mat.identity 1 : Mat ℝ).beside (Mat.identity 1)) 0
      [1, 1]) = _
    rw [hdifference, Factor.splitColumns_difference]
    rfl

/-- Moving `x` by one changes the error as the linearization says. A step from the start leads to
the least error, and a run ends there. -/
theorem solved_from_start :
    graph.IsEuclidean ∧ ∃ s next r c' linear a,
      (Optimizer.build graph config ordering DirectMethod.qr.solver).outcome = .ok s ∧
      s.config.retract (KeyMap.empty.insert x ⟨[1]⟩) = .ok c' ∧
        (graph.linearize s.config).outcome = .ok linear ∧
      linear.error? (KeyMap.empty.insert x ⟨[1]⟩) = some a ∧ (graph.error c').outcome = .ok a ∧
      (s.step .silent).outcome = .ok next ∧ next.IsOptimal ∧
      (s.gaussNewton ⟨0, 1⟩ .silent).outcome = .ok r ∧ r.status = .converged ∧ r.iterations ≤ 2 ∧
      r.optimizer = next := by
  obtain ⟨s, hs, hgraph, hconfig⟩ := exists_build
  obtain ⟨hconsistent, hparams, -⟩ := Optimizer.build_spec hs
  have hg : s.graph.IsEuclidean := hgraph ▸ isEuclidean_graph
  have hfits : s.config.Fits (KeyMap.empty.insert x ⟨[1]⟩) := by
    intro k v hv
    rw [KeyMap.get?_insert, KeyMap.get?_empty] at hv
    split_ifs at hv with hk
    cases hv
    rw [hconfig, hk]
    exact ⟨.rn ⟨[1]⟩, rfl, rfl⟩
  obtain ⟨linear, hlinear⟩ := hg.exists_linearize hconsistent.error_eq
  obtain ⟨net, hnet⟩ := exists_eliminate
  obtain ⟨net', hnet'⟩ := GaussianGraph.exists_eliminate_of_sameBlocks
    (sameBlocks_of_linearize (hgraph ▸ hlinear)) hnet
  obtain ⟨δ, -, -, hstep⟩ :=
    hconsistent.exists_step hg hlinear (hconsistent.ordering_eq.symm ▸ hnet')
  obtain ⟨hexact, hsolves⟩ := isEuclidean_graph.solved_in_one_step
  obtain ⟨c', linear', a, hc', hlinear', ha, ha'⟩ :=
    hexact s.config s.error _ (hgraph ▸ hconsistent.error_eq) hfits
  obtain ⟨-, -, hoptimal, hrun⟩ := hsolves config ordering s .silent _ (.start hs) (hstep .silent)
  obtain ⟨r, hr⟩ := hrun ⟨0, 1⟩ .silent one_pos le_rfl (by rw [hparams]; decide)
  exact ⟨isEuclidean_graph, s, _, r, c', linear', a, hs, hc', hlinear', ha, ha', hstep .silent,
    hoptimal, hr⟩

end Walk

end Smoothing
