import Mathlib
import Smoothing.Proofs.Config.RoundTrip
import Smoothing.Proofs.FactorGraph.Linearization
import Smoothing.Proofs.Linear.Damping
import Smoothing.Proofs.Linear.LeastSquares
import Smoothing.Proofs.Optimizer.Reachable

/-!
# Keys and sizes agree in every state

Whether a configuration has a value for every variable, and of which dimension, is settled when an
optimizer is built. A linearization at a state has the factors of the problem with their keys
(`FactorGraph.keys_of_linearize`), and blocks as wide as the values
(`FactorGraph.consistent_of_linearize`). Damping and elimination keep these widths, so elimination
gives an update with a block of the right size for exactly the variables of the problem, which can
be applied, or it meets a variable that is not determined
(`Optimizer.Consistent.exists_isAnswered`). A step fails for other reasons than keys and sizes that
do not agree: `Optimizer.Reachable.agrees`.
-/

namespace Smoothing

/-! ### Linearizations -/

section Linearize

variable {α : Type} [Scalar α] {g : FactorGraph α} {c : Config α} {linear : GaussianGraph α}

/-- The dimensions of the tangent spaces. -/
def Config.dims (c : Config α) : KeyMap ℕ := c.map fun _ x => x.dim

omit [Scalar α] in
theorem Config.get?_dims (c : Config α) (k : Key) : c.dims.get? k = (c.get? k).map Value.dim :=
  KeyMap.get?_map _ c k

namespace FactorGraph

theorem keys_eq_of_linearize (h : (g.linearize c).outcome = .ok linear) : linear.keys = g.keys := by
  have hflat : ∀ {fs : List (Factor α)} {ls : List (GaussianFactor α)},
      List.Forall₂ (fun f l => l.keys = f.keys) fs ls →
      ls.flatMap GaussianFactor.keys = fs.flatMap Factor.keys := by
    intro fs ls hfs
    induction hfs with
    | nil => rfl
    | cons hl _ ih => rw [List.flatMap_cons, List.flatMap_cons, hl, ih]
  exact congrArg KeyMap.setOf (hflat (keys_of_linearize h))

/-- **The blocks of a linearization** are as wide as the tangent spaces of the values. -/
theorem consistent_of_linearize (h : (g.linearize c).outcome = .ok linear) :
    Consistent c.dims linear.factors := by
  intro l hl t ht
  obtain ⟨f, -, hf⟩ := exists_of_mem_linearize h hl
  obtain ⟨x, hx, hcols⟩ := (Factor.exists_of_linearize hf).2 t ht
  rw [Config.get?_dims, hx, hcols, Option.map_some]

/-- **The dimensions of a linearization** are those of the values. -/
theorem exists_of_dims (h : (g.linearize c).outcome = .ok linear) {dims : KeyMap ℕ}
    (hdims : linear.dims.outcome = .ok dims) {k : Key} (hk : k ∈ g.keys.keys) :
    ∃ x, c.get? k = some x ∧ dims.get? k = some x.dim := by
  obtain ⟨l, hl, hkl⟩ := GaussianGraph.mem_keys_keys.mp (keys_eq_of_linearize h ▸ hk)
  obtain ⟨t, ht, rfl⟩ := List.mem_map.mp hkl
  have hcols := consistent_of_linearize h l hl t ht
  rw [Config.get?_dims, Option.map_eq_some_iff] at hcols
  obtain ⟨x, hx, hcols⟩ := hcols
  exact ⟨x, hx, hcols ▸ (GaussianGraph.dims_of_ok hdims).1 l hl t ht⟩

end FactorGraph

end Linearize

/-! ### Linear problems of a state -/

namespace Optimizer

/-- A linear problem has the variables and the dimensions of a state. Elimination gives it an answer
that the state can follow, or it finds a variable that is not determined. -/
structure IsAnswered (s : Optimizer ℝ) (linear : GaussianGraph ℝ) (dims : KeyMap ℕ) : Prop where
  dims_eq : linear.dims.outcome = .ok dims
  keys_dims : dims.keys = s.graph.keys.keys
  get?_dims : ∀ k ∈ s.graph.keys.keys, ∃ x, s.config.get? k = some x ∧ dims.get? k = some x.dim
  solve : (∃ δ c, (DirectMethod.qr.solve linear s.ordering).outcome = .ok δ ∧
      δ.keys = s.graph.keys.keys ∧ δ.widths = dims ∧ s.config.retract δ = .ok c) ∨
    ∃ k, (DirectMethod.qr.solve linear s.ordering).outcome = .error (.cause (.degenerate k))

variable {graph : FactorGraph ℝ} {config : Config ℝ} {ordering : EliminationOrder}
  {solver : LinearSolver ℝ} {s s' : Optimizer ℝ} {v : Verbosity} {linear : GaussianGraph ℝ}
  {lambda : ℝ}

theorem fits_of_widths {c : Config ℝ} {δ : BlockVector ℝ} {dims : KeyMap ℕ} (hδ : δ.widths = dims)
    (hdims : ∀ k ∈ dims.keys, ∃ x, c.get? k = some x ∧ dims.get? k = some x.dim) : c.Fits δ := by
  intro k w hw
  have hkw : dims.get? k = some w.size := hδ ▸ BlockVector.get?_widths_of_get? hw
  obtain ⟨x, hx, hd⟩ := hdims k (KeyMap.mem_keys_iff_exists.mpr ⟨_, hkw⟩)
  exact ⟨x, hx, Option.some.inj (hkw.symm.trans hd)⟩

namespace Consistent

variable (hs : Consistent graph config ordering solver s)
include hs

/-- **A damped linearization is answered.** -/
theorem exists_isAnswered (hkeys : ∀ f ∈ s.graph.factors, f.keys ≠ [])
    (hlinear : (s.graph.linearize s.config).outcome = .ok linear) (hlambda : 0 ≤ lambda) :
    ∃ damped dims, (linear.damped lambda).outcome = .ok damped ∧ s.IsAnswered damped dims := by
  have hkeys_eq : linear.keys = s.graph.keys := FactorGraph.keys_eq_of_linearize hlinear
  obtain ⟨dims, hdims⟩ := GaussianGraph.exists_dims (FactorGraph.consistent_of_linearize hlinear)
  obtain ⟨fs, hdamped, hfs⟩ := GaussianGraph.exists_damped hdims hlambda
  have hdims' := GaussianGraph.dims_damped hdims hfs
  have hkeys_dims : dims.keys = s.graph.keys.keys := hkeys_eq ▸ (GaussianGraph.dims_of_ok hdims).2
  have hvalues : ∀ k ∈ s.graph.keys.keys, ∃ x, s.config.get? k = some x ∧
      dims.get? k = some x.dim :=
    fun _ hk => FactorGraph.exists_of_dims hlinear hdims hk
  have hne : ∀ f ∈ linear.factors ++ fs, f.keys ≠ [] := by
    intro l hl
    rcases List.mem_append.mp hl with hl | hl
    · obtain ⟨f, hf, hfl⟩ := FactorGraph.exists_of_mem_linearize hlinear hl
      exact (Factor.exists_of_linearize hfl).1 ▸ hkeys f hf
    · obtain ⟨k, w, -, rfl⟩ := hfs l hl
      exact List.cons_ne_nil k []
  have hperm : s.ordering.keys.Perm (⟨linear.factors ++ fs⟩ : GaussianGraph ℝ).keys.keys := by
    rw [KeyMap.keys_eq_of_mem_iff fun k => GaussianGraph.mem_keys_damped hdims hfs, hkeys_eq]
    exact hs.perm_keys
  refine ⟨_, dims, hdamped, hdims', hkeys_dims, hvalues, ?_⟩
  simp only [DirectMethod.solve, Logged.outcome_report_bind]
  rcases GaussianGraph.optimize_total hdims' hne hperm with ⟨δ, hδ, hwidths⟩ | hdegenerate
  · have hfits : s.config.Fits δ := fits_of_widths hwidths fun k hk => hvalues k (hkeys_dims ▸ hk)
    refine .inl ⟨δ, _, hδ, ?_, hwidths, Config.retract_of_fits hfits⟩
    rw [← BlockVector.keys_widths, hwidths, hkeys_dims]
  · exact .inr hdegenerate

end Consistent

/-! ### Failures -/

end Optimizer

/-- The failure says that keys or sizes do not agree. -/
def OptimizerError.isMismatch {α : Type} : OptimizerError α → Bool
  | .linear (.missingKey _) | .linear (.sizes _) | .linear (.ordering _) => true
  | .problem (.missingKey _ _) | .problem (.ordering _) | .problem (.group _) => true
  | _ => false

/-- The failure has another reason than keys or sizes that do not agree. A factor that misses a
variable says so in an evaluation of its own. -/
structure OptimizerError.IsProper {α : Type} [Scalar α] (g : FactorGraph α) (e : OptimizerError α) :
    Prop where
  isMismatch_eq : e.isMismatch = false
  custom : ∀ i k, e = .problem (.factor i (.missingKey k)) →
    ∃ f xs wantJacobian, g.factors[i]? = some (.custom f) ∧
    xs.length = f.keys.length ∧ f.evaluate xs wantJacobian = .error (.cause (.missingKey k))

section Validated

variable {α : Type} [Scalar α] {g : FactorGraph α} {c : Config α}
  (hv : (g.validate c).outcome = .ok ()) {e : ProblemError α}
include hv

/-- The failure of a factor is proper: its variables have values, so it does not miss one by
itself. -/
theorem OptimizerError.isProper_of_factor {i : ℕ} {f : Factor α} {e : FactorError α}
    (hf : g.factors[i]? = some f)
    (h : f.linearize c = .error (.cause e) ∨ f.error c = .error (.cause e)) :
    (OptimizerError.problem (.factor i e)).IsProper g := by
  refine ⟨rfl, fun j k hjk => ?_⟩
  cases hjk
  have hvalues := FactorGraph.validate_eq_ok_iff.mp hv f (List.mem_of_getElem? hf)
  obtain ⟨f', xs, wantJacobian, rfl, hlen, hevaluate⟩ := Factor.custom_of_missingKey hvalues h
  exact ⟨f', xs, wantJacobian, hf, hlen, hevaluate⟩

theorem OptimizerError.isProper_of_linearize (h : (g.linearize c).outcome = .error (.cause e)) :
    (OptimizerError.problem e).IsProper g := by
  obtain ⟨i, f, e', rfl, hf, he⟩ := FactorGraph.exists_factor_of_linearize_eq_error hv h
  exact isProper_of_factor hv hf (.inl he)

theorem OptimizerError.isProper_of_error (h : (g.error c).outcome = .error (.cause e)) :
    (OptimizerError.problem e).IsProper g := by
  obtain ⟨i, f, e', rfl, hf, he⟩ := FactorGraph.exists_factor_of_error_eq_error hv h
  exact isProper_of_factor hv hf (.inr he)

end Validated

namespace Optimizer

variable {graph : FactorGraph ℝ} {config : Config ℝ} {ordering : EliminationOrder}
  {solver : LinearSolver ℝ} {s s' : Optimizer ℝ} {v : Verbosity} {linear : GaussianGraph ℝ}
  {lambda : ℝ} {e : OptimizerError ℝ}

theorem raised_iterate_nonneg (hp : s.params.refused? = none) (hlambda : 0 ≤ lambda) (i : ℕ) :
    0 ≤ s.raised^[i] lambda := by
  cases i with
  | zero => exact hlambda
  | succ i =>
    rw [Function.iterate_succ_apply', raised, Scalar.max_real]
    exact (Params.refused?_eq_none_iff.mp hp).minRejected_pos.le.trans (le_max_right _ _)

theorem exists_of_update {δ : BlockVector ℝ} (h : (s.update v).outcome = .ok δ) :
    ∃ linear, (s.graph.linearize s.config).outcome = .ok linear ∧ s.Solves linear 0 δ := by
  obtain ⟨linear, hlinear, hδ⟩ := update_eq_ok_iff.mp h
  exact ⟨linear, hlinear, linear, linear.outcome_damped_zero, hδ⟩

namespace Consistent

variable (hs : Consistent graph config ordering solver s)
include hs

theorem validate_of_shape {c : Config ℝ} (hc : c.shape = s.config.shape) :
    (s.graph.validate c).outcome = .ok () :=
  FactorGraph.validate_of_shape hc (FactorGraph.error_eq_ok_iff.mp hs.error_eq).1

theorem isProper_of_linearize {m : Method} (h : (s.linearize m v).outcome = .error (.cause e)) :
    e.IsProper s.graph := by
  obtain ⟨t, ht, he⟩ := linearize_eq_error_iff.mp h
  cases t with
  | sizes => cases he
  | cause e' =>
    cases he
    exact OptimizerError.isProper_of_linearize (hs.validate_of_shape rfl) ht

theorem isProper_of_trial {c : Config ℝ} {δ : BlockVector ℝ} {t : Stop (ProblemError ℝ)}
    (hc : s.config.retract δ = .ok c) (ht : (s.graph.error c).outcome = .error t)
    (he : t.map .problem = .cause e) : e.IsProper s.graph := by
  cases t with
  | sizes => cases he
  | cause e' =>
    cases he
    exact OptimizerError.isProper_of_error (hs.validate_of_shape (Config.shape_retract hc)) ht

variable (hkeys : ∀ f ∈ s.graph.factors, f.keys ≠ []) (hsolver : s.solver = DirectMethod.qr.solver)
include hkeys hsolver

section Linearized

variable (hlinear : (s.graph.linearize s.config).outcome = .ok linear) (hlambda : 0 ≤ lambda)
include hlinear hlambda

theorem exists_retract {δ : BlockVector ℝ} (hδ : s.Solves linear lambda δ) :
    ∃ c, s.config.retract δ = .ok c := by
  obtain ⟨damped, hdamped, hδ⟩ := hδ
  obtain ⟨damped', dims, hdamped', hanswered⟩ := hs.exists_isAnswered hkeys hlinear hlambda
  obtain rfl : damped' = damped := Except.ok.inj (hdamped'.symm.trans hdamped)
  rw [hsolver] at hδ
  rcases hanswered.solve with ⟨δ', c, hδ', -, -, hc⟩ | ⟨k, hk⟩
  · exact ⟨c, Except.ok.inj (hδ'.symm.trans hδ) ▸ hc⟩
  · cases hk.symm.trans hδ

theorem exists_degenerate {damped : GaussianGraph ℝ}
    (hdamped : (linear.damped lambda).outcome = .ok damped) {t : Stop (LinearError ℝ)}
    (ht : (s.solver.solve damped s.ordering).outcome = .error t) :
    ∃ k, t = .cause (.degenerate k) := by
  obtain ⟨damped', dims, hdamped', hanswered⟩ := hs.exists_isAnswered hkeys hlinear hlambda
  obtain rfl : damped' = damped := Except.ok.inj (hdamped'.symm.trans hdamped)
  rw [hsolver] at ht
  rcases hanswered.solve with ⟨δ, c, hδ, -⟩ | ⟨k, hk⟩
  · cases hδ.symm.trans ht
  · exact ⟨k, (Except.error.inj (hk.symm.trans ht)).symm⟩

end Linearized

/-- **An undamped step does not fail for keys or sizes.** -/
theorem isProper_of_step (h : (s.step v).outcome = .error (.cause e)) : e.IsProper s.graph := by
  rcases step_eq_error_iff.mp h with h | ⟨δ, hδ, h⟩
  · rcases update_eq_error_iff.mp h with ⟨t, ht, he⟩ | ⟨linear, hlinear, t, ht, he⟩
    · exact hs.isProper_of_linearize
        (linearize_eq_error_iff (m := .gaussNewton) (v := v) |>.mpr ⟨t, ht, he⟩)
    · obtain ⟨k, rfl⟩ :=
        hs.exists_degenerate hkeys hsolver hlinear le_rfl linear.outcome_damped_zero ht
      cases he
      exact ⟨rfl, fun _ _ h => by cases h⟩
  obtain ⟨linear, hlinear, hδ⟩ := exists_of_update hδ
  obtain ⟨c, hc⟩ := hs.exists_retract hkeys hsolver hlinear le_rfl hδ
  rcases h with ⟨e', hc', -⟩ | ⟨c', hc', ⟨t, ht, he⟩ | ⟨e', -, -, he⟩⟩
  · cases hc.symm.trans hc'
  · exact hs.isProper_of_trial hc' ht he
  · cases he
    exact ⟨rfl, fun _ _ h => by cases h⟩

theorem isProper_of_aborts (hlinear : (s.graph.linearize s.config).outcome = .ok linear)
    (hlambda : 0 ≤ lambda) {stop : Stop (OptimizerError ℝ)} (h : s.Aborts linear lambda stop)
    (he : stop = .cause e) : e.IsProper s.graph := by
  cases h with
  | unusable hunusable => exact absurd (.inr ⟨rfl, not_lt.mpr hlambda⟩) hunusable
  | widths _ hdamped =>
    obtain ⟨damped, dims, hdamped', -⟩ := hs.exists_isAnswered hkeys hlinear hlambda
    cases hdamped'.symm.trans hdamped
  | unsolved hdamped hsolve hnumerical =>
    obtain ⟨k, rfl⟩ := hs.exists_degenerate hkeys hsolver hlinear hlambda hdamped hsolve
    cases hnumerical _ rfl
  | update hδ hc =>
    obtain ⟨c, hc'⟩ := hs.exists_retract hkeys hsolver hlinear hlambda hδ
    cases hc'.symm.trans hc
  | trial _ hc ht => exact hs.isProper_of_trial hc ht he

/-- **A damped step does not fail for keys or sizes.** -/
theorem isProper_of_dampedStep (hp : s.params.refused? = none) (hlambda : 0 ≤ s.lambda)
    (h : (s.dampedStep v).outcome = .error (.cause e)) : e.IsProper s.graph := by
  rcases Logged.outcome_bind_eq_error.mp h with h | ⟨linear, hlinear, h⟩
  · exact hs.isProper_of_linearize h
  rcases search_eq_error_iff.mp h with ⟨i, -, -, haborts⟩ | ⟨-, he⟩
  · exact hs.isProper_of_aborts hkeys hsolver (linearize_eq_ok_iff.mp hlinear)
      (raised_iterate_nonneg hp hlambda i) haborts rfl
  · cases he
    exact ⟨rfl, fun _ _ h => by cases h⟩

end Consistent

/-- **Keys and sizes agree in every state.** A linearization has the factors of the problem with
their keys. Damped, it has exactly the variables of the problem, each as wide as the tangent space
at its value, and elimination gives an update of these widths that can be applied, or names a
variable that is not determined. No step that solves by elimination fails for keys or sizes that do
not agree. -/
theorem Reachable.agrees (h : Reachable graph config ordering solver s)
    (hkeys : ∀ f ∈ graph.factors, f.keys ≠ []) :
    (∀ linear, (s.graph.linearize s.config).outcome = .ok linear →
      List.Forall₂ (fun f l => l.keys = f.keys) s.graph.factors linear.factors ∧
      ∀ lambda, 0 ≤ lambda → ∃ damped dims, (linear.damped lambda).outcome = .ok damped ∧
        s.IsAnswered damped dims) ∧
    (solver = DirectMethod.qr.solver → ∀ v e,
      ((s.step v).outcome = .error (.cause e) ∨ (s.dampedStep v).outcome = .error (.cause e)) →
        e.IsProper s.graph) := by
  have hs := h.consistent
  rw [← hs.graph_eq] at hkeys
  refine ⟨fun linear hlinear => ⟨FactorGraph.keys_of_linearize hlinear, fun lambda hlambda =>
    hs.exists_isAnswered hkeys hlinear hlambda⟩, fun hsolver v e he => ?_⟩
  rw [← hs.solver_eq] at hsolver
  rcases he with he | he
  · exact hs.isProper_of_step hkeys hsolver he
  · obtain ⟨hparams, hlambda⟩ := h.adjusted
    have hnonneg : 0 ≤ s.lambda := by simpa [Params.isDamping] using hlambda
    exact hs.isProper_of_dampedStep hkeys hsolver hparams hnonneg he

end Optimizer

/-! ### A start and a step

A prior on `x` at zero, and a relative measurement of one from `x` to `y`. -/

namespace Walk

def x : Key := ⟨'x', 1⟩

def y : Key := ⟨'x', 2⟩

noncomputable def graph : FactorGraph ℝ :=
  ⟨[.prior ⟨x, .rn ⟨[0]⟩, ⟨.unit, Mat.identity 1⟩⟩,
    .between ⟨x, y, .rn ⟨[1]⟩, ⟨.unit, Mat.identity 1⟩⟩]⟩

noncomputable def config : Config ℝ := (KeyMap.empty.insert x (.rn ⟨[1]⟩)).insert y (.rn ⟨[0]⟩)

/-- The last variable is eliminated first. -/
def ordering : EliminationOrder := ⟨[y, x], by decide⟩

theorem exists_build :
    ∃ s, (Optimizer.build graph config ordering DirectMethod.qr.solver).outcome = .ok s ∧
    s.graph = graph ∧
      s.config = config := ⟨_, rfl, rfl, rfl⟩

theorem agrees_start :
    ∃ s linear damped dims,
      (Optimizer.build graph config ordering DirectMethod.qr.solver).outcome = .ok s ∧
      (s.graph.linearize s.config).outcome = .ok linear ∧
      List.Forall₂ (fun f l => l.keys = f.keys) s.graph.factors linear.factors ∧
      (linear.damped 1).outcome = .ok damped ∧ s.IsAnswered damped dims ∧
      ∀ e, (s.step .silent).outcome = .error (.cause e) → e.IsProper s.graph := by
  obtain ⟨s, hs, hgraph, hconfig⟩ := exists_build
  have hkeys : ∀ f ∈ graph.factors, f.keys ≠ [] := by simp [graph, Factor.keys]
  obtain ⟨hanswered, hproper⟩ := Optimizer.Reachable.agrees (.start hs) hkeys
  obtain ⟨linear, hlinear⟩ : ∃ linear, (s.graph.linearize s.config).outcome = .ok linear := by
    rw [hgraph, hconfig]
    exact ⟨_, rfl⟩
  obtain ⟨hforall, hdamped⟩ := hanswered linear hlinear
  obtain ⟨damped, dims, hdamped, hdims⟩ := hdamped 1 zero_le_one
  exact ⟨s, linear, damped, dims, hs, hlinear, hforall, hdamped, hdims,
    fun e he => hproper rfl .silent e (.inl he)⟩

end Walk

end Smoothing
