import Mathlib
import Smoothing.Proofs.Factor
import Smoothing.Proofs.Optimizer.Reachable
import Smoothing.Proofs.Scalar.Binary64

/-!
# Hard constraints hold in every state

The optimizer never looks at the hard constraints of a problem. A violated one costs an error that
is not finite, so the error of the problem is not finite either, and every way to another
configuration asks that it is. So the hard constraints of a problem hold in all of its states, and
linearizing never meets a violated one (`Optimizer.Reachable.hard_constraints_hold`). All this needs
of the scalars is that a sum is finite only if both terms are, and that the error of a violated
constraint is not.
-/

namespace Smoothing

variable {α : Type} [Scalar α]

theorem Scalar.isFinite_of_sum (hadd : ∀ a b : α, Scalar.isFinite (a + b) = true →
      Scalar.isFinite a = true ∧ Scalar.isFinite b = true) {l : List α}
      (h : Scalar.isFinite (Scalar.sum l) = true) :
    ∀ b ∈ l, Scalar.isFinite b = true := by
  have hfoldl : ∀ (l : List α) (a : α), Scalar.isFinite (l.foldl (· + ·) a) = true →
      Scalar.isFinite a = true ∧ ∀ b ∈ l, Scalar.isFinite b = true := by
    intro l
    induction l with
    | nil => exact fun a ha => ⟨ha, fun b hb => absurd hb List.not_mem_nil⟩
    | cons b l ih =>
      intro a ha
      obtain ⟨hab, hl⟩ := ih (a + b) ha
      exact ⟨(hadd a b hab).1, List.forall_mem_cons.mpr ⟨(hadd a b hab).2, hl⟩⟩
  exact (hfoldl l 0 h).2

/-! ### Hard constraints at a configuration -/

/-- Asking for a Jacobian is no reason to find a constraint violated. -/
def CustomFactor.IsSteady (f : CustomFactor α) : Prop :=
  ∀ values k a, f.evaluate values true = .error (.cause (.infeasible k a)) →
    ∃ stop, f.evaluate values false = .error stop

/-- **A hard constraint with a finite error is satisfied.** -/
theorem EqualityFactor.holdsAt_of_error (hinfinity : Scalar.isFinite (Scalar.infinity : α) = false)
    {f : EqualityFactor α} {c : Config α} {e : α} (hhard : f.allowError = false)
    (he : (Factor.equality f).error c = .ok e) (hfinite : Scalar.isFinite e = true) :
    f.HoldsAt c := by
  simp only [Factor.error] at he
  cases hx : c.get? f.key with
  | none => simp [hx] at he
  | some x =>
    simp only [hx, EqualityFactor.error] at he
    cases hd : f.feasible.deviation f.key x with
    | error s => simp [hd, bind, Except.bind] at he
    | ok d =>
      refine ⟨x, d, hx, hd, ?_⟩
      by_contra hviolated
      simp only [hd, bind, Except.bind, hhard, hviolated, Bool.false_eq_true, if_false, pure,
        Except.pure, Except.ok.injEq] at he
      rw [← he, hinfinity] at hfinite
      cases hfinite

/-! ### Where a constraint is found violated -/

theorem Value.deviation_ne_infeasible {key k : Key} {target x : Value α} {a : α} :
    target.deviation key x ≠ .error (.cause (.infeasible k a)) := by
  unfold Value.deviation
  split
  · simp
  · next e _ => cases e <;> simp [FactorError.ofGroup]

namespace Factor

variable {f : Factor α} {c : Config α} {k : Key} {a : α}

omit [Scalar α] in
theorem lookUp_ne_infeasible {ks : List Key} : lookUp c ks ≠ .error (.cause (.infeasible k a)) := by
  induction ks with
  | nil => simp [lookUp]
  | cons j ks ih =>
    rw [lookUp]
    split
    · simp
    · cases h : lookUp c ks with
      | error e => simpa [h, bind, Except.bind] using ih
      | ok vs => simp [bind, Except.bind, pure, Except.pure]

theorem checkResidual_ne_infeasible {e : Vec α} {dim : ℕ} :
    checkResidual e dim ≠ .error (.cause (.infeasible k a)) := by
  unfold checkResidual
  split_ifs <;> simp

theorem exists_of_linearize_infeasible (h : f.linearize c = .error (.cause (.infeasible k a))) :
    ∃ values, f.values c = .ok values ∧
    f.evaluate values true = .error (.cause (.infeasible k a)) := by
  unfold linearize at h
  cases hvalues : f.values c with
  | error e =>
    simp only [hvalues, bind, Except.bind] at h
    exact absurd (Except.error.inj h ▸ hvalues) lookUp_ne_infeasible
  | ok values =>
    refine ⟨values, rfl, ?_⟩
    cases hr : f.evaluate values true with
    | error e => simpa [hvalues, hr, bind, Except.bind] using h
    | ok r =>
      exfalso
      simp only [hvalues, hr, bind, Except.bind] at h
      split at h
      · cases h
      · split at h
        · next e he => exact checkResidual_ne_infeasible (Except.error.inj h ▸ he)
        · split_ifs at h
          · cases h
          · cases h
          · split at h <;> cases h

/-- A constraint is found violated by a hard constraint that is, or by a factor with an evaluation
of its own. -/
theorem exists_of_evaluate_infeasible {values : List (Value α)}
    (h : f.evaluate values true = .error (.cause (.infeasible k a))) :
    (∃ g x rest e, f = .equality g ∧ values = x :: rest ∧ g.allowError = false ∧
        g.feasible.deviation g.key x = .ok e ∧ g.isFeasible e = false) ∨ ∃ g, f = .custom g := by
  cases f with
  | prior f =>
    change f.evaluate values true = _ at h
    cases values with
    | nil => cases h
    | cons x rest =>
      cases hd : f.prior.deviation f.key x with
      | error s =>
        simp only [PriorFactor.evaluate, hd, bind, Except.bind] at h
        exact absurd (Except.error.inj h ▸ hd) Value.deviation_ne_infeasible
      | ok e =>
        simp only [PriorFactor.evaluate, hd, bind, Except.bind] at h
        cases h
  | between f =>
    change f.evaluate values true = _ at h
    unfold BetweenFactor.evaluate at h
    split at h
    · split at h
      · split_ifs at h <;> cases h
      · cases h
      · cases h
      · cases h
      · cases h
      · split_ifs at h <;> cases h
    · cases h
  | equality f =>
    change f.evaluate values true = _ at h
    cases values with
    | nil => cases h
    | cons x rest =>
      cases hd : f.feasible.deviation f.key x with
      | error s =>
        simp only [EqualityFactor.evaluate, hd, bind, Except.bind] at h
        exact absurd (Except.error.inj h ▸ hd) Value.deviation_ne_infeasible
      | ok e =>
        simp only [EqualityFactor.evaluate, hd, bind, Except.bind] at h
        split at h
        · next hviolated =>
          rw [Bool.and_eq_true, Bool.not_eq_true', Bool.not_eq_true'] at hviolated
          exact .inl ⟨f, x, rest, e, rfl, rfl, hviolated.1, hd, hviolated.2⟩
        · cases h
  | function f =>
    change f.evaluate values true = _ at h
    unfold FunctionFactor.evaluate at h
    split at h
    · cases h
    · split at h
      · cases h
      · split_ifs at h
        · cases h
        · split at h <;> cases h
    · cases h
  | custom f => exact .inr ⟨f, rfl⟩

/-- Where all hard constraints hold and the problem has an error, no factor finds a constraint
violated. -/
theorem linearize_ne_infeasible {e : α}
    (hhard : ∀ g, f = .equality g → g.allowError = false → g.HoldsAt c)
    (hsteady : ∀ g, f = .custom g → g.IsSteady) (he : f.error c = .ok e) :
    f.linearize c ≠ .error (.cause (.infeasible k a)) := by
  intro h
  obtain ⟨values, hvalues, hevaluate⟩ := exists_of_linearize_infeasible h
  obtain ⟨g, x, rest, d, rfl, rfl, hallow, hd, hviolated⟩ | ⟨g, rfl⟩ :=
    exists_of_evaluate_infeasible hevaluate
  · obtain ⟨y, d', hy, hd', hfeasible⟩ := hhard g rfl hallow
    have hlookUp : (Factor.equality g).values c = .ok [y] := by
      simp [Factor.values, Factor.keys, lookUp, hy, bind, Except.bind, pure, Except.pure]
    obtain ⟨rfl, -⟩ := List.cons.inj (Except.ok.inj (hvalues.symm.trans hlookUp))
    rw [Except.ok.inj (hd.symm.trans hd'), hfeasible] at hviolated
    cases hviolated
  · obtain ⟨stop, hstop⟩ := hsteady g rfl values k a hevaluate
    have hunwhitened : (Factor.custom g).unwhitened c = .error stop := by
      simp [unwhitened, hvalues, evaluate, hstop, bind, Except.bind]
    simp [Factor.error, whitened, hunwhitened, bind, Except.bind] at he

end Factor

namespace Optimizer

variable {graph : FactorGraph α} {config : Config α} {ordering : EliminationOrder}
  {solver : LinearSolver α} {s : Optimizer α}

/-- **Hard constraints hold in every state of an optimizer,** and linearizing there does not find
one violated, if the evaluations of the custom factors do not depend on whether a Jacobian is
wanted. -/
theorem Reachable.hard_constraints_hold
    (hadd : ∀ a b : α, Scalar.isFinite (a + b) = true →
      Scalar.isFinite a = true ∧ Scalar.isFinite b = true)
    (hinfinity : Scalar.isFinite (Scalar.infinity : α) = false)
    (hs : Reachable graph config ordering solver s) :
    (∀ f, .equality f ∈ s.graph.factors → f.allowError = false → f.HoldsAt s.config) ∧
      ((∀ f, .custom f ∈ graph.factors → f.IsSteady) → ∀ i k a,
        (s.graph.linearize s.config).outcome ≠ .error (.cause (.factor i (.infeasible k a)))) := by
  obtain ⟨errors, herrors, hsum⟩ := FactorGraph.exists_errors hs.consistent.error_eq
  have hfinite : ∀ b ∈ errors, Scalar.isFinite b = true :=
    Scalar.isFinite_of_sum hadd (hsum ▸ hs.consistent.isFinite_error)
  have herror : ∀ f ∈ s.graph.factors, ∃ e, f.error s.config = .ok e ∧
      Scalar.isFinite e = true := by
    intro f hf
    obtain ⟨i, hi, rfl⟩ := List.getElem_of_mem hf
    have hi' : i < errors.length := herrors.length_eq ▸ hi
    exact ⟨errors[i], herrors.get hi hi', hfinite _ (List.getElem_mem hi')⟩
  have hhard : ∀ f, .equality f ∈ s.graph.factors → f.allowError = false → f.HoldsAt s.config := by
    intro f hf hallow
    obtain ⟨e, he, hefinite⟩ := herror _ hf
    exact f.holdsAt_of_error hinfinity hallow he hefinite
  refine ⟨hhard, fun hsteady i k a h => ?_⟩
  obtain ⟨f, hf, hlinearize⟩ := FactorGraph.exists_of_linearize_eq_error h
  have hmem : f ∈ s.graph.factors := List.mem_of_getElem? hf
  obtain ⟨e, he, -⟩ := herror f hmem
  refine Factor.linearize_ne_infeasible (fun g hg => hhard g (hg ▸ hmem)) (fun g hg => ?_)
    he hlinearize
  exact hsteady g (hs.consistent.graph_eq ▸ hg ▸ hmem)

end Optimizer

/-! ### An anchored variable

A hard constraint keeps `x` at one, and a factor with an evaluation of its own pulls `y` to
`x + 2`. -/

namespace Anchor

def x : Key := ⟨'x', 1⟩

def y : Key := ⟨'x', 2⟩

/-- Keeps `x` at one. -/
def anchor : EqualityFactor Float where
  key := x
  feasible := .rn ⟨[1.0]⟩
  noise := ⟨.isotropic, Mat.diagonal ⟨[1e6]⟩⟩
  tolerance := 1e-9
  allowError := false

/-- Measures `y - x` as two. -/
def offset : CustomFactor Float where
  kind := .function
  keys := [x, y]
  noise := ⟨.unit, Mat.identity 1⟩
  measured := .rn ⟨[2.0]⟩
  evaluate
    | [.rn x, .rn y], wantJacobian =>
      .ok ⟨y - x - ⟨[2.0]⟩,
        if wantJacobian then some (Mat.ofFn 1 2 fun _ j => if j = 0 then -1 else 1) else none⟩
    | values, _ => .error (.cause (.dimension 2 values.length))

def graph : FactorGraph Float := ⟨[.equality anchor, .custom offset]⟩

def config : Config Float := (KeyMap.empty.insert x (.rn ⟨[1.0]⟩)).insert y (.rn ⟨[7.0]⟩)

def ordering : EliminationOrder := .natural graph

def solver : LinearSolver Float := DirectMethod.qr.solver

/-- The start and a damped step. -/
def travel : OptimizerRun Float (Optimizer Float) := do
  let s ← Optimizer.build graph config ordering solver
  s.dampedStep .silent

theorem isSteady_offset : offset.IsSteady := by
  intro values k a h
  simp only [offset] at h
  split at h
  · cases h
  · cases h

theorem hard_constraints_hold_travel :
    ∃ s, travel.outcome = .ok s ∧
      (∀ f, .equality f ∈ s.graph.factors → f.allowError = false → f.HoldsAt s.config) ∧
      ∀ i k a, (s.graph.linearize s.config).outcome ≠
        .error (.cause (.factor i (.infeasible k a))) := by
  have hok : travel.outcome.isOk = true := by decide +kernel
  obtain ⟨s, h⟩ := Logged.exists_of_isOk hok
  obtain ⟨s₀, h₀, hs⟩ := Logged.outcome_bind_eq_ok.mp h
  have hsteady : ∀ f, .custom f ∈ graph.factors → f.IsSteady := by
    intro f hf
    obtain rfl : f = offset := by simpa [graph] using hf
    exact isSteady_offset
  obtain ⟨hhard, hlinearize⟩ := Optimizer.Reachable.hard_constraints_hold Binary64.isFinite_of_add
    Binary64.isFinite_infinity (.dampedStep (.start h₀) hs)
  exact ⟨s, h, hhard, hlinearize hsteady⟩

end Anchor

end Smoothing
