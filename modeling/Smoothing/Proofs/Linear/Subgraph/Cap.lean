import Mathlib
import Smoothing.Proofs.Linear.Degenerate
import Smoothing.Proofs.Linear.Subgraph.Steps

/-!
# The cap of the iteration

Only the solver itself stops at the cap of the iteration: no elimination, no pass over a net and no
step does (`LinearRun.Uncapped`). So what is answered and what is told of a stop at the cap can be
read off (`conjugateGradient_eq_ok`, `conjugateGradient_eq_notConverged`), and whether the best
solution is accepted at the cap makes a difference there only (`outcome_solve_withAccept`).
-/

namespace Smoothing

variable {α : Type}

/-- A computation does not stop at the cap of the iteration. -/
def LinearRun.Uncapped {β : Type} (x : LinearRun α β) : Prop :=
  ∀ n residual best, x.outcome ≠ .error (.cause (.notConverged n residual best))

open LinearRun

namespace LinearRun.Uncapped

variable {β γ : Type}

theorem of_ok {x : LinearRun α β} {b : β} (h : x.outcome = .ok b) : Uncapped x := by
  intro n residual best hx
  rw [h] at hx
  cases hx

theorem of_error {x : LinearRun α β} {s : Stop (LinearError α)} (h : x.outcome = .error s)
    (hs : ∀ n residual best, s ≠ .cause (.notConverged n residual best)) : Uncapped x := by
  intro n residual best hx
  rw [h] at hx
  exact hs n residual best (Except.error.inj hx)

theorem bind {x : LinearRun α β} {f : β → LinearRun α γ} (hx : Uncapped x)
    (hf : ∀ b, Uncapped (f b)) : Uncapped (x >>= f) := by
  intro n residual best h
  rcases Logged.outcome_bind_eq_error.mp h with h | ⟨b, -, h⟩
  · exact hx n residual best h
  · exact hf b n residual best h

theorem fromOption (o : Option β) : Uncapped (Logged.fromOption o : LinearRun α β) := by
  cases o with
  | none => exact .of_error rfl (by simp)
  | some b => exact .of_ok rfl

end LinearRun.Uncapped

/-! ### Elimination and nets -/

theorem GaussianGraph.uncapped_noteWidths (dims : KeyMap ℕ) (ts : List (Key × Mat α)) :
    Uncapped (noteWidths dims ts) := by
  induction ts generalizing dims with
  | nil => exact .of_ok rfl
  | cons t ts ih =>
    rw [noteWidths]
    split
    · exact ih _
    split
    · exact ih _
    · exact .of_error rfl (by simp)

variable [Scalar α]

theorem GaussianGraph.uncapped_eliminate (g : GaussianGraph α) (o : EliminationOrder) :
    Uncapped (g.eliminate o) := by
  intro n residual best h
  rcases Logged.outcome_bind_eq_error.mp h with h | ⟨dims, hdims, h⟩
  · exact uncapped_noteWidths _ _ n residual best h
  rcases Elimination.eliminateAll_total o o.keys (dims_of_ok hdims).1
    with ⟨⟨cs, left⟩, hall⟩ | ⟨k, hall⟩
  · rw [Logged.outcome_bind_ok _ hall] at h
    cases left <;> cases h
  · rw [Logged.outcome_bind_error _ hall] at h
    cases h

namespace Conditional

theorem uncapped_subParents (x : BlockVector α) (y : Vec α) (ps : List (Key × Mat α)) :
    Uncapped (subParents x y ps) := by
  induction ps generalizing y with
  | nil => exact .of_ok rfl
  | cons t ps ih =>
    rw [subParents]
    split
    · exact .of_error rfl (by simp)
    split
    · exact ih _
    · exact .of_error rfl (by simp)

theorem uncapped_solveWith (c : Conditional α) (y : Vec α) (x : BlockVector α) :
    Uncapped (c.solveWith y x) := by
  refine .bind (uncapped_subParents _ _ _) fun rhs => ?_
  split
  · exact .of_error rfl (by simp)
  split
  · exact .of_ok rfl
  · exact .of_error rfl (by simp)

theorem uncapped_pushToParents (x : BlockVector α) (z : Vec α) (g : BlockVector α)
    (ps : List (Key × Mat α)) : Uncapped (pushToParents x z g ps) := by
  induction ps generalizing g with
  | nil => exact .of_ok rfl
  | cons t ps ih =>
    rw [pushToParents]
    split
    · exact ih _
    · exact .of_error rfl (by simp)

end Conditional

namespace BayesNet

theorem uncapped_solveBackwards (rhs : Conditional α → Vec α) (cs : List (Conditional α)) :
    Uncapped (solveBackwards rhs cs) := by
  induction cs with
  | nil => exact .of_ok rfl
  | cons c cs ih => exact .bind ih fun x => .bind (c.uncapped_solveWith _ _) fun v => .of_ok rfl

theorem uncapped_solveForwards (x g z : BlockVector α) (cs : List (Conditional α)) :
    Uncapped (solveForwards x g z cs) := by
  induction cs generalizing g z with
  | nil => exact .of_ok rfl
  | cons c cs ih =>
    rw [solveForwards]
    split
    · exact .of_error rfl (by simp)
    split
    · exact .of_error rfl (by simp)
    · exact .bind (Conditional.uncapped_pushToParents _ _ _ _) fun g => ih _ _

end BayesNet

namespace SubgraphSolver

variable {s : SubgraphSolver α} {g rest : GaussianGraph α} {net : BayesNet α} {xbar : BlockVector α}

/-! ### The parts of the solver -/

omit [Scalar α] in
theorem uncapped_split (s : SubgraphSolver α) (g : GaussianGraph α) : Uncapped (s.split g) := by
  unfold split
  split
  · exact .of_error rfl (by simp)
  · exact .of_ok rfl

theorem uncapped_apply (net : BayesNet α) (rest : GaussianGraph α) (y : BlockVector α) :
    Uncapped (apply net rest y) :=
  .bind (BayesNet.uncapped_solveBackwards _ _) fun _ => .bind (.fromOption _) fun _ =>
      .bind (.fromOption _) fun _ =>
    .bind (BayesNet.uncapped_solveForwards _ _ _ _) fun _ => .of_ok rfl

theorem uncapped_combine (net : BayesNet α) (xbar y : BlockVector α) :
    Uncapped (combine net xbar y) :=
  .bind (BayesNet.uncapped_solveBackwards _ _) fun _ => .of_ok rfl

theorem uncapped_rightHandSide (net : BayesNet α) (rest : GaussianGraph α) (xbar : BlockVector α) :
    Uncapped (rightHandSide net rest xbar) := by
  unfold rightHandSide
  split
  · exact .bind (.fromOption _) fun _ => BayesNet.uncapped_solveForwards _ _ _ _
  · exact .of_error rfl (by simp)

section Run
variable {operator : BlockVector α → LinearRun α (BlockVector α)} (hop : ∀ y, Uncapped (operator y))
include hop

theorem Iterate.uncapped_step (t : Iterate α) : Uncapped (t.step operator) := by
  refine .bind (hop _) fun image => ?_
  dsimp only
  split
  · exact .of_error rfl (by simp)
  · exact .of_ok rfl

theorem Iterate.uncapped_run (threshold : α) (n i : ℕ) (t : Iterate α) :
    Uncapped (run operator threshold n i t) := by
  induction n generalizing i t with
  | zero => exact .of_ok rfl
  | succ n ih =>
    rw [run]
    refine .bind (uncapped_step hop t) fun t => .bind (.of_ok rfl) fun _ => ?_
    split
    · exact .bind (.of_ok rfl) fun _ => .of_ok rfl
    · exact ih _ _

end Run

/-! ### What is answered and what is told of a stop -/

theorem conjugateGradient_eq_ok {x : BlockVector α}
    (h : (s.conjugateGradient net rest xbar).outcome = .ok x) :
    ∃ rhs n t, (rightHandSide net rest xbar).outcome = .ok rhs ∧
      (Iterate.after (apply net rest) (Iterate.start rhs) n).outcome = .ok t ∧
        ((combine net xbar t.solution).outcome = .ok x ∨
          (combine net xbar t.best).outcome = .ok x) := by
  obtain ⟨rhs, hrhs, h⟩ := Logged.outcome_bind_eq_ok.mp h
  dsimp only at h
  split at h
  · exact ⟨rhs, 0, _, hrhs, rfl, .inl h⟩
  obtain ⟨⟨converged, last⟩, hrun, h⟩ := Logged.outcome_bind_eq_ok.mp h
  obtain ⟨n, -, hlast, -⟩ := Iterate.exists_after_of_run (m := 0) rfl hrun
  cases converged with
  | true => exact ⟨rhs, n, last, hrhs, hlast, .inl h⟩
  | false =>
    obtain ⟨best, hbest, h⟩ := Logged.outcome_bind_eq_ok.mp h
    split_ifs at h
    · rw [Logged.outcome_report_bind] at h
      cases h
      exact ⟨rhs, n, last, hrhs, hlast, .inr hbest⟩
    · exact absurd h LinearError.outcome_stop_ne_ok

/-- **A stop at the cap** comes from the state after as many steps as are allowed, and tells what it
remembers. -/
theorem conjugateGradient_eq_notConverged {n : ℕ} {residual : α} {best : BlockVector α}
    (h : (s.conjugateGradient net rest xbar).outcome =
      .error (.cause (.notConverged n residual best))) :
    n = s.params.maxIterations ∧ ∃ rhs t, (rightHandSide net rest xbar).outcome = .ok rhs ∧
      (Iterate.after (apply net rest) (Iterate.start rhs) n).outcome = .ok t ∧
      t.bestNorm = residual ∧
        (combine net xbar t.best).outcome = .ok best := by
  rcases Logged.outcome_bind_eq_error.mp h with h | ⟨rhs, hrhs, h⟩
  · exact (uncapped_rightHandSide _ _ _ _ _ _ h).elim
  dsimp only at h
  split at h
  · exact (uncapped_combine _ _ _ _ _ _ h).elim
  rcases Logged.outcome_bind_eq_error.mp h with h | ⟨⟨converged, last⟩, hrun, h⟩
  · exact (Iterate.uncapped_run (uncapped_apply net rest) _ _ _ _ _ _ _ h).elim
  obtain ⟨m, -, hlast, hm⟩ := Iterate.exists_after_of_run (m := 0) rfl hrun
  cases converged with
  | true => exact (uncapped_combine _ _ _ _ _ _ h).elim
  | false =>
    rcases Logged.outcome_bind_eq_error.mp h with h | ⟨best', hbest, h⟩
    · exact (uncapped_combine _ _ _ _ _ _ h).elim
    split_ifs at h
    · rw [Logged.outcome_report_bind] at h
      cases h
    · cases h
      rw [hm rfl, Nat.zero_add] at hlast
      exact ⟨rfl, rhs, last, hrhs, hlast, rfl, hbest⟩

/-! ### Accepting the best solution -/

omit [Scalar α] in
/-- The outcome with a stop at the cap replaced by the best solution. -/
def accepting : Except (Stop (LinearError α)) (BlockVector α) → Except (Stop (LinearError α))
    (BlockVector α)
  | .error (.cause (.notConverged _ _ best)) => .ok best
  | o => o

/-- The solver that accepts the best solution at the cap, or does not. -/
def withAccept (s : SubgraphSolver α) (accept : Bool) : SubgraphSolver α :=
  { s with params := { s.params with acceptUnconverged := accept } }

omit [Scalar α] in
theorem accepting_of_uncapped {x : LinearRun α (BlockVector α)} (h : Uncapped x) :
    accepting x.outcome = x.outcome := by
  unfold accepting
  split
  · next hx => exact (h _ _ _ hx).elim
  · rfl

omit [Scalar α] in
theorem outcome_bind_accepting {β : Type} {x : LinearRun α β}
    {f f' : β → LinearRun α (BlockVector α)} (hx : Uncapped x)
    (hf : ∀ b, (f b).outcome = accepting (f' b).outcome) :
    (x >>= f).outcome = accepting (x >>= f').outcome := by
  cases hout : x.outcome with
  | ok b => rw [Logged.outcome_bind_ok f hout, Logged.outcome_bind_ok f' hout, hf]
  | error stop =>
    rw [accepting_of_uncapped (.of_error (Logged.outcome_bind_error f' hout)
        fun n residual best hs =>
      hx n residual best (hs ▸ hout)), Logged.outcome_bind_error f hout,
        Logged.outcome_bind_error f' hout]

theorem outcome_conjugateGradient_withAccept :
    ((s.withAccept true).conjugateGradient net rest xbar).outcome =
      accepting ((s.withAccept false).conjugateGradient net rest xbar).outcome := by
  refine outcome_bind_accepting (uncapped_rightHandSide _ _ _) fun rhs => ?_
  dsimp only [withAccept]
  split
  · exact (accepting_of_uncapped (uncapped_combine _ _ _)).symm
  refine outcome_bind_accepting (Iterate.uncapped_run (uncapped_apply net rest) _ _ _ _) fun a => ?_
  obtain ⟨converged, last⟩ := a
  cases converged with
  | true => exact (accepting_of_uncapped (uncapped_combine _ _ _)).symm
  | false => exact outcome_bind_accepting (uncapped_combine _ _ _) fun best => rfl

/-- **Accepting the best solution makes a difference only at the cap.** -/
theorem outcome_solve_withAccept (s : SubgraphSolver α) (g : GaussianGraph α)
    (o : EliminationOrder) :
    ((s.withAccept true).solve g o).outcome =
      accepting ((s.withAccept false).solve g o).outcome := by
  refine outcome_bind_accepting (uncapped_split s g) fun parts => ?_
  obtain ⟨tree, rest⟩ := parts
  refine outcome_bind_accepting (tree.uncapped_eliminate o) fun net => ?_
  refine outcome_bind_accepting (BayesNet.uncapped_solveBackwards _ _) fun xbar => ?_
  split
  · rfl
  · exact outcome_conjugateGradient_withAccept

end SubgraphSolver

end Smoothing
