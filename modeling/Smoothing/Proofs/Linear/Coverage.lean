import Mathlib
import Smoothing.Linear.Solver
import Smoothing.Scalar.Binary64
import Smoothing.Proofs.Factor
import Smoothing.Proofs.Linear.Degenerate
import Smoothing.Proofs.Linear.NormalEquations

/-!
# Which variables a solution is for

A problem and an order need not go together: the order may lack variables of the problem or have
others. A direct method that answers has found all of this out: its answer has a block for every
variable of the problem, of its width, and no other (`BlockVector.Covers`), and an order that lacks
a variable is refused (**`DirectMethod.solve_covers`**).

The two methods notice it in different places. Elimination keeps track of every variable of the
problem: it is eliminated, or a parent of a conditional, or a variable of a factor that is left over
(`Elimination.Eliminates`). A factor that is left over is refused, and a parent has to be solved for
before its conditional. The normal equations are laid out for a problem whose variables are all in
the order, and in columns of variables that all have a width. Only the empty order is answered
before the problem is looked at (`NormalEquations.solve_of_isEmpty`), so the normal equations answer
it for any problem (**`OneVariable.solve_not_covers`**).

No numbers are compared, so all this holds for every kind of scalars. It is followed through a
computation by what its answer is sure to have (`Logged.Ensures`).
-/

namespace Smoothing

/-! ### What an answer is sure to have -/

namespace Logged

variable {ν ε α β : Type} {P Q : α → Prop} {R : β → Prop}

/-- Sizes agree in a computation, and its answer has a property. It may still stop with a cause. -/
def Ensures (x : Logged ν ε α) (P : α → Prop) : Prop :=
  match x.outcome with
  | .ok a => P a
  | .error (.cause _) => True
  | .error .sizes => False

namespace Ensures

theorem pure {a : α} (h : P a) : (Pure.pure a : Logged ν ε α).Ensures P := h

theorem of_outcome_eq_cause {x : Logged ν ε α} {e : ε} (h : x.outcome = .error (.cause e)) :
    x.Ensures P := by
  rw [Ensures, h]
  trivial

theorem of_outcome_eq_ok {x : Logged ν ε α} {a : α} (h : x.outcome = .ok a) (ha : P a) :
    x.Ensures P := by
  rwa [Ensures, h]

theorem bind {x : Logged ν ε α} {f : α → Logged ν ε β} (hx : x.Ensures P)
    (hf : ∀ a, P a → (f a).Ensures R) : (x >>= f).Ensures R := by
  rcases hout : x.outcome with (e | _) | a
  · exact of_outcome_eq_cause (outcome_bind_error f hout)
  · rw [Ensures, hout] at hx
    exact hx.elim
  · rw [Ensures, hout] at hx
    rw [Ensures, outcome_bind_ok f hout]
    exact hf a hx

theorem of_eq_ok {x : Logged ν ε α} {a : α} (hx : x.Ensures P) (h : x.outcome = .ok a) : P a := by
  rwa [Ensures, h] at hx

theorem imp {x : Logged ν ε α} (hx : x.Ensures P) (h : ∀ a, x.outcome = .ok a → P a → Q a) :
    x.Ensures Q := by
  rcases hout : x.outcome with (e | _) | a
  · exact of_outcome_eq_cause hout
  · rw [Ensures, hout] at hx
    exact hx.elim
  · exact of_outcome_eq_ok hout (h a hout (hx.of_eq_ok hout))

/-- A computation whose answer would have a property that nothing has stops with a cause. -/
theorem exists_cause {x : Logged ν ε α} (hx : x.Ensures P) (h : ∀ a, ¬ P a) :
    ∃ e, x.outcome = .error (.cause e) := by
  rcases hout : x.outcome with (e | _) | a
  · exact ⟨e, rfl⟩
  · rw [Ensures, hout] at hx
    exact hx.elim
  · exact (h a (hx.of_eq_ok hout)).elim

end Ensures

end Logged

variable {α : Type}

/-! ### Widths -/

theorem noteWidths_ensures (dims : KeyMap ℕ) (ts : List (Key × Mat α)) :
    (GaussianGraph.noteWidths dims ts).Ensures fun _ => True := by
  induction ts generalizing dims with
  | nil => trivial
  | cons t ts ih =>
    rw [GaussianGraph.noteWidths]
    split
    · exact ih _
    · split
      · exact ih _
      · exact .of_outcome_eq_cause rfl

theorem GaussianGraph.dims_ensures [Scalar α] (g : GaussianGraph α) :
    g.dims.Ensures fun dims => Consistent dims g.factors ∧ dims.keys = g.keys.keys :=
  (noteWidths_ensures _ _).imp fun _ h _ => dims_of_ok h

variable [Scalar α]

/-! ### Conditionals -/

namespace Conditional

/-- The blocks of a conditional have the height of its right-hand side, and the widths of the
variables. -/
structure Fits (dims : KeyMap ℕ) (c : Conditional α) : Prop where
  dim : dims.get? c.key = some c.dim
  height : c.r.height = c.dim
  parents : ∀ t ∈ c.parents, t.2.height = c.dim ∧ dims.get? t.1 = some t.2.cols

variable {dims : KeyMap ℕ} {x : BlockVector α} (hx : Within dims x)
include hx

theorem subParents_ensures {ps : List (Key × Mat α)} {y : Vec α}
    (hps : ∀ t ∈ ps, t.2.height = y.size ∧ dims.get? t.1 = some t.2.cols) :
    (subParents x y ps).Ensures fun z => z.size = y.size ∧ ∀ t ∈ ps, t.1 ∈ x.keys := by
  induction ps generalizing y with
  | nil => exact .pure ⟨rfl, by simp⟩
  | cons t ps ih =>
    obtain ⟨⟨hheight, hcols⟩, hps⟩ := List.forall_mem_cons.mp hps
    cases hv : x.get? t.1 with
    | none =>
      refine .of_outcome_eq_cause (e := .missingKey t.1) ?_
      rw [subParents, hv]
      rfl
    | some v =>
      have hsize : t.2.cols = v.size := Option.some.inj (hcols.symm.trans (hx _ _ hv))
      have hsub := size_subMulVec hheight v
      have hstep : subParents x y (t :: ps) = subParents x (subMulVec y t.2 v) ps := by
        rw [subParents, hv]
        exact if_pos ⟨hheight, hsize⟩
      rw [hstep]
      refine (ih fun t' ht' => ⟨(hps t' ht').1.trans hsub.symm, (hps t' ht').2⟩).imp fun z _ hz =>
        ?_
      obtain ⟨hz, hmem⟩ := hz
      exact ⟨hz.trans hsub, List.forall_mem_cons.mpr ⟨KeyMap.mem_keys_iff_exists.mpr ⟨v, hv⟩, hmem⟩⟩

theorem Fits.solveWith_ensures {c : Conditional α} (hc : c.Fits dims) :
    (c.solveWith c.d x).Ensures fun v => v.size = c.dim ∧ ∀ j ∈ c.parentKeys, j ∈ x.keys := by
  refine .bind (subParents_ensures hx hc.parents) fun rhs ⟨hsize, hmem⟩ => ?_
  have hparents : ∀ j ∈ c.parentKeys, j ∈ x.keys := List.forall_mem_map.mpr hmem
  have hheight : ¬ rhs.size < c.r.height := by
    rw [hsize, hc.height]
    exact lt_irrefl _
  rw [if_neg hheight]
  split
  · next v hv => exact .pure ⟨(Mat.size_of_solveUpper? hv).trans hsize, hparents⟩
  · exact .of_outcome_eq_cause rfl

end Conditional

theorem BayesNet.solveBackwards_ensures {dims : KeyMap ℕ} {cs : List (Conditional α)}
    (hcs : ∀ c ∈ cs, c.Fits dims) :
    (solveBackwards Conditional.d cs).Ensures fun x => Within dims x ∧
      (∀ k, k ∈ x.keys ↔ k ∈ cs.map Conditional.key) ∧
      ∀ c ∈ cs, ∀ j ∈ c.parentKeys, j ∈ cs.map Conditional.key := by
  induction cs with
  | nil => exact .pure ⟨by simp [Within], by simp [KeyMap.keys, KeyMap.empty], by simp⟩
  | cons c cs ih =>
    obtain ⟨hc, hcs⟩ := List.forall_mem_cons.mp hcs
    refine .bind (ih hcs) fun x hx => ?_
    obtain ⟨hwithin, hkeys, hparents⟩ := hx
    refine .bind (hc.solveWith_ensures hwithin) fun v hv => ?_
    obtain ⟨hsize, hmem⟩ := hv
    have hdim : dims.get? c.key = some v.size := by rw [hc.dim, hsize]
    refine .pure ⟨hwithin.insert hdim, fun k => ?_, fun c' hc' j hj => ?_⟩
    · rw [KeyMap.mem_keys_insert, hkeys, List.map_cons, List.mem_cons]
    · rw [List.map_cons]
      rcases List.mem_cons.mp hc' with rfl | hc'
      · exact List.mem_cons_of_mem _ ((hkeys j).mp (hmem j hj))
      · exact List.mem_cons_of_mem _ (hparents c' hc' j hj)

/-! ### Elimination -/

namespace Elimination

/-- What eliminating a variable from the factors that mention it does with their other variables. -/
structure Replaces (dims : KeyMap ℕ) (k : Key) (fs : List (GaussianFactor α)) (c : Conditional α)
    (remainder : Option (GaussianFactor α)) : Prop where
  key : c.key = k
  fits : c.Fits dims
  mem_parents : ∀ f ∈ fs, ∀ j ∈ f.keys, j ≠ k → j ∈ c.parentKeys
  consistent : Consistent dims remainder.toList

/-- **The other variables of the factors are the parents of the conditional.** -/
theorem eliminateOne_ensures {k : Key} {dim : ℕ} {fs : List (GaussianFactor α)} {dims : KeyMap ℕ}
    (hc : Consistent dims fs) (hk : dims.get? k = some dim) (o : EliminationOrder) :
    (eliminateOne k dim fs dims o).Ensures fun a => Replaces dims k fs a.1 a.2 := by
  rcases eliminateOne_total k dim hc o with ⟨c, remainder, h⟩ | h
  · obtain ⟨others, ho, -, -, diagonal, parents, d, hdiagonal, hparents, hd, rfl, hrem⟩ :=
      eliminateOne_cases h
    obtain ⟨-, -, hheight, -, -⟩ := Mat.get_of_block? hdiagonal
    obtain ⟨hheights, hlayout⟩ := blocksOf_shape hparents
    have hdim : Conditional.dim ⟨k, diagonal, parents, d⟩ = dim := (columnOf_spec hd).1
    have hfits : Conditional.Fits dims ⟨k, diagonal, parents, d⟩ := by
      refine ⟨hk.trans (congrArg some hdim.symm), hheight.trans hdim.symm, fun t ht => ?_⟩
      exact ⟨(hheights t ht).trans hdim.symm, (blocksOf_separator ho hparents t ht).1⟩
    have hmem : ∀ f ∈ fs, ∀ j ∈ f.keys, j ≠ k → j ∈ parents.map (·.1) := by
      intro f hf j hj hjk
      have hkeys : parents.map (·.1) = separator o k fs := (keys_of_eliminateOne h).2.1
      rw [hkeys]
      exact mem_separator.mpr ⟨hjk, f, hf, hj⟩
    exact .of_outcome_eq_ok h ⟨rfl, hfits, hmem, consistent_of_eliminateOne h⟩
  · exact .of_outcome_eq_cause h

/-- What eliminating variables in order makes of a pool of factors. Every variable of the pool is
accounted for. -/
structure Eliminates (dims : KeyMap ℕ) (ks : List Key) (pool : List (GaussianFactor α))
    (cs : List (Conditional α)) (left : List (GaussianFactor α)) : Prop where
  keys : cs.map Conditional.key = ks
  fits : ∀ c ∈ cs, c.Fits dims
  accounted : ∀ f ∈ pool, ∀ j ∈ f.keys, j ∈ ks ∨ (∃ c ∈ cs, j ∈ c.parentKeys) ∨
    ∃ f ∈ left, j ∈ f.keys

omit [Scalar α] in
/-- **One variable more.** A factor that mentions the variable has its other variables among the
parents of the conditional, and a factor that does not stays in the pool. -/
theorem Eliminates.cons {dims : KeyMap ℕ} {k : Key} {ks : List Key}
    {pool left : List (GaussianFactor α)} {c : Conditional α} {cs : List (Conditional α)}
    {remainder : Option (GaussianFactor α)}
    (hone : Replaces dims k (pool.filter (·.mentions k)) c remainder)
    (hall : Eliminates dims ks ((pool.filter fun f => !f.mentions k) ++ remainder.toList) cs left) :
    Eliminates dims (k :: ks) pool (c :: cs) left := by
  refine ⟨?_, List.forall_mem_cons.mpr ⟨hone.fits, hall.fits⟩, fun f hf j hj => ?_⟩
  · rw [List.map_cons, hone.key, hall.keys]
  by_cases hmentions : f.mentions k = true
  · by_cases hjk : j = k
    · exact .inl (hjk ▸ List.mem_cons_self)
    · have hparent := hone.mem_parents f (List.mem_filter.mpr ⟨hf, hmentions⟩) j hj hjk
      exact .inr (.inl ⟨c, List.mem_cons_self, hparent⟩)
  · have hstays : f ∈ (pool.filter fun f => !f.mentions k) ++ remainder.toList :=
      List.mem_append_left _ (List.mem_filter.mpr ⟨hf, by simpa using hmentions⟩)
    rcases hall.accounted f hstays j hj with h | ⟨c', hc', h⟩ | h
    · exact .inl (List.mem_cons_of_mem _ h)
    · exact .inr (.inl ⟨c', List.mem_cons_of_mem _ hc', h⟩)
    · exact .inr (.inr h)

/-- By induction on the order, with one variable in each step. -/
theorem eliminateAll_ensures {dims : KeyMap ℕ} (o : EliminationOrder) (ks : List Key)
    {pool : List (GaussianFactor α)} (hc : Consistent dims pool) :
    (eliminateAll dims o ks pool).Ensures fun a => Eliminates dims ks pool a.1 a.2 := by
  induction ks generalizing pool with
  | nil => exact .pure ⟨rfl, by simp, fun f hf j hj => .inr (.inr ⟨f, hf, hj⟩)⟩
  | cons k ks ih =>
    rw [eliminateAll]
    cases hk : dims.get? k with
    | none => exact .of_outcome_eq_cause rfl
    | some dim =>
      dsimp only
      split
      · exact .of_outcome_eq_cause rfl
      refine .bind (eliminateOne_ensures (hc.filter _) hk o) fun a hone => ?_
      exact .bind (ih (consistent_next hc hone.consistent)) fun b hall =>
        .pure (Eliminates.cons hone hall)

end Elimination

/-! ### Solutions -/

/-- A vector has a block for every variable of a problem, of its width, and no other. -/
structure BlockVector.Covers (x : BlockVector α) (g : GaussianGraph α) : Prop where
  mem_iff : ∀ k, k ∈ x.keys ↔ ∃ f ∈ g.factors, k ∈ f.keys
  size_eq : ∀ f ∈ g.factors, ∀ t ∈ f.terms, ∃ v, x.get? t.1 = some v ∧ v.size = t.2.cols

omit [Scalar α] in
theorem BlockVector.covers_of_within {g : GaussianGraph α} {dims : KeyMap ℕ} {x : BlockVector α}
    (hc : Consistent dims g.factors) (hx : Within dims x)
    (hkeys : ∀ k, k ∈ x.keys ↔ k ∈ g.keys.keys) : x.Covers g := by
  refine ⟨fun k => (hkeys k).trans GaussianGraph.mem_keys_keys, fun f hf t ht => ?_⟩
  have hmem : t.1 ∈ g.keys.keys :=
    GaussianGraph.mem_keys_keys.mpr ⟨f, hf, List.mem_map.mpr ⟨t, ht, rfl⟩⟩
  obtain ⟨v, hv⟩ := KeyMap.mem_keys_iff_exists.mp ((hkeys t.1).mpr hmem)
  exact ⟨v, hv, Option.some.inj ((hx _ _ hv).symm.trans (hc f hf t ht))⟩

/-- An answer in an order covers the problem, and the order has all its variables. -/
structure EliminationOrder.Answers (o : EliminationOrder) (g : GaussianGraph α)
    (x : BlockVector α) : Prop where
  covers : x.Covers g
  mem_order : ∀ f ∈ g.factors, ∀ k ∈ f.keys, k ∈ o.keys

omit [Scalar α] in
theorem EliminationOrder.answers_of_within {o : EliminationOrder} {g : GaussianGraph α}
    {dims : KeyMap ℕ} {x : BlockVector α} (hc : Consistent dims g.factors)
    (hdims : dims.keys = g.keys.keys) (hx : Within dims x) (hkeys : ∀ k, k ∈ x.keys ↔ k ∈ o.keys)
    (hmem : ∀ f ∈ g.factors, ∀ k ∈ f.keys, k ∈ o.keys) : o.Answers g x := by
  refine ⟨BlockVector.covers_of_within hc hx fun k => ⟨fun hk => ?_, fun hk => ?_⟩, hmem⟩
  · obtain ⟨v, hv⟩ := KeyMap.mem_keys_iff_exists.mp hk
    rw [← hdims]
    exact KeyMap.mem_keys_iff_exists.mpr ⟨_, hx k v hv⟩
  · obtain ⟨f, hf, hk⟩ := GaussianGraph.mem_keys_keys.mp hk
    exact (hkeys k).mpr (hmem f hf k hk)

omit [Scalar α] in
theorem EliminationOrder.answers_empty (o : EliminationOrder) {g : GaussianGraph α}
    (h : ∀ f ∈ g.factors, f.keys = []) : o.Answers g KeyMap.empty := by
  have hnone : ∀ f ∈ g.factors, ∀ k, k ∉ f.keys := fun f hf k hk => List.not_mem_nil (h f hf ▸ hk)
  refine ⟨⟨fun k => ⟨fun hk => ?_, fun ⟨f, hf, hk⟩ => (hnone f hf k hk).elim⟩, fun f hf t ht => ?_⟩,
    fun f hf k hk => (hnone f hf k hk).elim⟩
  · cases hk
  · exact (hnone f hf t.1 (List.mem_map.mpr ⟨t, ht, rfl⟩)).elim

namespace GaussianGraph

/-- No factor is left over by an elimination that answers. -/
theorem eliminate_ensures (g : GaussianGraph α) (o : EliminationOrder) :
    (g.eliminate o).Ensures fun net => ∃ dims, Consistent dims g.factors ∧ dims.keys = g.keys.keys ∧
      Elimination.Eliminates dims o.keys g.factors net.conditionals [] := by
  refine .bind g.dims_ensures fun dims ⟨hc, hdims⟩ => ?_
  refine .bind (Elimination.eliminateAll_ensures o o.keys hc) fun ⟨cs, left⟩ hall => ?_
  cases left with
  | nil => exact .pure ⟨dims, hc, hdims, hall⟩
  | cons f left => exact .of_outcome_eq_cause rfl

/-- **Elimination answers for the variables of the problem.** A variable that is not in the order
would be the parent of a conditional, and that is not solved for. -/
theorem optimize_ensures (g : GaussianGraph α) (o : EliminationOrder) :
    (g.optimize o).Ensures (o.Answers g) := by
  refine .bind (g.eliminate_ensures o) fun net ⟨dims, hc, hdims, hel⟩ => ?_
  refine (BayesNet.solveBackwards_ensures hel.fits).imp fun x _ ⟨hx, hkeys, hparents⟩ => ?_
  rw [hel.keys] at hkeys hparents
  refine EliminationOrder.answers_of_within hc hdims hx hkeys fun f hf k hk => ?_
  rcases hel.accounted f hf k hk with h | ⟨c, hcs, h⟩ | ⟨f', hf', -⟩
  · exact h
  · exact hparents c hcs k h
  · cases hf'

theorem perm_keys_of_optimize {g : GaussianGraph α} {o : EliminationOrder} {x : BlockVector α}
    (h : (g.optimize o).outcome = .ok x) : o.keys.Perm g.keys.keys := by
  have hanswers := (g.optimize_ensures o).of_eq_ok h
  obtain ⟨net, hnet, -⟩ := Logged.outcome_bind_eq_ok.mp h
  obtain ⟨dims, -, hdims, hel⟩ := (g.eliminate_ensures o).of_eq_ok hnet
  refine (List.perm_ext_iff_of_nodup o.nodup g.keys.nodup_keys).mpr fun k =>
    ⟨fun hk => ?_, fun hk => ?_⟩
  · rw [← hel.keys] at hk
    obtain ⟨c, hc, rfl⟩ := List.mem_map.mp hk
    rw [← hdims]
    exact KeyMap.mem_keys_iff_exists.mpr ⟨_, (hel.fits c hc).dim⟩
  · obtain ⟨f, hf, hk⟩ := mem_keys_keys.mp hk
    exact hanswers.mem_order f hf k hk

end GaussianGraph

namespace NormalEquations

omit [Scalar α] in
theorem layoutOf_ensures (dims : KeyMap ℕ) (ks : List Key) :
    (layoutOf dims ks : LinearRun α Layout).Ensures fun l => l.map (·.1) = ks ∧
    ∀ e ∈ l, dims.get? e.1 = some e.2 := by
  induction ks with
  | nil => exact .pure ⟨rfl, by simp⟩
  | cons k ks ih =>
    rw [layoutOf]
    cases hw : dims.get? k with
    | none => exact .of_outcome_eq_cause rfl
    | some w =>
      refine .bind ih fun l hl => ?_
      obtain ⟨hkeys, hwidths⟩ := hl
      exact .pure ⟨by rw [List.map_cons, hkeys], List.forall_mem_cons.mpr ⟨hw, hwidths⟩⟩

theorem assemble_ensures (g : GaussianGraph α) (o : EliminationOrder) :
    (assemble g o).Ensures fun a => ∃ dims, Consistent dims g.factors ∧ dims.keys = g.keys.keys ∧
      IsAssembled g dims o a ∧ ∀ k ∈ dims.keys, k ∈ o.keys := by
  refine .bind g.dims_ensures fun dims ⟨hc, hdims⟩ => ?_
  split
  · exact .of_outcome_eq_cause rfl
  · next hfind =>
    refine .bind (layoutOf_ensures dims o.keys) fun l ⟨hkeys, hwidths⟩ =>
      .pure ⟨dims, hc, hdims, ⟨hkeys, hwidths, rfl, rfl⟩, fun k hk => ?_⟩
    have hnot := List.find?_eq_none.mp hfind k hk
    simpa [EliminationOrder.contains] using hnot

omit [Scalar α] in
theorem mem_keys_split {x : List α} {l : Layout} {k : Key} :
    k ∈ (split x l).keys ↔ k ∈ l.map (·.1) := by
  induction l generalizing x with
  | nil => simp [split, KeyMap.keys, KeyMap.empty]
  | cons e l ih =>
    obtain ⟨j, w⟩ := e
    rw [split, KeyMap.mem_keys_insert, ih, List.map_cons, List.mem_cons]

theorem size_of_solve {a : Mat α} {r x : Vec α}
    (h : (SparseSystem.ofLeastSquares a r).solve = .ok x) : x.size = a.cols := by
  obtain ⟨factor, -, h⟩ := Evaluated.bind_eq_ok.mp h
  cases h
  simp [SparseSystem.ofLeastSquares]

/-- **The normal equations answer for the variables of the problem**, in an order that is not
empty. -/
theorem solve_ensures (g : GaussianGraph α) {o : EliminationOrder} (ho : o.keys ≠ []) :
    (solve g o).Ensures (o.Answers g) := by
  rw [solve, EliminationOrder.isEmpty, if_neg (by simpa using ho)]
  refine .bind (assemble_ensures g o) fun a ⟨dims, hc, hdims, ha, hmem⟩ => ?_
  split
  · exact .of_outcome_eq_cause rfl
  next x hx =>
  split
  · have hnodup : (a.layout.map (·.1)).Nodup := ha.keys ▸ o.nodup
    have hsize : x.coords.length = Layout.width a.layout := by
      rw [← Vec.size, size_of_solve hx, ha.jacobian]
      rfl
    have hwithin : Within dims (split x.coords a.layout) := by
      intro k v hv
      have hfind : KeyMap.find? k a.layout = some v.size := by
        rw [← get?_widths_split hnodup hsize, BlockVector.get?_widths_of_get? hv]
      exact ha.widths _ (KeyMap.mem_of_find?_eq_some hfind)
    have hkeys : ∀ k, k ∈ (split x.coords a.layout).keys ↔ k ∈ o.keys := by
      intro k
      rw [mem_keys_split, ha.keys]
    have horder : ∀ f ∈ g.factors, ∀ k ∈ f.keys, k ∈ o.keys := by
      intro f hf k hk
      refine hmem k ?_
      rw [hdims]
      exact GaussianGraph.mem_keys_keys.mpr ⟨f, hf, hk⟩
    exact .pure (EliminationOrder.answers_of_within hc hdims hwithin hkeys horder)
  · exact .of_outcome_eq_cause rfl

/-- The empty order is answered for every problem, with no block at all. -/
theorem solve_of_isEmpty (g : GaussianGraph α) {o : EliminationOrder} (ho : o.keys = []) :
    (solve g o).outcome = .ok KeyMap.empty := by
  rw [solve, EliminationOrder.isEmpty, ho]
  rfl

end NormalEquations

/-! ### Both methods -/

namespace DirectMethod

/-- Only the normal equations in the empty order answer without a look at the problem. -/
theorem solve_ensures (m : DirectMethod) (g : GaussianGraph α) {o : EliminationOrder}
    (h : m = .cholesky → o.keys = [] → ∀ f ∈ g.factors, f.keys = []) :
    (m.solve g o).Ensures (o.Answers g) := by
  refine Logged.Ensures.bind (P := fun _ => True) trivial fun _ _ => ?_
  cases m with
  | qr => exact g.optimize_ensures o
  | cholesky =>
    by_cases ho : o.keys = []
    · exact .of_outcome_eq_ok (NormalEquations.solve_of_isEmpty g ho) (o.answers_empty (h rfl ho))
    · exact NormalEquations.solve_ensures g ho

/-- **What a direct method answers is a solution for the variables of the problem**: one block for
each of them, of its width, and no other. An order that lacks one of them is refused. -/
theorem solve_covers (m : DirectMethod) (g : GaussianGraph α) {o : EliminationOrder}
    (h : m = .cholesky → o.keys = [] → ∀ f ∈ g.factors, f.keys = []) :
    (∀ δ, (m.solve g o).outcome = .ok δ → δ.Covers g) ∧
      ((∃ f ∈ g.factors, ∃ k ∈ f.keys, k ∉ o.keys) →
        ∃ e, (m.solve g o).outcome = .error (.cause e)) := by
  have hsolve := m.solve_ensures g h
  refine ⟨fun δ hδ => (hsolve.of_eq_ok hδ).covers, fun ⟨f, hf, k, hk, hko⟩ => ?_⟩
  exact hsolve.exists_cause fun δ hδ => hko (hδ.mem_order f hf k hk)

end DirectMethod

/-! ### One variable -/

namespace OneVariable

def key : Key := ⟨'x', 1⟩

/-- The equation `x₁ = 1`. -/
def problem : GaussianGraph Float :=
  ⟨[{ terms := [(key, Mat.ofRows 1 [⟨[1]⟩])], rhs := ⟨[1]⟩,
      height_eq := by decide, nodup := by decide }]⟩

def order : EliminationOrder := ⟨[key], by decide⟩

def emptyOrder : EliminationOrder := ⟨[], by decide⟩

theorem solve_covers_problem :
    (∀ m, ∃ δ, (DirectMethod.solve m problem order).outcome = .ok δ ∧ δ.Covers problem) ∧
      ∃ e, (DirectMethod.qr.solve problem emptyOrder).outcome = .error (.cause e) := by
  have hok : ∀ m, (DirectMethod.solve m problem order).outcome.isOk = true := by
    intro m
    cases m <;> decide +kernel
  refine ⟨fun m => ?_, ?_⟩
  · obtain ⟨δ, hδ⟩ := Logged.exists_of_isOk (hok m)
    exact ⟨δ, hδ, (m.solve_covers problem fun _ h => by cases h).1 δ hδ⟩
  · exact (DirectMethod.qr.solve_covers problem fun h => by cases h).2
      ⟨_, List.mem_singleton_self _, key, List.mem_singleton_self _, List.not_mem_nil⟩

/-- The normal equations answer the empty order, which lacks the variable, and their answer has no
block for it. -/
theorem solve_not_covers :
    (DirectMethod.cholesky.solve problem emptyOrder).outcome = .ok KeyMap.empty ∧
      (∃ f ∈ problem.factors, ∃ k ∈ f.keys, k ∉ emptyOrder.keys) ∧
      ¬ BlockVector.Covers KeyMap.empty problem := by
  have hmem : ∃ f ∈ problem.factors, key ∈ f.keys :=
    ⟨_, List.mem_singleton_self _, List.mem_singleton_self _⟩
  obtain ⟨f, hf, hkey⟩ := hmem
  exact ⟨NormalEquations.solve_of_isEmpty problem rfl, ⟨f, hf, key, hkey, List.not_mem_nil⟩,
    fun h => List.not_mem_nil ((h.mem_iff key).mpr ⟨f, hf, hkey⟩)⟩

end OneVariable

end Smoothing
