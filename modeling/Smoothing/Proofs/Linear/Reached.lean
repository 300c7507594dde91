import Mathlib
import Smoothing.Proofs.Linear.Coverage

/-!
# Which variables an elimination reaches

An elimination that answers has eliminated the variables of its order, in sequence. If these are all
variables of the problem then every parent of a conditional is eliminated later
(`BayesNet.ParentsFollow`), and so no value is missing when the net is solved, forwards or
backwards.

An order may lack a variable. This is noticed by the factors that are left over at the end. But a
step leaves no factor on its separator if it has no more rows than its variable has columns
(`Elimination.eq_none_iff`), and with it the variables of the separator are lost sight of
(`Elimination.Drops`). So an elimination answers although a variable is not in the order if and only
if a step drops it (`Elimination.mentioned_iff_drops`), and the value of this variable is then
missing from the net. And a factor without variables is left over in every order, also in one of all
variables. Apart from these two cases the factors that are left over tell whether the order reaches
all variables (**`GaussianGraph.eliminate_reaches`**).
-/

namespace Smoothing

/-- All variables of a problem are in an order. -/
def EliminationOrder.Reaches {α : Type} (o : EliminationOrder) (g : GaussianGraph α) : Prop :=
  ∀ f ∈ g.factors, ∀ j ∈ f.keys, j ∈ o.keys

/-! ### Computations that look variables up -/

/-- A computation does not stop because a variable has no value. -/
def LinearRun.FindsAll {α β : Type} (x : LinearRun α β) : Prop :=
  ∀ j, x.outcome ≠ .error (.cause (.missingKey j))

namespace LinearRun.FindsAll

variable {α β γ : Type}

theorem of_ok {x : LinearRun α β} {b : β} (h : x.outcome = .ok b) : FindsAll x := by
  intro j hj
  rw [h] at hj
  cases hj

theorem of_error {x : LinearRun α β} {s : Stop (LinearError α)} (h : x.outcome = .error s)
    (hs : ∀ j, s ≠ .cause (.missingKey j)) : FindsAll x := by
  intro j hj
  rw [h] at hj
  exact hs j (Except.error.inj hj)

theorem bind {x : LinearRun α β} {f : β → LinearRun α γ} (hx : FindsAll x)
    (hf : ∀ b, x.outcome = .ok b → FindsAll (f b)) : FindsAll (x >>= f) := by
  intro j hj
  rcases Logged.outcome_bind_eq_error.mp hj with hj | ⟨b, hb, hj⟩
  · exact hx j hj
  · exact hf b hb j hj

end LinearRun.FindsAll

open LinearRun

variable {α : Type} [Scalar α]

/-! ### Solving a net -/

namespace Conditional

theorem findsAll_subParents {x : BlockVector α} {y : Vec α} {ps : List (Key × Mat α)}
    (hps : ∀ t ∈ ps, t.1 ∈ x.keys) : FindsAll (subParents x y ps) := by
  induction ps generalizing y with
  | nil => exact .of_ok rfl
  | cons t ps ih =>
    obtain ⟨ht, hps⟩ := List.forall_mem_cons.mp hps
    obtain ⟨v, hv⟩ := KeyMap.mem_keys_iff_exists.mp ht
    rw [subParents, hv]
    dsimp only
    split
    · exact ih hps
    · exact .of_error rfl (by simp)

theorem findsAll_solveWith {c : Conditional α} {x : BlockVector α} (y : Vec α)
    (hc : ∀ j ∈ c.parentKeys, j ∈ x.keys) : FindsAll (c.solveWith y x) := by
  refine .bind (findsAll_subParents (List.forall_mem_map.mp hc)) fun rhs _ => ?_
  split
  · exact .of_error rfl (by simp)
  split
  · exact .of_ok rfl
  · exact .of_error rfl (by simp)

theorem findsAll_pushToParents (x : BlockVector α) (z : Vec α) (g : BlockVector α)
    (ps : List (Key × Mat α)) : FindsAll (pushToParents x z g ps) := by
  induction ps generalizing g with
  | nil => exact .of_ok rfl
  | cons t ps ih =>
    rw [pushToParents]
    split
    · exact ih _
    · exact .of_error rfl (by simp)

end Conditional

namespace BayesNet

omit [Scalar α] in
/-- Every parent of a conditional is the variable of a later one. -/
def ParentsFollow : List (Conditional α) → Prop
  | [] => True
  | c :: cs => (∀ j ∈ c.parentKeys, j ∈ cs.map Conditional.key) ∧ ParentsFollow cs

omit [Scalar α] in
theorem ParentsFollow.mem_keys {cs : List (Conditional α)} (h : ParentsFollow cs) :
    ∀ c ∈ cs, ∀ j ∈ c.parentKeys, j ∈ cs.map Conditional.key := by
  induction cs with
  | nil => simp
  | cons c cs ih =>
    intro c' hc' j hj
    rw [List.map_cons]
    rcases List.mem_cons.mp hc' with rfl | hc'
    · exact List.mem_cons_of_mem _ (h.1 j hj)
    · exact List.mem_cons_of_mem _ (ih h.2 c' hc' j hj)

theorem mem_keys_of_solveBackwards {rhs : Conditional α → Vec α} {cs : List (Conditional α)}
    {x : BlockVector α} (h : (solveBackwards rhs cs).outcome = .ok x) (k : Key) :
    k ∈ x.keys ↔ k ∈ cs.map Conditional.key := by
  induction cs generalizing x with
  | nil =>
    cases h
    simp [KeyMap.keys, KeyMap.empty]
  | cons c cs ih =>
    obtain ⟨x', hx', h⟩ := Logged.outcome_bind_eq_ok.mp h
    obtain ⟨v, -, h⟩ := Logged.outcome_bind_eq_ok.mp h
    cases h
    rw [KeyMap.mem_keys_insert, ih hx', List.map_cons, List.mem_cons]

/-- **No value is missing when a net is solved backwards** whose parents follow, for any right-hand
sides. -/
theorem ParentsFollow.findsAll_solveBackwards {cs : List (Conditional α)} (h : ParentsFollow cs)
    (rhs : Conditional α → Vec α) : FindsAll (solveBackwards rhs cs) := by
  induction cs with
  | nil => exact .of_ok rfl
  | cons c cs ih =>
    refine .bind (ih h.2) fun x hx => ?_
    refine .bind (Conditional.findsAll_solveWith _ fun j hj => ?_) fun v _ => .of_ok rfl
    exact (mem_keys_of_solveBackwards hx j).mpr (h.1 j hj)

theorem findsAll_solveForwards (x g z : BlockVector α) (cs : List (Conditional α)) :
    FindsAll (solveForwards x g z cs) := by
  induction cs generalizing g z with
  | nil => exact .of_ok rfl
  | cons c cs ih =>
    rw [solveForwards]
    split
    · exact .of_error rfl (by simp)
    split
    · exact .of_error rfl (by simp)
    · exact .bind (Conditional.findsAll_pushToParents _ _ _ _) fun g _ => ih g _

end BayesNet

/-! ### Steps without a remainder -/

namespace Elimination

/-- A variable is in the separator of a step that leaves no remainder. -/
inductive Drops (dims : KeyMap ℕ) (o : EliminationOrder) (j : Key) :
    List Key → List (GaussianFactor α) → Prop
  | here {k ks pool dim c} (hk : dims.get? k = some dim)
      (hone : (eliminateOne k dim (pool.filter (·.mentions k)) dims o).outcome = .ok (c, none))
      (hj : j ∈ c.parentKeys) : Drops dims o j (k :: ks) pool
  | later {k ks pool dim c remainder} (hk : dims.get? k = some dim)
      (hone : (eliminateOne k dim (pool.filter (·.mentions k)) dims o).outcome = .ok (c, remainder))
      (hrest : Drops dims o j ks ((pool.filter fun f => !f.mentions k) ++ remainder.toList)) :
        Drops dims o j (k :: ks) pool

variable {dims : KeyMap ℕ} {o : EliminationOrder} {ks : List Key} {pool : List (GaussianFactor α)}
  {a : List (Conditional α) × List (GaussianFactor α)}

theorem Drops.exists_mem {j : Key} (h : Drops dims o j ks pool) : ∃ f ∈ pool, j ∈ f.keys := by
  induction h with
  | here hk hone hj =>
    rw [(keys_of_eliminateOne hone).2.1] at hj
    obtain ⟨-, f, hf, hjf⟩ := mem_separator.mp hj
    exact ⟨f, (List.mem_filter.mp hf).1, hjf⟩
  | later hk hone hrest ih =>
    obtain ⟨f, hf, hjf⟩ := ih
    rcases List.mem_append.mp hf with hf | hf
    · exact ⟨f, (List.mem_filter.mp hf).1, hjf⟩
    · rw [((keys_of_eliminateOne hone).2.2 f hf).1] at hjf
      obtain ⟨-, f', hf', hjf'⟩ := mem_separator.mp hjf
      exact ⟨f', (List.mem_filter.mp hf').1, hjf'⟩

/-- **A variable that is not eliminated stays in the pool or is dropped.** -/
theorem mentioned_or_drops {j : Key} (hj : j ∉ ks)
    (h : (eliminateAll dims o ks pool).outcome = .ok a) (hmem : ∃ f ∈ pool, j ∈ f.keys) :
    (∃ f ∈ a.2, j ∈ f.keys) ∨ Drops dims o j ks pool := by
  induction ks generalizing pool a with
  | nil =>
    cases h
    exact .inl hmem
  | cons k ks ih =>
    obtain ⟨hjk, hjks⟩ := not_or.mp (mt List.mem_cons.mpr hj)
    obtain ⟨dim, c, remainder, cs, hk, -, hone, hall, -⟩ := eliminateAll_cons h
    obtain ⟨-, hparents, hremainder⟩ := keys_of_eliminateOne hone
    have hnext (hmem : ∃ f ∈ (pool.filter fun f => !f.mentions k) ++ remainder.toList, j ∈ f.keys) :
        (∃ f ∈ a.2, j ∈ f.keys) ∨ Drops dims o j (k :: ks) pool :=
      (ih hjks hall hmem).imp_right (.later hk hone)
    obtain ⟨f, hf, hjf⟩ := hmem
    by_cases hmentions : f.mentions k = true
    · have hsep : j ∈ separator o k (pool.filter (·.mentions k)) :=
        mem_separator.mpr ⟨hjk, f, List.mem_filter.mpr ⟨hf, hmentions⟩, hjf⟩
      cases remainder with
      | none => exact .inr (.here hk hone (hparents ▸ hsep))
      | some f' =>
        have hkeys := (hremainder f' (List.mem_singleton_self f')).1
        exact hnext ⟨f', List.mem_append_right _ (List.mem_singleton_self f'), hkeys ▸ hsep⟩
    · exact hnext ⟨f, List.mem_append_left _ (List.mem_filter.mpr ⟨hf, by simpa using hmentions⟩),
        hjf⟩

/-- **An elimination of all variables of a pool has parents that follow.** -/
theorem parentsFollow_of_eliminateAll (hpool : ∀ f ∈ pool, ∀ j ∈ f.keys, j ∈ ks)
    (h : (eliminateAll dims o ks pool).outcome = .ok a) :
    a.1.map Conditional.key = ks ∧ BayesNet.ParentsFollow a.1 := by
  induction ks generalizing pool a with
  | nil =>
    cases h
    exact ⟨rfl, trivial⟩
  | cons k ks ih =>
    obtain ⟨dim, c, remainder, cs, hk, -, hone, hall, ha⟩ := eliminateAll_cons h
    obtain ⟨hkey, hparents, -⟩ := keys_of_eliminateOne hone
    obtain ⟨hkeys, hfollow⟩ := ih (mem_next hone hpool) hall
    rw [ha, List.map_cons, hkey, hkeys]
    refine ⟨rfl, fun j hj => ?_, hfollow⟩
    rw [hparents] at hj
    rw [hkeys]
    exact mem_of_gathered hpool (mem_separator.mp hj)

end Elimination

/-! ### Problems and orders -/

namespace GaussianGraph

open Elimination BayesNet

variable {g : GaussianGraph α} {o : EliminationOrder} {dims : KeyMap ℕ}
  (hdims : g.dims.outcome = .ok dims)
include hdims

theorem eliminate_eq_ordering {e : OrderConflict}
    (h : (g.eliminate o).outcome = .error (.cause (.ordering e))) :
    ∃ cs f left, (eliminateAll dims o o.keys g.factors).outcome = .ok (cs, f :: left) ∧
      e = .unreached f.keys := by
  unfold eliminate at h
  rw [Logged.outcome_bind_ok _ hdims] at h
  rcases eliminateAll_total o o.keys (dims_of_ok hdims).1 with ⟨⟨cs, left⟩, hall⟩ | ⟨k, hall⟩
  · rw [Logged.outcome_bind_ok _ hall] at h
    cases left with
    | nil => cases h
    | cons f left =>
      cases h
      exact ⟨cs, f, left, hall, rfl⟩
  · rw [Logged.outcome_bind_error _ hall] at h
    cases h

theorem reaches_iff_parentsFollow {net : BayesNet α} (h : (g.eliminate o).outcome = .ok net) :
    o.Reaches g ↔ ParentsFollow net.conditionals := by
  have hall := eliminateAll_of_eliminate hdims h
  have hel := (eliminateAll_ensures o o.keys (dims_of_ok hdims).1).of_eq_ok hall
  refine ⟨fun ho => (parentsFollow_of_eliminateAll ho hall).2, fun hfollow f hf j hj => ?_⟩
  rcases hel.accounted f hf j hj with hj | ⟨c, hc, hj⟩ | ⟨f', hf', -⟩
  · exact hj
  · rw [← hel.keys]
    exact hfollow.mem_keys c hc j hj
  · cases hf'

/-- **What an elimination that answers has not reached is what its steps have dropped.** -/
theorem mentioned_iff_drops {net : BayesNet α} (h : (g.eliminate o).outcome = .ok net) {j : Key}
    (hj : j ∉ o.keys) : (∃ f ∈ g.factors, j ∈ f.keys) ↔ Drops dims o j o.keys g.factors := by
  refine ⟨fun hmem => ?_, Drops.exists_mem⟩
  rcases mentioned_or_drops hj (eliminateAll_of_eliminate hdims h) hmem with ⟨f, hf, -⟩ | hdrops
  · cases hf
  · exact hdrops

/-- **Elimination finds out whether an order reaches all variables**, unless a step drops one of
them or a factor has none. The net of an elimination that answers is for the variables of the order,
in sequence. If no variable outside of the order is dropped then the order reaches all of them,
every parent follows, and no value is missing when the net is solved. In an order that reaches all
variables only a factor without variables is left over. -/
theorem eliminate_reaches :
    (∀ net, (g.eliminate o).outcome = .ok net →
      net.conditionals.map Conditional.key = o.keys ∧
      (o.Reaches g ↔ ∀ j, j ∉ o.keys → ¬ Drops dims o j o.keys g.factors) ∧
      (o.Reaches g ↔ ParentsFollow net.conditionals) ∧
      (o.Reaches g → FindsAll net.optimize ∧ ∀ x, FindsAll (net.backsubstitute x)) ∧
      ∀ x, FindsAll (net.backsubstituteTransposed x)) ∧
    (o.Reaches g → ∀ e, (g.eliminate o).outcome = .error (.cause (.ordering e)) →
      e = .unreached [] ∧ ∃ f ∈ g.factors, f.keys = []) := by
  refine ⟨fun net h => ?_, fun ho e h => ?_⟩
  · have hel := (eliminateAll_ensures o o.keys (dims_of_ok hdims).1).of_eq_ok
      (eliminateAll_of_eliminate hdims h)
    have hfollow := reaches_iff_parentsFollow hdims h
    refine ⟨hel.keys, ⟨fun ho j hj hdrops => ?_, fun hdrops f hf j hj => ?_⟩, hfollow,
      fun ho => ⟨(hfollow.mp ho).findsAll_solveBackwards _,
      fun x => (hfollow.mp ho).findsAll_solveBackwards _⟩, fun x => findsAll_solveForwards _ _ _ _⟩
    · obtain ⟨f, hf, hjf⟩ := hdrops.exists_mem
      exact hj (ho f hf j hjf)
    · by_contra hjo
      exact hdrops j hjo ((mentioned_iff_drops hdims h hjo).mp ⟨f, hf, hj⟩)
  · obtain ⟨cs, f, left, hall, rfl⟩ := eliminate_eq_ordering hdims h
    obtain ⟨hmem, hnil⟩ := of_mem_left ho hall f List.mem_cons_self
    exact ⟨congrArg OrderConflict.unreached hnil, f, hmem, hnil⟩

end GaussianGraph

/-! ### Three equations -/

namespace ThreeEquations

def first : Key := ⟨'x', 1⟩

def second : Key := ⟨'x', 2⟩

/-- The equation `x₁ + x₂ = 0`. -/
def sum : GaussianFactor Float where
  terms := [(first, Mat.ofRows 1 [⟨[1]⟩]), (second, Mat.ofRows 1 [⟨[1]⟩])]
  rhs := ⟨[0]⟩
  height_eq := by decide
  nodup := by decide

/-- The equation `x₂ = 1`. -/
def value : GaussianFactor Float where
  terms := [(second, Mat.ofRows 1 [⟨[1]⟩])]
  rhs := ⟨[1]⟩
  height_eq := by decide
  nodup := by decide

/-- The equation `0 = 1`, which has no variables. -/
def constant : GaussianFactor Float where
  terms := []
  rhs := ⟨[1]⟩
  height_eq := by decide
  nodup := by decide

def firstOnly : EliminationOrder := ⟨[first], by decide⟩

def both : EliminationOrder := ⟨[first, second], by decide⟩

theorem eliminate_reaches_both :
    ∃ dims net, (GaussianGraph.dims ⟨[sum, value]⟩).outcome = .ok dims ∧
    (GaussianGraph.eliminate ⟨[sum, value]⟩ both).outcome = .ok net ∧
    net.conditionals.map Conditional.key = both.keys ∧ BayesNet.ParentsFollow net.conditionals ∧
      FindsAll net.optimize := by
  have hok : (GaussianGraph.eliminate ⟨[sum, value]⟩ both).outcome.isOk = true := by decide +kernel
  have hreaches : both.Reaches ⟨[sum, value]⟩ := by
    unfold EliminationOrder.Reaches
    decide
  obtain ⟨net, hnet⟩ := Logged.exists_of_isOk hok
  obtain ⟨dims, hdims, -⟩ := Logged.outcome_bind_eq_ok.mp hnet
  obtain ⟨hkeys, -, hfollow, hfinds, -⟩ :=
    (GaussianGraph.eliminate_reaches (o := both) hdims).1 net hnet
  exact ⟨dims, net, hdims, hnet, hkeys, hfollow.mp hreaches, (hfinds hreaches).1⟩

/-- Whether a computation stops because the second variable has no value. -/
def missesSecond {β : Type} : Except (Stop (LinearError Float)) β → Bool
  | .error (.cause (.missingKey k)) => k == second
  | _ => false

/-- Whether a factor without variables is not reached. -/
def isUnreached {β : Type} : Except (Stop (LinearError Float)) β → Bool
  | .error (.cause (.ordering (.unreached []))) => true
  | _ => false

/-- An elimination of the first variable answers although the second one is not in the order, and
then its value is missing. A factor without variables is not reached by an order of all
variables. -/
theorem eliminate_not_reaches :
    (∃ net, (GaussianGraph.eliminate ⟨[sum]⟩ firstOnly).outcome = .ok net ∧
      ¬ firstOnly.Reaches ⟨[sum]⟩ ∧
      net.optimize.outcome = .error (.cause (.missingKey second))) ∧
    both.Reaches ⟨[constant, sum, value]⟩ ∧
    (GaussianGraph.eliminate ⟨[constant, sum, value]⟩ both).outcome =
      .error (.cause (.ordering (.unreached []))) := by
  have hok : (GaussianGraph.eliminate ⟨[sum]⟩ firstOnly).outcome.isOk = true := by decide +kernel
  have hmisses : missesSecond (GaussianGraph.optimize ⟨[sum]⟩ firstOnly).outcome = true := by
    decide +kernel
  have hunreached : isUnreached (GaussianGraph.eliminate ⟨[constant, sum, value]⟩ both).outcome =
      true := by
    decide +kernel
  obtain ⟨net, hnet⟩ := Logged.exists_of_isOk hok
  refine ⟨⟨net, hnet, ?_, ?_⟩, ?_, ?_⟩
  · unfold EliminationOrder.Reaches
    decide
  · rw [GaussianGraph.optimize, Logged.outcome_bind_ok _ hnet] at hmisses
    unfold missesSecond at hmisses
    split at hmisses
    · next k h => rw [h, eq_of_beq hmisses]
    · cases hmisses
  · unfold EliminationOrder.Reaches
    decide
  · unfold isUnreached at hunreached
    split at hunreached
    · next h => exact h
    · cases hunreached

end ThreeEquations

end Smoothing
