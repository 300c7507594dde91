import Mathlib
import Smoothing.Linear.Pool
import Smoothing.Proofs.Linear.Columns
import Smoothing.Proofs.Linear.Reached

/-!
# Elimination with an index stays in range

The index of a pool of factors is right if it lists the place of every factor under each of its
variables, and under a variable no factor that does not mention it (`Elimination.Pool.Indexed`).
Then the factors that are listed for a variable are those that mention it, in the order in which
they came (`Elimination.Pool.gather?_spec`). So every step takes its factors from places that were
not empty, and leaves no factor of a variable that has been eliminated
(`Elimination.Pool.step_ensures`, `Elimination.Pool.run_ensures`).

An elimination with an index is the same as one that searches all factors
(`Elimination.Pool.run_eq`), for every problem with consistent widths and in every order. It
answers, or names a variable that is not determined, or a factor that is not reached: it is never
stopped by a place out of range or a variable that is missing
(**`GaussianGraph.eliminateIndexed_total`**).
-/

namespace Smoothing

namespace Elimination

namespace Pool

/-! ### Places -/

/-- What is at a place, if it is in range and not empty. -/
def live? {β : Type} (places : List (Option β)) (i : ℕ) : Option β := places[i]?.join

section Places
variable {β : Type}

theorem live?_of_length_le {places : List (Option β)} {i : ℕ} (h : places.length ≤ i) :
    live? places i = none := by
  rw [live?, List.getElem?_eq_none h]
  rfl

theorem live?_set (places : List (Option β)) (i j : ℕ) :
    live? (places.set i none) j = if j = i then none else live? places j := by
  unfold live?
  split_ifs with h
  · subst h
    by_cases hj : j < places.length <;> simp [hj]
  · rw [List.getElem?_set_ne (Ne.symm h)]

theorem live?_append (places : List (Option β)) (b : β) (i : ℕ) :
    live? (places ++ [some b]) i = if i = places.length then some b else live? places i := by
  unfold live?
  split_ifs with h
  · rw [h, List.getElem?_concat_length]
    rfl
  · rcases lt_or_gt_of_ne h with h | h
    · rw [List.getElem?_append_left h]
    · rw [List.getElem?_eq_none (by simpa using h), List.getElem?_eq_none h.le]

theorem filterMap_id_eq (places : List (Option β)) :
    places.filterMap id = (List.range places.length).filterMap (live? places) := by
  have hplaces : places = (List.range places.length).map (live? places) :=
    List.ext_getElem (by simp) fun i hi _ => by simp [live?, hi]
  conv_lhs => rw [hplaces, List.filterMap_map]
  rfl

end Places

variable {α : Type}

theorem left_eq (p : Pool α) : p.left = (List.range p.places.length).filterMap (live? p.places) :=
  filterMap_id_eq _

theorem mem_left {p : Pool α} {f : GaussianFactor α} :
    f ∈ p.left ↔ ∃ i, live? p.places i = some f := by
  rw [left_eq, List.mem_filterMap]
  refine ⟨fun ⟨i, _, h⟩ => ⟨i, h⟩,
    fun ⟨i, h⟩ => ⟨i, List.mem_range.mpr (not_le.mp fun hle => ?_), h⟩⟩
  rw [live?_of_length_le hle] at h
  cases h

/-- **Taking factors away** from places in range empties these places. -/
theorem take?_spec {is : List ℕ} {places : List (Option (GaussianFactor α))} (hn : is.Nodup)
    (hlt : ∀ i ∈ is, i < places.length) :
    ∃ places', take? is places = some (is.filterMap fun i => (live? places i).map (i, ·), places') ∧
      places'.length = places.length ∧ ∀ j, live? places' j = if j ∈ is then none
      else live? places j := by
  induction is generalizing places with
  | nil => exact ⟨places, rfl, rfl, fun j => by simp⟩
  | cons i is ih =>
    obtain ⟨hi, hn⟩ := List.nodup_cons.mp hn
    obtain ⟨hilt, hlt⟩ := List.forall_mem_cons.mp hlt
    cases hplace : places[i] with
    | none =>
      have hlive : live? places i = none := by simp [live?, hilt, hplace]
      obtain ⟨places', htake, hlength, hget⟩ := ih hn hlt
      refine ⟨places', ?_, hlength, fun j => ?_⟩
      · rw [take?, List.getElem?_eq_getElem hilt, hplace, List.filterMap_cons, hlive]
        exact htake
      · rw [hget]
        by_cases hj : j = i
        · simp [hj, hlive]
        · simp [hj]
    | some f =>
      have hlive : live? places i = some f := by simp [live?, hilt, hplace]
      have hlt' : ∀ j ∈ is, j < (places.set i none).length := by simpa using hlt
      obtain ⟨places', htake, hlength, hget⟩ := ih hn hlt'
      have hrest : (is.filterMap fun j => (live? (places.set i none) j).map (j, ·)) =
          is.filterMap fun j => (live? places j).map (j, ·) :=
        List.filterMap_congr fun j hj => by rw [live?_set, if_neg (ne_of_mem_of_not_mem hj hi)]
      refine ⟨places', ?_, hlength.trans List.length_set, fun j => ?_⟩
      · rw [take?, List.getElem?_eq_getElem hilt, hplace, List.filterMap_cons, hlive]
        dsimp only
        rw [htake, hrest]
        rfl
      · rw [hget, live?_set]
        by_cases hj : j = i <;> simp [hj]

/-! ### The index -/

/-- The index of a pool is right: every factor is listed under each of its variables. -/
structure Indexed (p : Pool α) : Prop where
  listed : ∀ i f, live? p.places i = some f → ∀ k ∈ f.keys, i ∈ p.listed k
  mentions : ∀ k, ∀ i ∈ p.listed k, ∀ f, live? p.places i = some f → k ∈ f.keys
  lt : ∀ k, ∀ i ∈ p.listed k, i < p.places.length
  sorted : ∀ k, (p.listed k).Pairwise (· < ·)

theorem Indexed.mem_listed_iff {p : Pool α} (h : p.Indexed) {i : ℕ} {f : GaussianFactor α}
    (hf : live? p.places i = some f) (k : Key) : i ∈ p.listed k ↔ f.mentions k = true := by
  rw [mentions_iff]
  exact ⟨fun hi => h.mentions k i hi f hf, h.listed i f hf k⟩

/-- The places that are listed for a variable are some of all places, in order. -/
theorem Indexed.listed_eq_filter {p : Pool α} (h : p.Indexed) (k : Key) :
    p.listed k = (List.range p.places.length).filter (· ∈ p.listed k) := by
  have hsorted := h.sorted k
  have hrange : ((List.range p.places.length).filter (· ∈ p.listed k)).Pairwise (· < ·) :=
    List.pairwise_lt_range.filter _
  have hmem : ∀ i, i ∈ p.listed k ↔
      i ∈ (List.range p.places.length).filter (· ∈ p.listed k) := fun i => by
    rw [List.mem_filter, List.mem_range, decide_eq_true_iff]
    exact ⟨fun hi => ⟨h.lt k i hi, hi⟩, And.right⟩
  have hperm := (List.perm_ext_iff_of_nodup (hsorted.imp ne_of_lt) (hrange.imp ne_of_lt)).mpr hmem
  exact hperm.eq_of_pairwise (fun a b _ _ hab hba => absurd hba (lt_asymm hab)) hsorted hrange

/-- The factors that are listed for a variable are those that mention it, as both are picked from
all places. -/
theorem Indexed.filterMap_listed {p : Pool α} (h : p.Indexed) (k : Key) :
    (p.listed k).filterMap (live? p.places) = p.left.filter (·.mentions k) := by
  rw [h.listed_eq_filter, List.filterMap_filter, left_eq, List.filter_filterMap]
  refine List.filterMap_congr fun i _ => ?_
  cases hi : live? p.places i with
  | none => simp
  | some f => simp [h.mem_listed_iff hi, Option.filter]

/-! ### Gathering -/

/-- A pool without the factors that are listed for a variable, which is no longer in the index. -/
structure Empties (p : Pool α) (k : Key) (q : Pool α) : Prop where
  length : q.places.length = p.places.length
  live : ∀ i, live? q.places i = if i ∈ p.listed k then none else live? p.places i
  listed : ∀ j, q.listed j = if j = k then [] else p.listed j

namespace Empties
variable {p q : Pool α} {k : Key} (hq : p.Empties k q)
include hq

theorem of_live {i : ℕ} {f : GaussianFactor α} (hi : live? q.places i = some f) :
    i ∉ p.listed k ∧ live? p.places i = some f := by
  rw [hq.live] at hi
  split_ifs at hi with hik
  exact ⟨hik, hi⟩

theorem mem_listed {i : ℕ} {j : Key} (hi : i ∈ q.listed j) : i ∈ p.listed j := by
  rw [hq.listed] at hi
  split_ifs at hi with hjk
  · cases hi
  · exact hi

theorem left (h : p.Indexed) : q.left = p.left.filter fun f => !f.mentions k := by
  rw [left_eq, left_eq, List.filter_filterMap, hq.length]
  refine List.filterMap_congr fun i _ => ?_
  rw [hq.live]
  cases hi : live? p.places i with
  | none => simp
  | some f => by_cases hik : i ∈ p.listed k <;> simp [hik, Option.filter, ← h.mem_listed_iff hi]

/-- A factor that stays does not mention the variable, so it stays listed for all of its
variables. -/
theorem indexed (h : p.Indexed) : q.Indexed := by
  refine ⟨fun i f hi j hj => ?_, fun j i hij f hi => ?_, fun j i hij => ?_, fun j => ?_⟩
  · obtain ⟨hik, hold⟩ := hq.of_live hi
    have hlisted := h.listed i f hold j hj
    rwa [hq.listed, if_neg (by rintro rfl; exact hik hlisted)]
  · exact h.mentions j i (hq.mem_listed hij) f (hq.of_live hi).2
  · exact (h.lt j i (hq.mem_listed hij)).trans_eq hq.length.symm
  · rw [hq.listed]
    split_ifs
    · exact List.Pairwise.nil
    · exact h.sorted j

end Empties

/-- **Gathering looks at places in range only**, and empties them. -/
theorem exists_gather? {p : Pool α} (h : p.Indexed) (k : Key) :
    ∃ q, p.gather? k = some ((p.listed k).filterMap fun i => (live? p.places i).map (i, ·), q) ∧
    p.Empties k q := by
  obtain ⟨places, htake, hlength, hlive⟩ := take?_spec ((h.sorted k).imp ne_of_lt) (h.lt k)
  refine ⟨⟨places, p.involved.erase k⟩, by rw [gather?, htake]; rfl, hlength, hlive, fun j => ?_⟩
  rw [listed, KeyMap.get?_erase]
  split_ifs <;> rfl

/-- What gathering the factors of a variable from a pool leads to. -/
structure Gathers (p : Pool α) (k : Key) (gathered : List (ℕ × GaussianFactor α)) (q : Pool α) :
    Prop where
  factors : gathered.map (·.2) = p.left.filter (·.mentions k)
  left : q.left = p.left.filter fun f => !f.mentions k
  indexed : q.Indexed
  length : q.places.length = p.places.length
  nodup : (gathered.map (·.1)).Nodup
  taken : ∀ i ∈ gathered.map (·.1), i < p.places.length ∧ live? p.places i ≠ none ∧
    live? q.places i = none
  spent : ∀ i, live? p.places i = none → live? q.places i = none

/-- **The factors that are listed for a variable are those that mention it**, and all of them are
taken away. -/
theorem gather?_spec {p : Pool α} (h : p.Indexed) (k : Key) :
    ∃ gathered q, p.gather? k = some (gathered, q) ∧ p.Gathers k gathered q := by
  obtain ⟨q, hgather, hq⟩ := exists_gather? h k
  have hplaces : ((p.listed k).filterMap fun i => (live? p.places i).map (i, ·)).map (·.1) =
      (p.listed k).filter fun i => (live? p.places i).isSome := by
    rw [List.map_filterMap, ← List.filterMap_eq_filter]
    refine List.filterMap_congr fun i _ => ?_
    cases hi : live? p.places i <;> simp [hi, Option.guard]
  refine ⟨_, q, hgather, ?_, hq.left h, hq.indexed h, hq.length, ?_, fun i hi => ?_, fun i hi => ?_⟩
  · rw [← h.filterMap_listed, List.map_filterMap]
    simp
  · rw [hplaces]
    exact ((h.sorted k).imp ne_of_lt).filter _
  · rw [hplaces, List.mem_filter] at hi
    exact ⟨h.lt k i hi.1, Option.isSome_iff_ne_none.mp hi.2, by rw [hq.live, if_pos hi.1]⟩
  · rw [hq.live, hi, ite_self]

/-! ### New places -/

theorem listed_foldl_listFor (i : ℕ) {ks : List Key} (hn : ks.Nodup)
    (m : KeyMap (List ℕ)) (k : Key) :
    ((ks.foldl (listFor i) m).get? k).getD [] = (m.get? k).getD [] ++ if k ∈ ks then [i]
      else [] := by
  induction ks generalizing m with
  | nil => simp
  | cons j ks ih =>
    obtain ⟨hj, hn⟩ := List.nodup_cons.mp hn
    rw [List.foldl_cons, ih hn, listFor, KeyMap.get?_insert]
    by_cases hkj : k = j
    · simp [hkj, hj]
    · simp [hkj]

theorem listed_add (p : Pool α) (f : GaussianFactor α) (k : Key) :
    (p.add f).listed k = p.listed k ++ if k ∈ f.keys then [p.places.length] else [] :=
  listed_foldl_listFor _ f.nodup _ _

theorem live?_add (p : Pool α) (f : GaussianFactor α) (i : ℕ) :
    live? (p.add f).places i = if i = p.places.length then some f else live? p.places i :=
  live?_append _ _ _

theorem left_add (p : Pool α) (f : GaussianFactor α) : (p.add f).left = p.left ++ [f] :=
  List.filterMap_append

theorem length_add (p : Pool α) (f : GaussianFactor α) :
    (p.add f).places.length = p.places.length + 1 :=
  List.length_append

theorem Indexed.add {p : Pool α} (h : p.Indexed) (f : GaussianFactor α) : (p.add f).Indexed := by
  refine ⟨fun i g hi k hk => ?_, fun k i hi g hg => ?_, fun k i hi => ?_, fun k => ?_⟩
  · rw [live?_add] at hi
    rw [listed_add, List.mem_append]
    split_ifs at hi with hnew
    · cases hi
      simp [hnew, hk]
    · exact .inl (h.listed i g hi k hk)
  · rw [listed_add, List.mem_append] at hi
    rw [live?_add] at hg
    rcases hi with hi | hi
    · rw [if_neg (h.lt k i hi).ne] at hg
      exact h.mentions k i hi g hg
    · split_ifs at hi with hk
      · rw [if_pos (List.mem_singleton.mp hi)] at hg
        cases hg
        exact hk
      · cases hi
  · rw [listed_add, List.mem_append] at hi
    rw [length_add, Nat.lt_succ_iff]
    rcases hi with hi | hi
    · exact (h.lt k i hi).le
    · split_ifs at hi
      · exact (List.mem_singleton.mp hi).le
      · cases hi
  · rw [listed_add, List.pairwise_append]
    refine ⟨h.sorted k, by split_ifs <;> simp, fun i hi j hj => ?_⟩
    split_ifs at hj
    · rw [List.mem_singleton.mp hj]
      exact h.lt k i hi
    · cases hj

theorem indexed_empty : (empty : Pool α).Indexed :=
  ⟨fun _ _ h => by simp [live?, empty] at h, fun _ _ h => absurd h List.not_mem_nil,
    fun _ _ h => absurd h List.not_mem_nil, fun _ => List.Pairwise.nil⟩

theorem ofFactors_spec (fs : List (GaussianFactor α)) :
    (ofFactors fs).Indexed ∧ (ofFactors fs).left = fs := by
  have hadd : ∀ p : Pool α, p.Indexed → (fs.foldl add p).Indexed ∧
      (fs.foldl add p).left = p.left ++ fs := by
    induction fs with
    | nil => exact fun p hp => ⟨hp, (List.append_nil _).symm⟩
    | cons f fs ih =>
      intro p hp
      obtain ⟨hindexed, hleft⟩ := ih (p.add f) (hp.add f)
      exact ⟨hindexed, by
        rw [List.foldl_cons, hleft, left_add, List.append_assoc, List.singleton_append]⟩
  exact hadd empty indexed_empty

theorem left_addRemainder (p : Pool α) (r : Option (GaussianFactor α)) :
    (p.addRemainder r).left = p.left ++ r.toList := by
  cases r with
  | none => exact (List.append_nil _).symm
  | some f => exact left_add p f

theorem Indexed.addRemainder {p : Pool α} (h : p.Indexed) (r : Option (GaussianFactor α)) :
    (p.addRemainder r).Indexed := by
  cases r with
  | none => exact h
  | some f => exact h.add f

/-! ### One step -/

/-- What holds of a pool after the variables `done` have been eliminated by gathering factors from
the places `used`. -/
structure Tracks (dims : KeyMap ℕ) (done : List Key) (used : List ℕ) (p : Pool α) : Prop where
  indexed : p.Indexed
  consistent : Consistent dims p.left
  /-- No factor mentions a variable that has been eliminated. -/
  avoids : ∀ f ∈ p.left, ∀ k ∈ f.keys, k ∉ done
  /-- No place has been used twice. -/
  nodup : used.Nodup
  /-- The places that have been used are empty. -/
  spent : ∀ i ∈ used, i < p.places.length ∧ live? p.places i = none

theorem tracks_ofFactors {dims : KeyMap ℕ} {fs : List (GaussianFactor α)}
    (hc : Consistent dims fs) : (ofFactors fs).Tracks dims [] [] := by
  obtain ⟨hindexed, hleft⟩ := ofFactors_spec fs
  exact ⟨hindexed, hleft.symm ▸ hc, fun _ _ _ _ => List.not_mem_nil, List.nodup_nil, by simp⟩

section Step
variable {dims : KeyMap ℕ} {done : List Key} {used : List ℕ} {p q : Pool α} {k : Key}
  {gathered : List (ℕ × GaussianFactor α)}

theorem Tracks.gather (hp : p.Tracks dims done used) (h : p.Gathers k gathered q) :
    q.Tracks dims (done ++ [k]) (used ++ gathered.map (·.1)) := by
  have hmem : ∀ f ∈ q.left, f ∈ p.left ∧ k ∉ f.keys := fun f hf => by
    rw [h.left, List.mem_filter, Bool.not_eq_true', ← Bool.not_eq_true, mentions_iff] at hf
    exact hf
  refine ⟨h.indexed, fun f hf => hp.consistent f (hmem f hf).1, fun f hf j hj => ?_, ?_,
    fun i hi => ?_⟩
  · rw [List.mem_append, List.mem_singleton, not_or]
    exact ⟨hp.avoids f (hmem f hf).1 j hj, fun hjk => (hmem f hf).2 (hjk ▸ hj)⟩
  · refine hp.nodup.append h.nodup fun i hi hi' => ?_
    exact (h.taken i hi').2.1 (hp.spent i hi).2
  · rw [h.length]
    rcases List.mem_append.mp hi with hi | hi
    · exact ⟨(hp.spent i hi).1, h.spent i (hp.spent i hi).2⟩
    · exact ⟨(h.taken i hi).1, (h.taken i hi).2.2⟩

theorem Tracks.addRemainder (hp : p.Tracks dims done used) {r : Option (GaussianFactor α)}
    (hc : Consistent dims r.toList) (hr : ∀ f ∈ r.toList, ∀ k ∈ f.keys, k ∉ done) :
    (p.addRemainder r).Tracks dims done used := by
  have hleft := left_addRemainder p r
  refine ⟨hp.indexed.addRemainder r, fun f hf => ?_, fun f hf => ?_, hp.nodup, fun i hi => ?_⟩
  · rw [hleft] at hf
    exact (List.mem_append.mp hf).elim (hp.consistent f) (hc f)
  · rw [hleft] at hf
    exact (List.mem_append.mp hf).elim (hp.avoids f) (hr f)
  · obtain ⟨hlt, hlive⟩ := hp.spent i hi
    cases r with
    | none => exact ⟨hlt, hlive⟩
    | some f =>
      refine ⟨?_, by rw [Pool.addRemainder, live?_add, if_neg hlt.ne, hlive]⟩
      rw [Pool.addRemainder, length_add]
      exact Nat.lt_succ_of_lt hlt

variable [Scalar α]

theorem step_eq (hp : p.Indexed) (hc : Consistent dims p.left) (o : EliminationOrder) (k : Key) :
    ∃ gathered q, p.Gathers k gathered q ∧ step dims o k p =
      match dims.get? k with
      | none => (LinearError.degenerate k).stop
      | some dim =>
        if (p.left.filter (·.mentions k)).isEmpty then (LinearError.degenerate k).stop
        else eliminateOne k dim (p.left.filter (·.mentions k)) dims o >>= fun a =>
          pure (⟨a.1, gathered.map (·.1)⟩, q.addRemainder a.2) := by
  obtain ⟨gathered, q, hgather, h⟩ := gather?_spec hp k
  refine ⟨gathered, q, h, ?_⟩
  have hempty : gathered.isEmpty = (p.left.filter (·.mentions k)).isEmpty := by
    rw [← h.factors, List.isEmpty_map]
  rw [step, hgather, Logged.fromOption_some, pure_bind]
  cases hk : dims.get? k with
  | none => rfl
  | some dim =>
    dsimp only
    rw [hempty, h.factors, eliminateOneIndexed_eq (hc.filter _) hk]

/-- **What one step keeps.** The remainder mentions only variables of factors that have been
gathered. -/
theorem step_ensures (hp : p.Tracks dims done used) (o : EliminationOrder) (k : Key) :
    (step dims o k p).Ensures fun a => a.2.Tracks dims (done ++ [k]) (used ++ a.1.gathered) := by
  obtain ⟨gathered, q, h, hstep⟩ := step_eq hp.indexed hp.consistent o k
  rw [hstep]
  cases hk : dims.get? k with
  | none => exact .of_outcome_eq_cause rfl
  | some dim =>
    dsimp only
    split
    · exact .of_outcome_eq_cause rfl
    have hone :=
      (eliminateOne_ensures (hp.consistent.filter _) hk o).imp
        (Q := fun a => Consistent dims a.2.toList ∧
      ∀ f ∈ a.2.toList, f.keys = separator o k (p.left.filter (·.mentions k))) fun a ha hreplaces =>
        ⟨hreplaces.consistent, fun f hf => ((keys_of_eliminateOne ha).2.2 f hf).1⟩
    refine .bind hone fun a ⟨hc, hkeys⟩ => .pure ((hp.gather h).addRemainder hc fun f hf j hj => ?_)
    rw [hkeys f hf] at hj
    obtain ⟨hjk, f', hf', hjf'⟩ := mem_separator.mp hj
    rw [List.mem_append, List.mem_singleton, not_or]
    exact ⟨hp.avoids f' (List.mem_filter.mp hf').1 j hjf', hjk⟩

end Step

/-! ### All steps -/

section Run
variable [Scalar α] {dims : KeyMap ℕ} {p : Pool α} (o : EliminationOrder)

/-- **What a run keeps**, by induction on the variables, with one step for each. -/
theorem run_ensures (ks : List Key) {done : List Key} {used : List ℕ}
    (hp : p.Tracks dims done used) :
    (run dims o ks p).Ensures fun a =>
      a.2.Tracks dims (done ++ ks) (used ++ a.1.flatMap (·.gathered)) := by
  induction ks generalizing done used p with
  | nil => exact .pure (by simpa using hp)
  | cons k ks ih =>
    refine .bind (step_ensures hp o k) fun a ha => .bind (ih ha) fun b hb => .pure ?_
    rw [List.flatMap_cons, ← List.append_assoc]
    rwa [List.append_assoc, List.singleton_append] at hb

/-- A run over two lists of variables is one over the first and then one over the second. So the
pools that a run goes through are the answers of the runs over its first variables. -/
theorem run_append (ks js : List Key) : run dims o (ks ++ js) p =
    run dims o ks p >>= fun a => run dims o js a.2 >>= fun b => pure (a.1 ++ b.1, b.2) := by
  induction ks generalizing p with
  | nil => simp [run]
  | cons k ks ih => simp [run, ih]

/-- **A run with an index is one that searches all factors.** -/
theorem run_eq (ks : List Key) (hp : p.Indexed) (hc : Consistent dims p.left) :
    (fun a => (a.1.map (·.conditional), a.2.left)) <$> run dims o ks p =
    eliminateAll dims o ks p.left := by
  induction ks generalizing p with
  | nil => rfl
  | cons k ks ih =>
    obtain ⟨gathered, q, h, hstep⟩ := step_eq hp hc o k
    rw [run, hstep, eliminateAll]
    cases hk : dims.get? k with
    | none => rfl
    | some dim =>
      dsimp only
      split
      · rfl
      simp only [bind_assoc, pure_bind, map_bind, map_pure]
      refine Logged.bind_congr_ok fun a ha => ?_
      have hleft := left_addRemainder q a.2
      rw [h.left] at hleft
      have hnext : Consistent dims (q.addRemainder a.2).left := by
        rw [hleft]
        exact consistent_next hc (consistent_of_eliminateOne ha)
      rw [← hleft, ← ih (h.indexed.addRemainder a.2) hnext]
      simp

end Run

end Pool

end Elimination

namespace GaussianGraph

variable {α : Type} [Scalar α] {g : GaussianGraph α} {dims : KeyMap ℕ}

theorem eliminateIndexed_eq (g : GaussianGraph α) (o : EliminationOrder) :
    g.eliminateIndexed o = g.eliminate o := by
  unfold eliminateIndexed eliminate
  refine Logged.bind_congr_ok fun dims hdims => ?_
  obtain ⟨hindexed, hleft⟩ := Elimination.Pool.ofFactors_spec g.factors
  have hc : Consistent dims (Elimination.Pool.ofFactors g.factors).left :=
    hleft.symm ▸ (dims_of_ok hdims).1
  have hrun := Elimination.Pool.run_eq o o.keys hindexed hc
  rw [hleft] at hrun
  rw [← hrun, map_eq_pure_bind, bind_assoc]
  refine bind_congr fun a => ?_
  cases hleft : a.2.left <;> simp [hleft]

variable (hdims : g.dims.outcome = .ok dims) (o : EliminationOrder)
include hdims

/-- **An elimination answers, or it names a variable that is not determined or a factor that is not
reached.** -/
theorem eliminate_total : (∃ net, (g.eliminate o).outcome = .ok net) ∨
    (∃ k, (g.eliminate o).outcome = .error (.cause (.degenerate k))) ∨
      ∃ ks, (g.eliminate o).outcome = .error (.cause (.ordering (.unreached ks))) := by
  unfold eliminate
  rw [Logged.outcome_bind_ok _ hdims]
  rcases Elimination.eliminateAll_total o o.keys (dims_of_ok hdims).1
    with ⟨⟨cs, left⟩, hall⟩ | ⟨k, hall⟩
  · rw [Logged.outcome_bind_ok _ hall]
    cases left with
    | nil => exact .inl ⟨_, rfl⟩
    | cons f left => exact .inr (.inr ⟨f.keys, rfl⟩)
  · exact .inr (.inl ⟨k, Logged.outcome_bind_error _ hall⟩)

/-- **An elimination with an index stays in range**, for every problem with consistent widths and in
every order. Of the ways to stop it has only two: a variable that is not determined, and a factor
that is not reached. After any steps the factors that are left mention no variable that has been
eliminated and are listed for all of theirs, and a variable that comes next takes its factors from
places that have not been used before. -/
theorem eliminateIndexed_total : g.eliminateIndexed o = g.eliminate o ∧
    ((∃ net, (g.eliminateIndexed o).outcome = .ok net) ∨
      (∃ k, (g.eliminateIndexed o).outcome = .error (.cause (.degenerate k))) ∨
        ∃ ks, (g.eliminateIndexed o).outcome = .error (.cause (.ordering (.unreached ks)))) ∧
    ∀ done steps p, (Elimination.Pool.run dims o done (.ofFactors g.factors)).outcome =
      .ok (steps, p) →
      (∀ i f, p.places[i]? = some (some f) → ∀ k ∈ f.keys, k ∉ done ∧ i ∈ p.listed k) ∧
      ∀ k, ∃ taken q, p.gather? k = some (taken, q) ∧
        (steps.flatMap (·.gathered) ++ taken.map (·.1)).Nodup := by
  refine ⟨eliminateIndexed_eq g o, eliminateIndexed_eq g o ▸ eliminate_total hdims o,
    fun done steps p hrun => ?_⟩
  have hstart := Elimination.Pool.tracks_ofFactors (dims_of_ok hdims).1
  have hp := (Elimination.Pool.run_ensures o done hstart).of_eq_ok hrun
  rw [List.nil_append, List.nil_append] at hp
  refine ⟨fun i f hi k hk => ?_, fun k => ?_⟩
  · have hlive : Elimination.Pool.live? p.places i = some f := by
      rw [Elimination.Pool.live?, hi]; rfl
    exact ⟨hp.avoids f (Elimination.Pool.mem_left.mpr ⟨i, hlive⟩) k hk,
      hp.indexed.listed i f hlive k hk⟩
  · obtain ⟨taken, q, htaken, hq⟩ := Elimination.Pool.gather?_spec hp.indexed k
    exact ⟨taken, q, htaken, (hp.gather hq).nodup⟩

end GaussianGraph

namespace ThreeEquations

/-- The widths of the two variables. -/
def dims : KeyMap ℕ := ⟨[(first, 1), (second, 1)], by decide⟩

/-- One equation twice: its variables are eliminated, and the remainder of the first one is gathered
for the second. -/
theorem eliminateIndexed_repeated :
    (∃ net, (GaussianGraph.eliminateIndexed ⟨[sum, sum, value]⟩ both).outcome = .ok net ∧
      (GaussianGraph.eliminate ⟨[sum, sum, value]⟩ both).outcome = .ok net) ∧
    ∃ steps p, (Elimination.Pool.run dims both [first] (.ofFactors [sum, sum, value])).outcome =
      .ok (steps, p) ∧
      (∀ i f, p.places[i]? = some (some f) → ∀ k ∈ f.keys, k ∉ [first] ∧ i ∈ p.listed k) ∧
      ∃ taken q, p.gather? second = some (taken, q) ∧
        (steps.flatMap (·.gathered) ++ taken.map (·.1)).Nodup := by
  have hok : (GaussianGraph.eliminateIndexed ⟨[sum, sum, value]⟩ both).outcome.isOk = true := by
    decide +kernel
  have hstep :
      (Elimination.Pool.run dims both [first] (.ofFactors [sum, sum, value])).outcome.isOk =
      true := by
    decide +kernel
  obtain ⟨net, hnet⟩ := Logged.exists_of_isOk hok
  obtain ⟨⟨steps, p⟩, hrun⟩ := Logged.exists_of_isOk hstep
  have hdims : (GaussianGraph.dims ⟨[sum, sum, value]⟩).outcome = .ok dims := rfl
  obtain ⟨heq, -, hafter⟩ := GaussianGraph.eliminateIndexed_total hdims both
  obtain ⟨hleft, hnext⟩ := hafter [first] steps p hrun
  exact ⟨⟨net, hnet, heq ▸ hnet⟩, steps, p, hrun, hleft, hnext second⟩

end ThreeEquations

end Smoothing
