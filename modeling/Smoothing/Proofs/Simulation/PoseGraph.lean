import Mathlib
import Smoothing.Proofs.Scalar.Whole
import Smoothing.Proofs.Simulation.Trajectory
import Smoothing.Simulation.PoseGraph

/-!
# Where simulated poses lie, and what they are compared with

The poses of a grid stand exactly at the cells of the path: the coordinates are whole numbers that
are stored without rounding (`PoseGraph.standsAt_pose`). So the true poses visit every cell of the
lattice once, in steps of length one, and which pairs of them are compared can be said by where they
stand. Together with the comparisons on a ring, the differences that are never below zero and the
keys of compared poses, which are never the same, this is `PoseGraph.simulation_laid_out`.
-/

namespace Smoothing.PoseGraph

/-! ### Positions -/

/-- The position of a pose is a cell, exactly. -/
def StandsAt (g : SE2 Float) (p : Cell) : Prop :=
  Binary64.rational? g.x = some (p.1 : ℚ) ∧ Binary64.rational? g.y = some (p.2 : ℚ)

theorem StandsAt.unique {g : SE2 Float} {p q : Cell} (hp : StandsAt g p) (hq : StandsAt g q) :
    p = q := by
  have hcolumn := Option.some.inj (hp.1.symm.trans hq.1)
  have hrow := Option.some.inj (hp.2.symm.trans hq.2)
  exact Prod.ext (Nat.cast_injective hcolumn) (Nat.cast_injective hrow)

/-- The positions of two poses have the distance one, exactly. -/
def UnitApart (g h : SE2 Float) : Prop :=
  ∃ x y x' y' : ℚ, Binary64.rational? g.x = some x ∧ Binary64.rational? g.y = some y ∧
    Binary64.rational? h.x = some x' ∧ Binary64.rational? h.y = some y' ∧
    (x' - x) ^ 2 + (y' - y) ^ 2 = 1

theorem StandsAt.unitApart {g h : SE2 Float} {p q : Cell} (hp : StandsAt g p) (hq : StandsAt h q)
    (hpq : Grid.Neighbours p q) : UnitApart g h := by
  refine ⟨_, _, _, _, hp.1, hp.2, hq.1, hq.2, ?_⟩
  rcases hpq with ⟨hrow, hcolumn | hcolumn⟩ | ⟨hcolumn, hrow | hrow⟩ <;> rw [hrow, hcolumn] <;>
    push_cast <;> ring

/-! ### The poses of a grid -/

section Grid
variable {s : Scenario} (ht : s.topology = .grid)
include ht

theorem pose_eq_gridPose (i : ℕ) : pose s i = gridPose s.size i := by
  rw [pose, ht]

/-- **A pose stands at its cell of the path.** -/
theorem standsAt_pose (hword : s.size * s.size ≤ 2 ^ 64) {i : ℕ} (hi : i < s.size * s.size) :
    StandsAt (pose s i) (Grid.cell s.size i) := by
  have hside : s.size ≤ 2 ^ 32 := Nat.mul_self_le_mul_self_iff.mp (hword.trans_eq (by norm_num))
  have hexact : ∀ {n}, n < s.size → Binary64.rational? (Float.ofNat n) = some (n : ℚ) := fun hn =>
    Binary64.rational?_ofNat (by omega)
  rw [pose_eq_gridPose ht]
  exact ⟨hexact (Grid.cell_lt hi).1, hexact (Grid.cell_lt hi).2⟩

end Grid

/-- The poses of a grid visit every cell of the lattice once, and nothing else, in steps of length
one. -/
structure CoversLattice (s : Scenario) : Prop where
  visits : ∀ p : Cell, p.1 < s.size → p.2 < s.size → ∃! i, i < s.size * s.size ∧
    StandsAt (pose s i) p
  inside : ∀ i < s.size * s.size, ∃ p : Cell, (p.1 < s.size ∧ p.2 < s.size) ∧ StandsAt (pose s i) p
  steps : ∀ i, i + 1 < s.size * s.size → UnitApart (pose s i) (pose s (i + 1))

/-- The pairs of a grid are those whose poses stand one above the other in a column with an even
number, unless one follows the other; each comes once, the earlier pose first. -/
structure ComparesStacked (s : Scenario) : Prop where
  nodup : (s.topology.closures s.size).Nodup
  mem_iff : ∀ a b, (a, b) ∈ s.topology.closures s.size ↔ (a < b ∧ b < s.size * s.size) ∧ 1 < b - a ∧
    ∃ p q, StandsAt (pose s a) p ∧ StandsAt (pose s b) q ∧ Grid.Stacked p q

/-- The pairs of a ring have two different places each, and no two of them are of the same
places. -/
structure ComparesApart (s : Scenario) : Prop where
  apart : ∀ ab ∈ s.topology.closures s.size, ab.1 < s.size ∧ ab.2 < s.size ∧ ab.1 ≠ ab.2
  pairwise : (s.topology.closures s.size).Pairwise fun p q => p ≠ q ∧ p ≠ q.swap

section Grid
variable {s : Scenario} (ht : s.topology = .grid) (hsize : 0 < s.size)
  (hword : s.size * s.size ≤ 2 ^ 64)
include ht hsize hword

theorem coversLattice : CoversLattice s := by
  have hstands := fun {i} => standsAt_pose ht hword (i := i)
  refine ⟨fun ⟨column, row⟩ hcolumn hrow => ?_, fun i hi => ⟨_, Grid.cell_lt hi, hstands hi⟩,
    fun i hi => ?_⟩
  · have hi := Grid.index_lt hrow hcolumn
    refine ⟨Grid.index s.size row column, ⟨hi, Grid.cell_index hcolumn ▸ hstands hi⟩, ?_⟩
    rintro j ⟨hj, hjp⟩
    have hcell : Grid.cell s.size j = (column, row) := (hstands hj).unique hjp
    rw [← Grid.index_cell hsize j, hcell]
  · exact (hstands (Nat.lt_of_succ_lt hi)).unitApart (hstands hi)
      (Grid.neighbours_cell_succ hsize i)

theorem comparesStacked : ComparesStacked s := by
  have hclosures : s.topology.closures s.size = Grid.closures s.size := by
    rw [ht, Topology.closures]
  refine ⟨hclosures ▸ Grid.nodup_closures s.size, fun a b => ?_⟩
  rw [hclosures, Grid.mem_closures_iff hsize]
  constructor
  · rintro ⟨hab, hb, hstacked, hlt⟩
    exact ⟨⟨hab, hb⟩, hlt, _, _, standsAt_pose ht hword (hab.trans hb), standsAt_pose ht hword hb,
      hstacked⟩
  · rintro ⟨⟨hab, hb⟩, hlt, p, q, hp, hq, hstacked⟩
    rw [← (standsAt_pose ht hword (hab.trans hb)).unique hp,
      ← (standsAt_pose ht hword hb).unique hq] at hstacked
    exact ⟨hab, hb, hstacked, hlt⟩

end Grid

theorem comparesApart {s : Scenario} (ht : s.topology = .ring) (hsize : 2 ≤ s.size) :
    ComparesApart s := by
  have hclosures : s.topology.closures s.size = Ring.closures s.size := by
    rw [ht, Topology.closures]
  exact ⟨fun ab hab => Ring.apart_of_mem_closures hsize (hclosures ▸ hab),
    hclosures ▸ Ring.pairwise_closures hsize⟩

/-! ### Keys of compared poses -/

/-- The pairs of places that are compared, with differences that may fail. -/
def pairs? (s : Scenario) : Option (List (ℕ × ℕ)) := do
  let steps ← (List.Ico 1 (s.topology.poses s.size)).mapM fun i => do
    let before ← minus? i 1
    return (before, i)
  let others ← s.topology.closures? s.size
  return steps ++ others

theorem pairs?_eq {s : Scenario} (hsize : 0 < s.size) : pairs? s = some (pairs s) := by
  have hsteps : ((List.Ico 1 (s.topology.poses s.size)).mapM fun i => do
      let before ← minus? i 1
      return (before, i)) =
          some ((List.range (s.topology.poses s.size - 1)).map fun i => (i, i + 1)) := by
    rw [ico_one, List.mapM_map]
    refine mapM_eq_some_map fun i _ => ?_
    have hbefore : minus? (i + 1) 1 = some i := minus?_eq_some (Nat.le_add_left 1 i)
    rw [Function.comp_apply, hbefore]
    rfl
  rw [pairs?, hsteps, Topology.closures?_eq _ hsize]
  rfl

/-- Two different places are compared. -/
theorem apart_of_mem_pairs {s : Scenario} (hsize : 2 ≤ s.size) {ab : ℕ × ℕ} (h : ab ∈ pairs s) :
    ab.1 < s.topology.poses s.size ∧ ab.2 < s.topology.poses s.size ∧ ab.1 ≠ ab.2 := by
  rcases List.mem_append.mp h with h | h
  · obtain ⟨i, hi, rfl⟩ := List.mem_map.mp h
    have hlt := List.mem_range.mp hi
    dsimp only
    omega
  · cases ht : s.topology with
    | grid =>
      rw [ht, Topology.closures] at h
      obtain ⟨hab, hb, -, -⟩ := (Grid.mem_closures_iff (Nat.zero_lt_of_lt hsize)).mp h
      exact ⟨hab.trans hb, hb, hab.ne⟩
    | ring =>
      rw [ht, Topology.closures] at h
      exact Ring.apart_of_mem_closures hsize h

theorem poseKey_injOn {a b : ℕ} (ha : a < 2 ^ 64) (hb : b < 2 ^ 64) (h : poseKey a = poseKey b) :
    a = b := by
  have hindex := congrArg (UInt64.toNat ∘ Key.index) h
  simp only [Function.comp_apply, poseKey, UInt64.toNat_ofNat_of_lt' ha,
    UInt64.toNat_ofNat_of_lt' hb] at hindex
  exact hindex

/-- **How a simulated problem is laid out.** The poses of a grid cover the lattice in steps of
length one, and what is compared besides successive poses is what stands one above the other in
every other column; on a ring only different places are compared, and no two of them twice. No
difference on the way is below zero, and compared poses have different keys. -/
theorem simulation_laid_out (s : Scenario) (hsize : 2 ≤ s.size)
    (hword : s.topology.poses s.size ≤ 2 ^ 64) :
    (s.topology = .grid → CoversLattice s ∧ ComparesStacked s) ∧
      (s.topology = .ring → ComparesApart s) ∧
    ((∀ i, Grid.cell? s.size i = some (Grid.cell s.size i)) ∧ pairs? s = some (pairs s)) ∧
    ∀ ab ∈ pairs s, poseKey ab.1 ≠ poseKey ab.2 := by
  have hpos : 0 < s.size := Nat.zero_lt_of_lt hsize
  refine ⟨fun ht => ?_, fun ht => comparesApart ht hsize, ⟨Grid.cell?_eq hpos, pairs?_eq hpos⟩,
    fun ab hab hkey => ?_⟩
  · rw [ht] at hword
    exact ⟨coversLattice ht hpos hword, comparesStacked ht hpos hword⟩
  · obtain ⟨ha, hb, hne⟩ := apart_of_mem_pairs hsize hab
    exact hne (poseKey_injOn (ha.trans_le hword) (hb.trans_le hword) hkey)

/-- A grid of three rows and columns. -/
def smallGrid : Scenario := ⟨.grid, 3, 0.05, 0.02, 42⟩

/-- A ring of nine places. -/
def smallRing : Scenario := ⟨.ring, 9, 0.05, 0.02, 42⟩

/-- On a grid of nine places and on a ring of nine places. -/
theorem simulation_laid_out_small :
    (2 ≤ smallGrid.size ∧ smallGrid.topology.poses smallGrid.size ≤ 2 ^ 64) ∧
    (CoversLattice smallGrid ∧ ComparesStacked smallGrid ∧
      pairs? smallGrid = some (pairs smallGrid)) ∧
    smallGrid.topology.closures smallGrid.size = [(0, 5), (3, 8)] ∧
    (2 ≤ smallRing.size ∧ smallRing.topology.poses smallRing.size ≤ 2 ^ 64) ∧
    (ComparesApart smallRing ∧ ∀ ab ∈ pairs smallRing, poseKey ab.1 ≠ poseKey ab.2) ∧
    smallRing.topology.closures smallRing.size = [(8, 0), (0, 4), (1, 5), (2, 6), (3, 7)] := by
  have hgrid : 2 ≤ smallGrid.size ∧ smallGrid.topology.poses smallGrid.size ≤ 2 ^ 64 := by decide
  have hring : 2 ≤ smallRing.size ∧ smallRing.topology.poses smallRing.size ≤ 2 ^ 64 := by decide
  obtain ⟨hcovers, -, ⟨-, hpairs⟩, -⟩ := simulation_laid_out smallGrid hgrid.1 hgrid.2
  obtain ⟨-, hapart, -, hkeys⟩ := simulation_laid_out smallRing hring.1 hring.2
  exact ⟨hgrid, ⟨(hcovers rfl).1, (hcovers rfl).2, hpairs⟩, rfl, hring, ⟨hapart rfl, hkeys⟩, rfl⟩

end Smoothing.PoseGraph
