import HelixCluster.AdmissionControl.Controller

/-!
# What an admission guarantees

As long as the capacities add up to less than `2 ^ 63`, an admitted request leaves enough for
whatever any `k` of the nodes run (`admitted_tolerates_failures`).
-/

namespace HelixCluster.AdmissionControl.Controller

variable {c next : Controller} {id : Str} {failed : Finset Str}

theorem allocated_bounds (c : Controller) (id : Str) :
    0 ≤ c.allocated id ∧ c.allocated id ≤ c.capacity id := by
  unfold allocated capacity
  cases hlookup : c.nodes.lookup id with
  | none => simp
  | some n => exact (c.valid id n hlookup).toInt

theorem capacity_nonneg (c : Controller) (id : Str) : 0 ≤ c.capacity id :=
  (c.allocated_bounds id).1.trans (c.allocated_bounds id).2

/-- The capacity of all nodes, the failed ones included. -/
def totalCapacity (c : Controller) : ℤ := ∑ id ∈ c.nodes.keys.toFinset, c.capacity id

theorem sum_live_le_totalCapacity (c : Controller) : ∑ id ∈ c.live, c.capacity id ≤ c.totalCapacity :=
  Finset.sum_le_sum_of_subset_of_nonneg (Finset.filter_subset ..) fun id _ _ => c.capacity_nonneg id

theorem free_le_totalCapacity (c : Controller) : c.free ≤ c.totalCapacity := by
  refine le_trans (Finset.sum_le_sum fun id _ => ?_) c.sum_live_le_totalCapacity
  have := c.allocated_bounds id
  omega

theorem sum_capacity_le_reserve (hsub : failed ⊆ c.live) (hcard : failed.card ≤ c.k.toInt) :
    ∑ id ∈ failed, c.capacity id ≤ c.reserve := by
  rw [Finset.sum_eq_multiset_sum]
  refine sum_le_largestSum (fun x hx => ?_) (Multiset.map_le_map (Finset.val_le_iff.mpr hsub)) ?_
  · obtain ⟨id, -, rfl⟩ := Multiset.mem_map.mp hx
    exact c.capacity_nonneg id
  · rw [Multiset.card_map, Finset.card_val]
    omega

theorem reserve_le_totalCapacity (c : Controller) : c.reserve ≤ c.totalCapacity := by
  refine le_trans (largestSum_le_sum (fun x hx => ?_) _) c.sum_live_le_totalCapacity
  obtain ⟨id, -, rfl⟩ := Multiset.mem_map.mp hx
  exact c.capacity_nonneg id

/-- The live nodes of `next` run what those of `c` run and `amount` more. -/
structure Placed (c next : Controller) (amount : ℤ) : Prop where
  live : next.live = c.live
  capacity : ∀ id ∈ c.live, next.capacity id = c.capacity id
  allocated : ∀ id ∈ c.live, c.allocated id ≤ next.allocated id
  total : ∑ id ∈ c.live, (next.allocated id - c.allocated id) = amount

theorem Placed.free {amount : ℤ} (h : Placed c next amount) :
    ∑ id ∈ c.live, (next.capacity id - next.allocated id) = c.free - amount := by
  rw [Controller.free, ← h.total, ← Finset.sum_sub_distrib]
  refine Finset.sum_congr rfl fun id hid => ?_
  have := h.capacity id hid
  omega

theorem admitted_iff_of_fits (sorting : SortSlice largerCapacity) (hfits : c.totalCapacity < 2 ^ 63)
    {r : Int64} (hr : 0 < r) :
    (c.admitRequest sorting r).admitted = true ↔ c.reserve ≤ c.free - r.toInt := by
  have hfree := c.free_le_totalCapacity
  have hreserve := c.reserve_le_totalCapacity
  have hnonneg := c.free_nonneg
  have hle := r.toInt_lt
  have hpos : 0 < r.toInt := by simpa using Int64.lt_iff_toInt_lt.mp hr
  rw [c.admitted_iff sorting hr, Int.bmod_eq_of_le (by omega) (by omega)]
  omega

/-- What at most `k` live nodes run fits on the others. A positive request is refused only for the
reserve. -/
theorem admitted_tolerates_failures (sorting : SortSlice largerCapacity) (c : Controller)
    (hfits : c.totalCapacity < 2 ^ 63) (r : Int64) (hr : 0 < r) :
    ((c.admitRequest sorting r).admitted = true → ∀ next, Placed c next r.toInt →
      ∀ failed ⊆ c.live, failed.card ≤ c.k.toInt → ∑ id ∈ failed, next.allocated id ≤
          ∑ id ∈ c.live \ failed, (next.capacity id - next.allocated id)) ∧
    ((c.admitRequest sorting r).admitted = false → c.free - r.toInt < c.reserve) := by
  have hiff := admitted_iff_of_fits sorting hfits hr
  constructor
  · intro hadmitted next hplaced failed hsub hcard
    have hleft := hiff.mp hadmitted
    have hcover := sum_capacity_le_reserve hsub hcard
    have hcapacity : ∑ id ∈ failed, next.capacity id = ∑ id ∈ failed, c.capacity id :=
      Finset.sum_congr rfl fun id hid => hplaced.capacity id (hsub hid)
    have hsplit := Finset.sum_sdiff (f := fun id => next.capacity id - next.allocated id) hsub
    rw [hplaced.free, Finset.sum_sub_distrib (s := failed)] at hsplit
    omega
  intro hrefused
  rw [← not_le]
  exact fun hle => by simp [hiff.mpr hle] at hrefused

/-- Insertion sort by capacity. -/
def byCapacity : SortSlice largerCapacity :=
  .insertionSort largerCapacity
    (fun a b c hab hbc => by
      simp only [largerCapacity, decide_eq_false_iff_not, gt_iff_lt, Int64.not_lt] at hab hbc ⊢
      exact Int64.le_trans hbc hab)
    (fun a b => by
      simp only [largerCapacity, decide_eq_false_iff_not, gt_iff_lt, Int64.not_lt]
      exact Int64.le_total ..)

/-- Two empty nodes of capacity 10, one of which may fail. -/
def twoNodes : Controller :=
  ((empty 1 (by decide)).upsert ⟨[97], 10, 0, false⟩).upsert ⟨[98], 10, 0, false⟩

/-- Three units are admitted, and one node can take over from the other. -/
theorem either_of_two_nodes_may_fail :
    twoNodes.totalCapacity < 2 ^ 63 ∧ (twoNodes.admitRequest byCapacity 3).admitted = true ∧
    ∀ next, Placed twoNodes next 3 → ∀ failed ⊆ twoNodes.live, failed.card ≤ twoNodes.k.toInt →
      ∑ id ∈ failed, next.allocated id ≤
        ∑ id ∈ twoNodes.live \ failed, (next.capacity id - next.allocated id) :=
  have hadmitted : (twoNodes.admitRequest byCapacity 3).admitted = true := by decide
  ⟨by decide, hadmitted,
    (admitted_tolerates_failures byCapacity twoNodes (by decide) 3 (by decide)).1 hadmitted⟩

/-- An admitted request leaves the reserve free exactly if nothing saturates, or wraps around with
enough left. -/
theorem admits_within_reserve_iff (sorting : SortSlice largerCapacity) (c : Controller) :
    (∀ r : Int64, 0 < r → (c.admitRequest sorting r).admitted = true → c.reserve ≤ c.free - r.toInt) ↔
      c.reserve < 2 ^ 63 ∨ c.free % 2 ^ 64 < 2 ^ 63 ∨ c.free % 2 ^ 64 = 2 ^ 64 - 1 ∨
        c.reserve ≤ c.free / 2 ^ 64 * 2 ^ 64 + (2 ^ 63 - 1) := by
  have hnonneg := c.free_nonneg
  constructor
  · intro h
    by_contra hnot
    push Not at hnot
    obtain ⟨hsaturated, hwrapped, hlast, hleft⟩ := hnot
    have hrange : c.free % 2 ^ 64 - (2 ^ 63 - 1) < 2 ^ 63 := by omega
    have hr : (Int64.ofInt (c.free % 2 ^ 64 - (2 ^ 63 - 1))).toInt = c.free % 2 ^ 64 - (2 ^ 63 - 1) :=
      Int64.toInt_ofInt_of_le (by omega) hrange
    have hpos : 0 < Int64.ofInt (c.free % 2 ^ 64 - (2 ^ 63 - 1)) := by
      rw [Int64.lt_iff_toInt_lt, hr, Int64.toInt_zero]
      omega
    have hle := h _ hpos ((c.admitted_iff sorting hpos).mpr (by
      rw [hr, Int.bmod_def]
      split <;> omega))
    rw [hr] at hle
    omega
  · intro h r hr hadmitted
    have hpos : 0 < r.toInt := by simpa using Int64.lt_iff_toInt_lt.mp hr
    have hlt := r.toInt_lt
    rw [c.admitted_iff sorting hr, Int.bmod_def] at hadmitted
    split at hadmitted <;> omega

/-- Three empty nodes of capacity `2 ^ 62`, two of which may fail. -/
def threeLargeNodes : Controller :=
  (((empty 2 (by decide)).upsert ⟨[97], 4611686018427387904, 0, false⟩).upsert
    ⟨[98], 4611686018427387904, 0, false⟩).upsert ⟨[99], 4611686018427387904, 0, false⟩

/-- The reserve of two large nodes saturates, and the free capacity wraps around to it. -/
theorem saturated_reserve_admits :
    (threeLargeNodes.admitRequest byCapacity 4611686018427387905).admitted = true ∧
    threeLargeNodes.free - (4611686018427387905 : Int64).toInt < threeLargeNodes.reserve := by
  refine ⟨by decide, ?_⟩
  have hsorted : (threeLargeNodes.liveNodes.map fun n => n.capacity.toInt).Pairwise (· ≥ ·) := by
    decide
  rw [reserve_eq, largestSum_coe hsorted, free_eq]
  decide

end HelixCluster.AdmissionControl.Controller
