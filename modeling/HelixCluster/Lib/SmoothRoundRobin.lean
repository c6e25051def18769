import Mathlib

/-!
# Smooth weighted round robin

In a turn the running weight of each peer grows by its weight, a peer with the largest one is
picked, and pays the sum `W` of all weights.
-/

namespace HelixCluster.SmoothRoundRobin

open List Finset

variable {ι : Type} [DecidableEq ι]

/-- A rule that picks a peer with the largest value. -/
structure Chooser (peers : Finset ι) where
  pick : (ι → ℤ) → ι
  mem : ∀ c : ι → ℤ, pick c ∈ peers
  max : ∀ (c : ι → ℤ), ∀ j ∈ peers, c j ≤ c (pick c)

variable {peers : Finset ι} (r : Chooser peers) (w : ι → ℤ)

/-- The running weights when the peer is picked. -/
def bump (c : ι → ℤ) (j : ι) : ℤ := c j + w j

/-- The peer that is picked. -/
def picked (c : ι → ℤ) : ι := r.pick (bump w c)

/-- A turn. What is no peer has no running weight. -/
def next (c : ι → ℤ) (j : ι) : ℤ :=
  if j ∈ peers then bump w c j - if j = picked r w c then ∑ i ∈ peers, w i else 0 else 0

/-- The running weights after `n` turns. -/
def state (n : ℕ) : ι → ℤ := (next r w)^[n] fun _ => 0

theorem state_succ (n : ℕ) : state r w (n + 1) = next r w (state r w n) := Function.iterate_succ_apply' _ _ _

variable {j : ι}

theorem state_of_notMem (hj : j ∉ peers) (n : ℕ) : state r w n j = 0 := by
  cases n with
  | zero => rfl
  | succ n => rw [state_succ, next, if_neg hj]

theorem state_eq (hj : j ∈ peers) (n : ℕ) : state r w n j =
      n * w j - (∑ i ∈ peers, w i) * Nat.count (fun m => picked r w (state r w m) = j) n := by
  induction n with
  | zero =>
    rw [Nat.count_zero]
    simp [state]
  | succ n ih =>
    rw [state_succ, next, if_pos hj, bump, ih, Nat.count_succ]
    by_cases hpick : picked r w (state r w n) = j
    · rw [if_pos hpick.symm, if_pos hpick]
      push_cast
      ring
    rw [if_neg (Ne.symm hpick), if_neg hpick]
    push_cast
    ring

omit [DecidableEq ι] in
theorem sum_bump (c : ι → ℤ) : ∑ j ∈ peers, bump w c j = ∑ j ∈ peers, c j + ∑ j ∈ peers, w j :=
  sum_add_distrib

theorem sum_next (c : ι → ℤ) : ∑ j ∈ peers, next r w c j = ∑ j ∈ peers, c j := by
  have hmem : picked r w c ∈ peers := r.mem _
  have hnext : ∀ j ∈ peers, next r w c j =
      bump w c j - if j = picked r w c then ∑ i ∈ peers, w i else 0 := fun j hj => if_pos hj
  rw [sum_congr rfl hnext, sum_sub_distrib, sum_bump, sum_ite_eq' peers, if_pos hmem]
  ring

theorem sum_state (n : ℕ) : ∑ j ∈ peers, state r w n j = 0 := by
  induction n with
  | zero => exact sum_const_zero
  | succ n ih => rw [state_succ, sum_next, ih]

variable {w}

omit [DecidableEq ι] in
theorem bump_picked_pos (hw : ∀ j ∈ peers, 0 < w j) {c : ι → ℤ} (hc : ∑ j ∈ peers, c j = 0) :
    0 < bump w c (picked r w c) := by
  by_contra hneg
  have hpeers : peers.Nonempty := ⟨_, r.mem c⟩
  have hle : ∑ j ∈ peers, bump w c j ≤ 0 :=
    sum_nonpos fun j hj => (r.max (bump w c) j hj).trans (not_lt.mp hneg)
  rw [sum_bump, hc, zero_add] at hle
  exact absurd (sum_pos hw hpeers) (not_lt.mpr hle)

theorem neg_sum_lt_state (hw : ∀ j ∈ peers, 0 < w j) (hj : j ∈ peers) (n : ℕ) :
    -∑ i ∈ peers, w i < state r w n j := by
  have htotal : 0 < ∑ i ∈ peers, w i := sum_pos hw ⟨j, hj⟩
  induction n with
  | zero => exact neg_neg_of_pos htotal
  | succ n ih =>
    rw [state_succ, next, if_pos hj]
    by_cases hpick : j = picked r w (state r w n)
    · have hpos : 0 < bump w (state r w n) j := hpick ▸ bump_picked_pos r hw (sum_state r w n)
      rw [if_pos hpick]
      omega
    have hgain := hw j hj
    rw [if_neg hpick, bump]
    omega

variable {cycle : ℕ}

section

variable (hw : ∀ j ∈ peers, 0 < w j) (hcycle : (cycle : ℤ) = ∑ i ∈ peers, w i)

include hw hcycle

theorem state_cycle : state r w cycle = fun _ => 0 := by
  -- a multiple of the sum that is above minus the sum is not negative
  have hnonneg : ∀ j ∈ peers, 0 ≤ state r w cycle j := by
    intro j hj
    have htotal : 0 < ∑ i ∈ peers, w i := sum_pos hw ⟨j, hj⟩
    have hlt := neg_sum_lt_state r hw hj cycle
    rw [state_eq r w hj, hcycle, ← mul_sub] at hlt ⊢
    refine mul_nonneg htotal.le ?_
    by_contra hneg
    have hle : w j - (Nat.count (fun m => picked r w (state r w m) = j) cycle : ℤ) ≤ -1 := by omega
    have hmul := mul_le_mul_of_nonneg_left hle htotal.le
    omega
  funext j
  by_cases hj : j ∈ peers
  · exact (sum_eq_zero_iff_of_nonneg hnonneg).mp (sum_state r w cycle) j hj
  · exact state_of_notMem r w hj cycle

theorem count_cycle
    (hj : j ∈ peers) : (Nat.count (fun m => picked r w (state r w m) = j) cycle : ℤ) = w j := by
  have htotal : 0 < ∑ i ∈ peers, w i := sum_pos hw ⟨j, hj⟩
  have hstate := state_eq r w hj cycle
  rw [state_cycle r hw hcycle, hcycle, ← mul_sub] at hstate
  have hzero := (mul_eq_zero.mp hstate.symm).resolve_left htotal.ne'
  omega

theorem state_cycle_add (n : ℕ) : state r w (cycle + n) = state r w n := by
  have hstate : (next r w)^[cycle] (fun _ => 0) = fun _ => 0 := state_cycle r hw hcycle
  rw [state, add_comm, Function.iterate_add_apply, hstate]
  rfl

theorem state_mul_cycle (q : ℕ) : state r w (cycle * q) = fun _ => 0 := by
  induction q with
  | zero => rfl
  | succ q ih => rw [Nat.mul_succ, add_comm, state_cycle_add r hw hcycle, ih]

theorem count_window (hj : j ∈ peers) (n : ℕ) :
    (Nat.count (fun m => picked r w (state r w (n + m)) = j) cycle : ℤ) = w j := by
  -- count the first `n + cycle` turns from both ends
  have hback := Nat.count_add (fun m => picked r w (state r w m) = j) n cycle
  have hfront := Nat.count_add (fun m => picked r w (state r w m) = j) cycle n
  simp only [state_cycle_add r hw hcycle] at hfront
  have hcount := count_cycle r hw hcycle hj
  rw [add_comm n cycle] at hback
  omega

end

/-! ### The first maximum -/

/-- The loop that keeps the best so far and takes a better one. -/
def firstMax (c : ι → ℤ) (x : ι) (xs : List ι) : ι := xs.foldl (fun best y => if c best < c y then y else best) x

omit [DecidableEq ι] in
theorem firstMax_spec (c : ι → ℤ) (x : ι) (xs : List ι) :
    firstMax c x xs ∈ x :: xs ∧ ∀ y ∈ x :: xs, c y ≤ c (firstMax c x xs) := by
  induction xs generalizing x with
  | nil => exact ⟨List.mem_singleton_self x, fun y hy => (congrArg c (List.mem_singleton.mp hy)).le⟩
  | cons z xs ih =>
    obtain ⟨hmem, hmax⟩ := ih (if c x < c z then z else x)
    have hfirst : firstMax c x (z :: xs) = firstMax c (if c x < c z then z else x) xs := rfl
    rw [hfirst]
    have hbest := hmax _ mem_cons_self
    constructor
    · obtain heq | hmem := mem_cons.mp hmem
      · rw [heq]
        split_ifs
        · exact mem_cons_of_mem x mem_cons_self
        · exact mem_cons_self
      · exact mem_cons_of_mem x (mem_cons_of_mem z hmem)
    intro y hy
    obtain rfl | hy := mem_cons.mp hy
    · refine le_trans ?_ hbest
      split_ifs with hlt
      · exact hlt.le
      · exact le_rfl
    obtain rfl | hy := mem_cons.mp hy
    · refine le_trans ?_ hbest
      split_ifs with hlt
      · exact le_rfl
      · exact not_lt.mp hlt
    · exact hmax y (mem_cons_of_mem _ hy)

omit [DecidableEq ι] in
theorem firstMax_congr {c d : ι → ℤ} {x : ι} {xs : List ι} (h : ∀ y ∈ x :: xs, c y = d y) :
    firstMax c x xs = firstMax d x xs := by
  induction xs generalizing x with
  | nil => rfl
  | cons z xs ih =>
    obtain ⟨hx, hz, hxs⟩ := forall_mem_cons.mp h |>.imp_right forall_mem_cons.mp
    have hbest : (if c x < c z then z else x) = if d x < d z then z else x := by rw [hx, hz]
    have hmem : c (if d x < d z then z else x) = d (if d x < d z then z else x) := by
      split_ifs
      · exact hz
      · exact hx
    show firstMax c (if c x < c z then z else x) xs = firstMax d (if d x < d z then z else x) xs
    rw [hbest]
    exact ih (forall_mem_cons.mpr ⟨hmem, hxs⟩)

/-- The first maximum of a list. -/
def bestOf (c : ι → ℤ) : List ι → Option ι
  | [] => none
  | x :: xs => some (firstMax c x xs)

omit [DecidableEq ι] in
theorem bestOf_concat (c : ι → ℤ) (xs : List ι) (y : ι) :
    bestOf c (xs ++ [y]) = some ((bestOf c xs).elim y fun best => if c best < c y then y else best) := by
  cases xs with
  | nil => rfl
  | cons x xs =>
    show some (firstMax c x (xs ++ [y])) = _
    rw [firstMax, foldl_append]
    rfl

/-- The rule that picks the first maximum in a fixed order. -/
def Chooser.first (x : ι) (xs : List ι) : Chooser (x :: xs).toFinset where
  pick c := firstMax c x xs
  mem c := mem_toFinset.mpr (firstMax_spec c x xs).1
  max c j hj := (firstMax_spec c x xs).2 j (mem_toFinset.mp hj)

end HelixCluster.SmoothRoundRobin
