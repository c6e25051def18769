import Mathlib

/-!
# The sum of the largest elements

`largestSum k s` adds up the `k` largest elements of a multiset of integers.
-/

namespace HelixCluster

open List

/-- The sum of the `k` largest elements, or of all if there are fewer. -/
def largestSum (k : ℕ) (s : Multiset ℤ) : ℤ := ((s.sort (· ≥ ·)).take k).sum

variable {xs : List ℤ}

theorem largestSum_coe (h : xs.Pairwise (· ≥ ·)) (k : ℕ) : largestSum k xs = (xs.take k).sum := by
  have hsort : (xs : Multiset ℤ).sort (· ≥ ·) = xs := by
    refine List.Perm.eq_of_pairwise' ?_ h (Multiset.coe_eq_coe.mp (Multiset.sort_eq _ _))
    exact Multiset.pairwise_sort _ _
  rw [largestSum, hsort]

theorem sum_take_le_cons {x : ℤ} (hpos : ∀ y ∈ x :: xs, 0 ≤ y) (h : (x :: xs).Pairwise (· ≥ ·))
    (k : ℕ) : (xs.take k).sum ≤ ((x :: xs).take k).sum := by
  induction k generalizing x xs with
  | zero => simp
  | succ k ih =>
    cases xs with
    | nil => simpa using hpos
    | cons y ys =>
      obtain ⟨hxy, hys⟩ := pairwise_cons.mp h
      have hle : y ≤ x := hxy y mem_cons_self
      have hrest := ih (fun z hz => hpos z (mem_cons_of_mem x hz)) hys
      simp only [take_succ_cons, sum_cons] at hrest ⊢
      omega

theorem sum_le_sum_take {ys : List ℤ} (hsub : ys.Sublist xs) (hpos : ∀ x ∈ xs, 0 ≤ x)
    (h : xs.Pairwise (· ≥ ·)) {k : ℕ} (hk : ys.length ≤ k) : ys.sum ≤ (xs.take k).sum := by
  induction hsub generalizing k with
  | slnil => simp
  | cons x _ ih =>
    have hrest := ih (fun y hy => hpos y (mem_cons_of_mem x hy)) (pairwise_cons.mp h).2 hk
    exact hrest.trans (sum_take_le_cons hpos h k)
  | cons_cons x _ ih =>
    obtain ⟨k, rfl⟩ := Nat.exists_eq_add_of_lt (Nat.lt_of_lt_of_le (Nat.succ_pos _) hk)
    have hrest := ih (fun y hy => hpos y (mem_cons_of_mem x hy)) (pairwise_cons.mp h).2
      (Nat.le_of_succ_le_succ (by simpa using hk))
    rw [Nat.zero_add, take_succ_cons, sum_cons, sum_cons]
    omega

theorem sum_le_largestSum {s t : Multiset ℤ} (hpos : ∀ x ∈ s, 0 ≤ x) (hsub : t ≤ s) {k : ℕ}
    (hk : t.card ≤ k) : t.sum ≤ largestSum k s := by
  have hsorted : (t.sort (· ≥ ·)).Sublist (s.sort (· ≥ ·)) := by
    refine sublist_of_subperm_of_pairwise ?_ (Multiset.pairwise_sort _ _) (Multiset.pairwise_sort _ _)
    rw [← Multiset.coe_le, Multiset.sort_eq, Multiset.sort_eq]
    exact hsub
  rw [← Multiset.sort_eq t (· ≥ ·), Multiset.sum_coe]
  refine sum_le_sum_take hsorted (fun x hx => hpos x ?_) (Multiset.pairwise_sort _ _) ?_
  · exact (Multiset.mem_sort (· ≥ ·)).mp hx
  · rwa [Multiset.length_sort]

theorem largestSum_le_sum {s : Multiset ℤ} (hpos : ∀ x ∈ s, 0 ≤ x) (k : ℕ) : largestSum k s ≤ s.sum := by
  have hsplit : (s.sort (· ≥ ·)).sum = largestSum k s + ((s.sort (· ≥ ·)).drop k).sum := by
    rw [largestSum, ← sum_append, take_append_drop]
  have hrest : 0 ≤ ((s.sort (· ≥ ·)).drop k).sum := sum_nonneg fun x hx =>
    hpos x ((Multiset.mem_sort (· ≥ ·)).mp (mem_of_mem_drop hx))
  have htotal : (s.sort (· ≥ ·)).sum = s.sum := by
    rw [← Multiset.sum_coe, Multiset.sort_eq]
  omega

end HelixCluster
