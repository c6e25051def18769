import Mathlib

/-!
# Keeping the larger of two values

`keep rank x y` is the value of the larger rank, and the first one if the ranks are equal. It is
idempotent and associative for every rank.
-/

namespace HelixCluster

section Keep

variable {α β : Type} [LinearOrder β] (rank : α → β)

/-- The first value, unless the second one has a larger rank. -/
def keep (x y : α) : α := if rank x < rank y then y else x

theorem keep_self (x : α) : keep rank x x = x := ite_self ..

theorem keep_assoc (x y z : α) : keep rank (keep rank x y) z = keep rank x (keep rank y z) := by
  simp only [keep]
  split_ifs <;> first | rfl | order

theorem keep_comm_iff (x y : α) : keep rank x y = keep rank y x ↔ (rank x = rank y → x = y) := by
  rcases lt_trichotomy (rank x) (rank y) with h | h | h
  · simp [keep, h, h.not_gt, h.ne]
  · simp [keep, h]
  · simp [keep, h, h.not_gt, h.ne']

end Keep

theorem option_merge_comm_iff {α : Type} {f : α → α → α} {x y : Option α} :
    x.merge f y = y.merge f x ↔ ∀ a ∈ x, ∀ b ∈ y, f a b = f b a := by
  cases x <;> cases y <;> simp

end HelixCluster
