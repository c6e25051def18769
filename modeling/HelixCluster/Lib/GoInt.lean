import Mathlib

/-!
# Go integers and times

An `int` of Go is an `Int64`, whose arithmetic wraps around, so a sum is the sum of the integers as
long as that is in range.
-/

namespace HelixCluster

variable {a b : Int64}

theorem toInt_add_of_bounds (hle : -2 ^ 63 ≤ a.toInt + b.toInt) (hlt : a.toInt + b.toInt < 2 ^ 63) :
    (a + b).toInt = a.toInt + b.toInt := by
  rw [Int64.toInt_add]
  exact Int.bmod_eq_of_le (by omega) (by omega)

theorem toInt_sub_of_bounds (hle : -2 ^ 63 ≤ a.toInt - b.toInt) (hlt : a.toInt - b.toInt < 2 ^ 63) :
    (a - b).toInt = a.toInt - b.toInt := by
  rw [Int64.toInt_sub]
  exact Int.bmod_eq_of_le (by omega) (by omega)

theorem toInt_add_one_of_lt {x : Int64} (h : x.toInt < 2 ^ 63 - 1) :
    (x + 1).toInt = x.toInt + 1 := by
  have hle := x.le_toInt
  have hone := Int64.toInt_one
  exact (toInt_add_of_bounds (by omega) (by omega)).trans (by omega)

theorem toInt_add_le (h : -2 ^ 63 ≤ a.toInt + b.toInt) : (a + b).toInt ≤ a.toInt + b.toInt := by
  have ha := a.toInt_lt
  have hb := b.toInt_lt
  rw [Int64.toInt_add, Int.bmod_def]
  split <;> omega

theorem toInt_add_of_nonneg (ha : 0 ≤ a.toInt) (hb : 0 ≤ b.toInt) : (a + b).toInt =
      if a.toInt + b.toInt < 2 ^ 63 then a.toInt + b.toInt else a.toInt + b.toInt - 2 ^ 64 := by
  have hltA := a.toInt_lt
  have hltB := b.toInt_lt
  split
  · exact toInt_add_of_bounds (by omega) (by omega)
  · rw [Int64.toInt_add, Int.bmod_def, if_neg (by omega)]
    omega

/-- `Time.Sub`, which saturates. -/
def timeSub (t u : ℤ) : Int64 :=
  if t - u < Int64.minValue.toInt then .minValue
  else if t - u > Int64.maxValue.toInt then .maxValue
  else .ofInt (t - u)

theorem toInt_timeSub {t u : ℤ} (h : u ≤ t) : (timeSub t u).toInt = min (t - u) (2 ^ 63 - 1) := by
  have hmin : Int64.minValue.toInt = -2 ^ 63 := by decide
  have hmax : Int64.maxValue.toInt = 2 ^ 63 - 1 := by decide
  unfold timeSub
  split
  · omega
  split
  · omega
  · rw [Int64.toInt_ofInt_of_le (by omega) (by omega)]
    omega

end HelixCluster
