import HelixCluster.Hlc.Clock

/-!
# The drift bound of the hybrid logical clock

With a positive `maxDrift` the clock never runs further ahead of the physical readings than
`maxDrift`, except for one nanosecond for each call that carried out of a full logical counter: the
clamp bounds the physical part that a call picks (`Clock.merge`), and only the carry adds to it.
-/

namespace HelixCluster.Hlc

/-- A call of `Now` or of `Update`, with the reading of the physical clock it makes. -/
inductive Call where
  | now (phys : Int64)
  | update (phys : Int64) (remote : Timestamp)

namespace Call

/-- The reading of the physical clock. -/
def phys : Call → Int64
  | now phys => phys
  | update phys _ => phys

end Call

namespace Clock

/-- The clock after a call. -/
def perform (c : Clock) : Call → Clock
  | .now phys => (c.now phys).1
  | .update phys remote => (c.update phys remote).1

/-- The clock after a sequence of calls. -/
def run (c : Clock) (calls : List Call) : Clock := calls.foldl perform c

/-- The `maxPhys` of `Update`. -/
def maxPhys (c : Clock) (phys : Int64) (remote : Timestamp) : Int64 :=
  let maxPhys := if c.last.physical > phys then c.last.physical else phys
  if c.remotePhys phys remote > maxPhys then c.remotePhys phys remote else maxPhys

/-- The physical part a call settles on, and the logical counter it bumps there, if any. -/
def merge (c : Clock) : Call → Int64 × Option UInt32
  | .now phys =>
    if phys > c.last.physical then (phys, none) else (c.last.physical, some c.last.logical)
  | .update phys remote =>
    let maxPhys := c.maxPhys phys remote
    if maxPhys = c.last.physical ∧ maxPhys = c.remotePhys phys remote then
      (maxPhys, some (if remote.logical > c.last.logical then remote.logical else c.last.logical))
    else if maxPhys = c.last.physical then (maxPhys, some c.last.logical)
    else if maxPhys = c.remotePhys phys remote then (maxPhys, some remote.logical)
    else (maxPhys, none)

/-- The timestamp made of what a call settled on. -/
def settle : Int64 × Option UInt32 → Timestamp
  | (physical, some base) => bumpLogical physical base
  | (physical, none) => ⟨physical, 0⟩

/-- A call carries if it bumps a full logical counter into the next nanosecond. -/
def Carries (c : Clock) (call : Call) : Prop :=
  (c.merge call).2 = some 4294967295 ∧ (c.merge call).1 ≠ Int64.maxValue

instance (c : Clock) (call : Call) : Decidable (c.Carries call) :=
  inferInstanceAs (Decidable (_ ∧ _))

/-- The number of calls of a sequence that carry. -/
def carryCount (c : Clock) : List Call → ℕ
  | [] => 0
  | call :: calls => (if c.Carries call then 1 else 0) + (c.perform call).carryCount calls

end Clock

/-- The largest reading of the physical clock in a sequence of calls, if none is negative. -/
def largestReading : List Call → ℤ
  | [] => 0
  | call :: calls => max call.phys.toInt (largestReading calls)

namespace Clock

theorem last_perform (c : Clock) (call : Call) : (c.perform call).last = settle (c.merge call) := by
  cases call with
  | now phys =>
    unfold perform now merge
    dsimp only
    split <;> rfl
  | update phys remote =>
    unfold perform update merge maxPhys
    dsimp only
    generalize (if c.remotePhys phys remote > if c.last.physical > phys then c.last.physical else phys
      then c.remotePhys phys remote else (if c.last.physical > phys then c.last.physical else phys)) = maxPhys
    split_ifs <;> rfl

theorem physical_settle (m : Int64 × Option UInt32) : (settle m).physical.toInt =
      m.1.toInt + if m.2 = some 4294967295 ∧ m.1 ≠ Int64.maxValue then 1 else 0 := by
  obtain ⟨physical, base⟩ := m
  cases base with
  | none => simp [settle]
  | some base =>
    simp only [settle, bumpLogical, Option.some.injEq]
    split_ifs with hbase hmax hboth hboth
    · exact absurd hmax hboth.2
    · rw [hmax, add_zero]
    · exact toInt_add_one hmax
    · exact absurd ⟨hbase, hmax⟩ hboth
    · next h => exact absurd h.1 hbase
    · rw [add_zero]

theorem physical_perform (c : Clock) (call : Call) : (c.perform call).last.physical.toInt =
      (c.merge call).1.toInt + if c.Carries call then 1 else 0 := by
  rw [last_perform, physical_settle]
  rfl

/-- The readings are not negative, and the ceiling of the drift clamp does not overflow. -/
def Admissible (c : Clock) (call : Call) : Prop :=
  0 ≤ call.phys.toInt ∧ call.phys.toInt ≤ Int64.maxValue.toInt - c.maxDrift.toInt

instance (c : Clock) (call : Call) : Decidable (c.Admissible call) :=
  inferInstanceAs (Decidable (_ ∧ _))

variable {c : Clock}

section

variable (hdrift : 0 < c.maxDrift)

include hdrift

theorem remotePhys_le {phys : Int64} {remote : Timestamp} (h : c.Admissible (.update phys remote)) :
    (c.remotePhys phys remote).toInt ≤ phys.toInt + c.maxDrift.toInt := by
  have hpositive := Int64.lt_iff_toInt_lt.mp hdrift
  have hmax : Int64.maxValue.toInt = 2 ^ 63 - 1 := rfl
  have hzero : (0 : Int64).toInt = 0 := rfl
  obtain ⟨hnonneg, hle⟩ := h
  simp only [Call.phys] at hnonneg hle
  have hceiling : (phys + c.maxDrift).toInt = phys.toInt + c.maxDrift.toInt := by
    rw [Int64.toInt_add]
    exact Int.bmod_eq_of_le (by omega) (by omega)
  unfold remotePhys
  rw [if_pos hdrift]
  dsimp only
  split_ifs with hremote
  · rw [hceiling]
  · rw [gt_iff_lt, Int64.lt_iff_toInt_lt, hceiling] at hremote
    omega

theorem merge_le {call : Call} (h : c.Admissible call) :
    (c.merge call).1.toInt ≤ max c.last.physical.toInt (call.phys.toInt + c.maxDrift.toInt) := by
  have hpositive := Int64.lt_iff_toInt_lt.mp hdrift
  have hzero : (0 : Int64).toInt = 0 := rfl
  cases call with
  | now phys =>
    unfold merge
    dsimp only [Call.phys]
    split_ifs <;> dsimp only <;> omega
  | update phys remote =>
    have hremote := remotePhys_le hdrift h
    have hmax : (c.maxPhys phys remote).toInt ≤
        max c.last.physical.toInt (phys.toInt + c.maxDrift.toInt) := by
      unfold maxPhys
      dsimp only
      split_ifs <;> omega
    unfold merge
    dsimp only [Call.phys]
    split_ifs <;> exact hmax

theorem perform_le {call : Call} (h : c.Admissible call) {bound : ℤ}
    (hlast : c.last.physical.toInt ≤ bound) (hreading : call.phys.toInt + c.maxDrift.toInt ≤ bound) :
    (c.perform call).last.physical.toInt ≤ bound + if c.Carries call then 1 else 0 := by
  have hmerge := merge_le hdrift h
  rw [physical_perform]
  omega

theorem run_le {calls : List Call} (h : ∀ call ∈ calls, c.Admissible call)
    {seen : ℤ} {carried : ℕ} (hlast : c.last.physical.toInt ≤ seen + c.maxDrift.toInt + carried) :
    (c.run calls).last.physical.toInt ≤
      max seen (largestReading calls) + c.maxDrift.toInt + (carried + c.carryCount calls) := by
  induction calls generalizing c seen carried with
  | nil =>
    simp only [run, List.foldl_nil, carryCount, largestReading]
    omega
  | cons call calls ih =>
    have hstep : (c.perform call).last.physical.toInt ≤
        (max seen call.phys.toInt + c.maxDrift.toInt + carried) +
          if c.Carries call then 1 else 0 :=
      perform_le hdrift (h call List.mem_cons_self) (by omega) (by omega)
    have hmaxDrift : (c.perform call).maxDrift = c.maxDrift := by cases call <;> rfl
    have hrest := @ih (c.perform call) (by rwa [hmaxDrift])
      (fun later hlater => by
        unfold Admissible
        rw [hmaxDrift]
        exact h later (List.mem_cons_of_mem _ hlater))
      (max seen call.phys.toInt) (carried + if c.Carries call then 1 else 0)
      (by rw [hmaxDrift]; push_cast; omega)
    rw [hmaxDrift] at hrest
    simp only [run, List.foldl_cons, carryCount, largestReading]
    simp only [run] at hrest
    push_cast at hrest ⊢
    omega

end

end Clock

/-- **The drift bound**: at most the largest reading, plus `maxDrift`, plus the calls that carried.
-/
theorem physical_le_reading_add_drift {c : Clock} (hfresh : c.last = ⟨0, 0⟩)
    (hdrift : 0 < c.maxDrift) {calls : List Call} (h : ∀ call ∈ calls, c.Admissible call) :
    (c.run calls).last.physical.toInt ≤
      largestReading calls + c.maxDrift.toInt + c.carryCount calls := by
  have hpositive := Int64.lt_iff_toInt_lt.mp hdrift
  have hzero : (0 : Int64).toInt = 0 := rfl
  have hnonneg : 0 ≤ largestReading calls := by
    cases calls with
    | nil => exact le_rfl
    | cons call calls => exact (h call List.mem_cons_self).1.trans (le_max_left _ _)
  have hstart : c.last.physical.toInt ≤ 0 + c.maxDrift.toInt + (0 : ℕ) := by
    rw [hfresh]
    change (0 : Int64).toInt ≤ _
    push_cast
    omega
  have hrun := Clock.run_le hdrift h hstart
  push_cast at hrun
  omega

/-- A sender far in the future with a full logical counter, and then a clock that goes back. -/
def craftedRemote : List Call := [.update 5 ⟨1000, 4294967295⟩, .now 3]

/-- The bound is reached: a drift of ten nanoseconds and one carry. -/
theorem craftedRemote_reaches_bound : ((newWithMaxDrift 10).run craftedRemote).last = ⟨16, 1⟩ ∧
      ((newWithMaxDrift 10).run craftedRemote).last.physical.toInt ≤
        largestReading craftedRemote + (newWithMaxDrift 10).maxDrift.toInt +
          (newWithMaxDrift 10).carryCount craftedRemote ∧
      largestReading craftedRemote + (newWithMaxDrift 10).maxDrift.toInt +
        (newWithMaxDrift 10).carryCount craftedRemote = 16 := by
  have hadmissible : ∀ call ∈ craftedRemote, (newWithMaxDrift 10).Admissible call := by
    simp only [craftedRemote, List.forall_mem_cons]
    exact ⟨by decide, by decide, by simp⟩
  exact ⟨by decide, physical_le_reading_add_drift rfl (by decide) hadmissible, by decide⟩

end HelixCluster.Hlc
