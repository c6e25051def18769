import HelixCluster.Lib.GoInt
import HelixCluster.Lib.Runs

/-!
# The dual-class reservation

The `Reservation` of `internal/gpu/reservation.go`. `Interactive` and `Batch` share a pool, of which
a part is reserved for each.
-/

namespace HelixCluster.Gpu

inductive WorkloadClass where
  | interactive
  | batch
  | unknown (code : Int64)
  deriving DecidableEq

/-- A number for each of the two classes. -/
structure PerClass where
  interactive : Int64
  batch : Int64
  deriving DecidableEq

/-- The `Reason` of a decision, with the numbers in its text. -/
inductive Reason where
  | unknownClass (code : Int64)
  | amountNotPositive
  | poolFull (used capacity amount : Int64)
  | interactiveAdmitted
  | batchHardCapped (ceiling used highWater wouldBe : Int64)
  | batchAdmittedUnderLoad
  | batchDenied (wouldBe reserve : Int64)
  | batchAdmitted
  deriving DecidableEq

structure Decision where
  admitted : Bool
  reason : Reason
  deriving DecidableEq

/-- `Reservation`. The reserves are a split of the capacity. -/
structure Reservation where
  capacity : Int64
  reserve : PerClass
  used : PerClass
  highWaterUnits : Int64
  batchHardCapUse : Int64
  capacity_pos : 0 < capacity.toInt
  interactive_nonneg : 0 ≤ reserve.interactive.toInt
  batch_nonneg : 0 ≤ reserve.batch.toInt
  split : reserve.interactive.toInt + reserve.batch.toInt = capacity.toInt

namespace Reservation

variable (r : Reservation)

/-- `totalUsedLocked`. -/
def totalUsed : Int64 := r.used.interactive + r.used.batch

/-- The case of `Batch` in `admitLocked`. -/
def admitBatch (amount : Int64) : Decision :=
  let prospectiveClassUse := r.used.batch + amount
  let prospectiveTotal := r.totalUsed + amount
  let batchCeiling := r.reserve.batch
  if prospectiveTotal ≥ r.highWaterUnits ∨ r.totalUsed ≥ r.highWaterUnits then
    let batchCeiling := if r.batchHardCapUse < batchCeiling then r.batchHardCapUse else batchCeiling
    if prospectiveClassUse > batchCeiling then
      ⟨false, .batchHardCapped batchCeiling r.totalUsed r.highWaterUnits prospectiveClassUse⟩
    else ⟨true, .batchAdmittedUnderLoad⟩
  else if prospectiveClassUse > batchCeiling then
    ⟨false, .batchDenied prospectiveClassUse batchCeiling⟩
  else ⟨true, .batchAdmitted⟩

def admitLocked (c : WorkloadClass) (amount : Int64) : Decision :=
  match c with
  | .unknown code => ⟨false, .unknownClass code⟩
  | c =>
    if amount ≤ 0 then ⟨false, .amountNotPositive⟩
    -- Never exceed physical capacity.
    else if r.totalUsed + amount > r.capacity then ⟨false, .poolFull r.totalUsed r.capacity amount⟩
    else
      match c with
      | .interactive => ⟨true, .interactiveAdmitted⟩
      | .batch => r.admitBatch amount
      | .unknown code => ⟨false, .unknownClass code⟩

/-- `r.used[class]`, which is zero for an unknown class. -/
def usedBy : WorkloadClass → Int64
  | .interactive => r.used.interactive
  | .batch => r.used.batch
  | .unknown _ => 0

/-- The assignment `r.used[class] = units` for one of the two classes. -/
def setUsed (c : WorkloadClass) (units : Int64) : Reservation :=
  match c with
  | .interactive => { r with used := { r.used with interactive := units } }
  | .batch => { r with used := { r.used with batch := units } }
  | .unknown _ => r

/-- `Reserve`. -/
def reserveUnits (c : WorkloadClass) (amount : Int64) : Reservation × Decision :=
  let d := r.admitLocked c amount
  if ¬d.admitted then (r, d) else (r.setUsed c (r.usedBy c + amount), d)

/-- The errors of `Release`. -/
inductive ReleaseError where
  | unknownClass (code : Int64)
  | amountNotPositive (amount : Int64)
  | notInUse (amount : Int64) (c : WorkloadClass) (used : Int64)
  deriving DecidableEq

def release (c : WorkloadClass) (amount : Int64) : Reservation × Option ReleaseError :=
  match c with
  | .unknown code => (r, some (.unknownClass code))
  | c =>
    if amount ≤ 0 then (r, some (.amountNotPositive amount))
    else if amount > r.usedBy c then (r, some (.notInUse amount c (r.usedBy c)))
    else (r.setUsed c (r.usedBy c - amount), none)

end Reservation

/-- The calls. -/
inductive Call where
  | reserve (c : WorkloadClass) (amount : Int64)
  | release (c : WorkloadClass) (amount : Int64)
  deriving DecidableEq

namespace Reservation

def step (r : Reservation) : Call → Reservation
  | .reserve c amount => (r.reserveUnits c amount).1
  | .release c amount => (r.release c amount).1

/-! ### The limits -/

/-- The bounds of the units in use. -/
structure Bounded (r : Reservation) : Prop where
  interactive : 0 ≤ r.used.interactive.toInt
  batch : 0 ≤ r.used.batch.toInt
  total : r.used.interactive.toInt + r.used.batch.toInt ≤ r.capacity.toInt
  reserve : r.used.batch.toInt ≤ r.reserve.batch.toInt

/-- The bounds hold, and `Interactive` is given what it lacks of its reserve. -/
structure WithinLimits (r : Reservation) : Prop extends r.Bounded where
  claim : r.used.interactive.toInt < r.reserve.interactive.toInt →
    (r.admitLocked .interactive (r.reserve.interactive - r.used.interactive)).admitted = true

/-- The total in use, as an integer. -/
def total (r : Reservation) : ℤ := r.used.interactive.toInt + r.used.batch.toInt

/-- The limit for `Batch` when a request that wraps around is compared with it. -/
def wrappedCeiling (r : Reservation) (amount : Int64) : ℤ :=
  if r.highWaterUnits.toInt ≤ r.total + amount.toInt - 2 ^ 64 ∨ r.highWaterUnits.toInt ≤ r.total then
    min r.batchHardCapUse.toInt r.reserve.batch.toInt
  else r.reserve.batch.toInt

/-- The request wraps the total around, and for `Batch` it stays under the limit of that class. -/
def Overdraws (r : Reservation) : Call → Prop
  | .reserve .interactive amount => 2 ^ 63 ≤ r.total + amount.toInt
  | .reserve .batch amount => 2 ^ 63 ≤ r.total + amount.toInt ∧
      if r.used.batch.toInt + amount.toInt < 2 ^ 63 then
        r.used.batch.toInt + amount.toInt ≤ r.wrappedCeiling amount
      else r.used.batch.toInt + amount.toInt - 2 ^ 64 ≤ r.wrappedCeiling amount
  | .reserve (.unknown _) _ => False
  | .release _ _ => False

instance (r : Reservation) : ∀ call, Decidable (r.Overdraws call)
  | .reserve .interactive amount => inferInstanceAs (Decidable (2 ^ 63 ≤ r.total + amount.toInt))
  | .reserve .batch amount => inferInstanceAs (Decidable (2 ^ 63 ≤ r.total + amount.toInt ∧
      if r.used.batch.toInt + amount.toInt < 2 ^ 63 then
        r.used.batch.toInt + amount.toInt ≤ r.wrappedCeiling amount
      else r.used.batch.toInt + amount.toInt - 2 ^ 64 ≤ r.wrappedCeiling amount))
  | .reserve (.unknown _) _ => .isFalse id
  | .release _ _ => .isFalse id

/-! ### What is admitted -/

theorem admitted_interactive_iff (r : Reservation) (amount : Int64) :
    (r.admitLocked .interactive amount).admitted = true ↔
      0 < amount.toInt ∧ (r.totalUsed + amount).toInt ≤ r.capacity.toInt := by
  simp only [admitLocked, Int64.le_iff_toInt_le, gt_iff_lt, Int64.lt_iff_toInt_lt, Int64.toInt_zero]
  split_ifs with hpos hfull
  · exact iff_of_false id fun h => by omega
  · exact iff_of_false id fun h => by omega
  · exact iff_of_true rfl ⟨by omega, by omega⟩

/-- The ceiling of `Batch`. -/
def batchCeiling (r : Reservation) (amount : Int64) : ℤ :=
  if r.highWaterUnits.toInt ≤ (r.totalUsed + amount).toInt ∨
      r.highWaterUnits.toInt ≤ r.totalUsed.toInt then
    min r.batchHardCapUse.toInt r.reserve.batch.toInt
  else r.reserve.batch.toInt

theorem admitBatch_admitted_iff (r : Reservation) (amount : Int64) :
    (r.admitBatch amount).admitted = true ↔
      (r.used.batch + amount).toInt ≤ r.batchCeiling amount := by
  simp only [admitBatch, batchCeiling, ge_iff_le, Int64.le_iff_toInt_le, gt_iff_lt, Int64.lt_iff_toInt_lt]
  by_cases hload : r.highWaterUnits.toInt ≤ (r.totalUsed + amount).toInt ∨
      r.highWaterUnits.toInt ≤ r.totalUsed.toInt
  · rw [if_pos hload, if_pos hload]
    by_cases hcap : r.batchHardCapUse.toInt < r.reserve.batch.toInt
    · rw [if_pos hcap, min_eq_left hcap.le]
      split_ifs with h <;> simpa using h
    · rw [if_neg hcap, min_eq_right (by omega)]
      split_ifs with h <;> simpa using h
  · rw [if_neg hload, if_neg hload]
    split_ifs with h <;> simpa using h

theorem admitted_batch_iff (r : Reservation) (amount : Int64) :
    (r.admitLocked .batch amount).admitted = true ↔
      0 < amount.toInt ∧ (r.totalUsed + amount).toInt ≤ r.capacity.toInt ∧
        (r.used.batch + amount).toInt ≤ r.batchCeiling amount := by
  rw [← admitBatch_admitted_iff]
  simp only [admitLocked, Int64.le_iff_toInt_le, gt_iff_lt, Int64.lt_iff_toInt_lt, Int64.toInt_zero]
  split_ifs with hpos hfull
  · exact iff_of_false id fun h => by omega
  · exact iff_of_false id fun h => by omega
  · exact ⟨fun h => ⟨by omega, by omega, h⟩, fun h => h.2.2⟩

/-! ### A step within the limits -/

variable {r : Reservation} {c : WorkloadClass} {amount : Int64}

theorem bounded_iff : r.Bounded ↔ 0 ≤ r.used.interactive.toInt ∧ 0 ≤ r.used.batch.toInt ∧
    r.used.interactive.toInt + r.used.batch.toInt ≤ r.capacity.toInt ∧
      r.used.batch.toInt ≤ r.reserve.batch.toInt :=
  ⟨fun ⟨hi, hb, htotal, hreserve⟩ => ⟨hi, hb, htotal, hreserve⟩,
    fun ⟨hi, hb, htotal, hreserve⟩ => ⟨hi, hb, htotal, hreserve⟩⟩

theorem bounded_of_fresh (hfresh : r.used = ⟨0, 0⟩) : r.Bounded := by
  rw [bounded_iff, hfresh, Int64.toInt_zero]
  exact ⟨le_rfl, le_rfl, r.capacity_pos.le, r.batch_nonneg⟩

theorem Bounded.toInt_totalUsed (h : r.Bounded) : r.totalUsed.toInt = r.total := by
  have hlt := r.capacity.toInt_lt
  have ⟨hi, hb, htotal, _⟩ := h
  exact toInt_add_of_bounds (by omega) (by omega)

theorem Bounded.claim (h : r.Bounded) (hlack : r.used.interactive.toInt < r.reserve.interactive.toInt) :
    (r.admitLocked .interactive (r.reserve.interactive - r.used.interactive)).admitted = true := by
  have hlt := r.capacity.toInt_lt
  have ⟨hi, hb, _, hreserve⟩ := h
  have hsplit := r.split
  have htotal := h.toInt_totalUsed
  rw [Reservation.total] at htotal
  have hamount : (r.reserve.interactive - r.used.interactive).toInt =
      r.reserve.interactive.toInt - r.used.interactive.toInt :=
    toInt_sub_of_bounds (by omega) (by omega)
  rw [admitted_interactive_iff, hamount, toInt_add_of_bounds (by omega) (by omega), hamount]
  exact ⟨by omega, by omega⟩

theorem withinLimits_iff_bounded : r.WithinLimits ↔ r.Bounded :=
  ⟨fun h => h.toBounded, fun h => ⟨h, h.claim⟩⟩

theorem Bounded.setUsed_iff (h : r.Bounded) (hc : c = .interactive ∨ c = .batch) (units : Int64) :
    (r.setUsed c units).Bounded ↔ 0 ≤ units.toInt ∧
      r.total - (r.usedBy c).toInt + units.toInt ≤ r.capacity.toInt ∧
      (c = .batch → units.toInt ≤ r.reserve.batch.toInt) := by
  have ⟨hi, hb, _, hreserve⟩ := h
  rw [bounded_iff, Reservation.total]
  rcases hc with rfl | rfl
  all_goals
    simp only [setUsed, usedBy, reduceCtorEq, false_imp_iff, true_imp_iff, and_true]
    omega

theorem Bounded.usedBy_spec (h : r.Bounded) (c : WorkloadClass) :
    0 ≤ (r.usedBy c).toInt ∧ (r.usedBy c).toInt ≤ r.total ∧
      (c = .batch → (r.usedBy c).toInt ≤ r.reserve.batch.toInt) := by
  have ⟨hi, hb, _, hreserve⟩ := h
  rw [Reservation.total]
  cases c with
  | interactive => exact ⟨hi, le_add_of_nonneg_right hb, nofun⟩
  | batch => exact ⟨hb, le_add_of_nonneg_left hi, fun _ => hreserve⟩
  | unknown => exact ⟨le_rfl, add_nonneg hi hb, nofun⟩

theorem Bounded.add_iff (h : r.Bounded) (hc : c = .interactive ∨ c = .batch) (hpos : 0 < amount.toInt)
    (hcap : (r.totalUsed + amount).toInt ≤ r.capacity.toInt)
    (hbatch : c = .batch → (r.usedBy c + amount).toInt ≤ r.reserve.batch.toInt) :
    (r.setUsed c (r.usedBy c + amount)).Bounded ↔ ¬2 ^ 63 ≤ r.total + amount.toInt := by
  obtain ⟨hnonneg, hle, _⟩ := h.usedBy_spec c
  have hlt := r.capacity.toInt_lt
  have hamount := amount.toInt_lt
  have hused := (r.usedBy c).toInt_lt
  have htotal := h.toInt_totalUsed
  have hsum := toInt_add_of_nonneg hnonneg hpos.le
  rw [toInt_add_of_nonneg (by omega) hpos.le, htotal] at hcap
  rw [h.setUsed_iff hc]
  constructor
  · rintro ⟨hnext, hfits, _⟩
    split_ifs at hsum <;> omega
  · intro hsmall
    rw [if_pos (by omega)] at hsum hcap
    exact ⟨by omega, by omega, hbatch⟩

theorem Bounded.wraps (h : r.Bounded) (hover : 2 ^ 63 ≤ r.total + amount.toInt) :
    0 < amount.toInt ∧ (r.totalUsed + amount).toInt = r.total + amount.toInt - 2 ^ 64 ∧
      r.total + amount.toInt - 2 ^ 64 ≤ r.capacity.toInt := by
  have hlt := r.capacity.toInt_lt
  have hpos := r.capacity_pos
  have hamount := amount.toInt_lt
  have ⟨hi, hb, hle, _⟩ := h
  have htotal := h.toInt_totalUsed
  rw [Reservation.total] at *
  rw [toInt_add_of_nonneg (by omega) (by omega), htotal, if_neg (by omega)]
  exact ⟨by omega, rfl, by omega⟩

theorem reserveUnits_of_admitted (h : (r.admitLocked c amount).admitted = true) :
    (r.reserveUnits c amount).1 = r.setUsed c (r.usedBy c + amount) := by
  simp [reserveUnits, h]

theorem reserveUnits_of_denied (h : ¬(r.admitLocked c amount).admitted = true) :
    (r.reserveUnits c amount).1 = r := by
  simp [reserveUnits, h]

theorem Bounded.reserve_interactive (h : r.Bounded) (amount : Int64) :
    (r.reserveUnits .interactive amount).1.Bounded ↔ ¬r.Overdraws (.reserve .interactive amount) := by
  by_cases hadm : (r.admitLocked .interactive amount).admitted = true
  · obtain ⟨hpos, hcap⟩ := (admitted_interactive_iff r amount).mp hadm
    rw [reserveUnits_of_admitted hadm]
    exact h.add_iff (.inl rfl) hpos hcap nofun
  · rw [reserveUnits_of_denied hadm]
    refine iff_of_true h fun hover => hadm ((admitted_interactive_iff r amount).mpr ?_)
    obtain ⟨hpos, hsum, hle⟩ := h.wraps hover
    exact ⟨hpos, hsum.trans_le hle⟩

theorem batchCeiling_le (r : Reservation) (amount : Int64) :
    r.batchCeiling amount ≤ r.reserve.batch.toInt := by
  unfold batchCeiling
  split_ifs
  · exact min_le_right _ _
  · exact le_rfl

theorem Bounded.wrappedCeiling_eq (h : r.Bounded) (hover : 2 ^ 63 ≤ r.total + amount.toInt) :
    r.wrappedCeiling amount = r.batchCeiling amount := by
  rw [wrappedCeiling, batchCeiling, (h.wraps hover).2.1, h.toInt_totalUsed]

theorem Bounded.reserve_batch (h : r.Bounded) (amount : Int64) :
    (r.reserveUnits .batch amount).1.Bounded ↔ ¬r.Overdraws (.reserve .batch amount) := by
  by_cases hadm : (r.admitLocked .batch amount).admitted = true
  · obtain ⟨hpos, hcap, hclass⟩ := (admitted_batch_iff r amount).mp hadm
    rw [reserveUnits_of_admitted hadm,
      h.add_iff (.inr rfl) hpos hcap fun _ => hclass.trans (r.batchCeiling_le amount)]
    refine not_congr (iff_self_and.mpr fun hover => ?_)
    rw [h.wrappedCeiling_eq hover]
    have hsum := toInt_add_of_nonneg h.batch hpos.le
    split_ifs at hsum ⊢ <;> omega
  · rw [reserveUnits_of_denied hadm]
    refine iff_of_true h fun ⟨hover, hclass⟩ => hadm ((admitted_batch_iff r amount).mpr ?_)
    obtain ⟨hpos, hsum, hle⟩ := h.wraps hover
    rw [h.wrappedCeiling_eq hover] at hclass
    have hbatch := toInt_add_of_nonneg h.batch hpos.le
    refine ⟨hpos, hsum.trans_le hle, ?_⟩
    split_ifs at hbatch hclass <;> omega

theorem Bounded.release (h : r.Bounded) (c : WorkloadClass) (amount : Int64) :
    (r.release c amount).1.Bounded := by
  have hkept : c = .interactive ∨ c = .batch → ¬amount ≤ 0 → ¬amount > r.usedBy c →
      (r.setUsed c (r.usedBy c - amount)).Bounded := by
    intro hc hpos huse
    rw [Int64.le_iff_toInt_le, Int64.toInt_zero] at hpos
    rw [gt_iff_lt, Int64.lt_iff_toInt_lt] at huse
    obtain ⟨_, hle, hreserve⟩ := h.usedBy_spec c
    have hlt := (r.usedBy c).toInt_lt
    have htotal : r.total ≤ r.capacity.toInt := h.total
    rw [h.setUsed_iff hc, toInt_sub_of_bounds (by omega) (by omega)]
    exact ⟨by omega, by omega, fun hbatch => by have := hreserve hbatch; omega⟩
  match c with
  | .unknown _ => exact h
  | .interactive | .batch =>
    simp only [Reservation.release]
    split_ifs with hpos huse
    · exact h
    · exact h
    · exact hkept (by simp) hpos huse

theorem Bounded.step_iff (h : r.Bounded) (call : Call) :
    (r.step call).Bounded ↔ ¬r.Overdraws call := by
  match call with
  | .reserve .interactive amount => exact h.reserve_interactive amount
  | .reserve .batch amount => exact h.reserve_batch amount
  | .reserve (.unknown _) _ => exact iff_of_true h id
  | .release c amount => exact iff_of_true (h.release c amount) id

/-- The limits hold in every state of a run exactly when no call of it overdraws. -/
theorem within_limits_iff (r : Reservation) (hfresh : r.used = ⟨0, 0⟩) (calls : List Call) :
    (∀ r' ∈ states step r calls, r'.WithinLimits) ↔
      Along step (fun r call => ¬r.Overdraws call) r calls := by
  simp only [withinLimits_iff_bounded]
  exact forall_states_iff (I := fun _ => True) (P := Bounded) (fun _ _ _ => trivial)
    (fun r call _ h => h.step_iff call) trivial (bounded_of_fresh hfresh) calls

/-- Ten units, split evenly, with a mark of nine and a hard cap of five. -/
def tenUnits : Reservation where
  capacity := 10
  reserve := ⟨5, 5⟩
  used := ⟨0, 0⟩
  highWaterUnits := 9
  batchHardCapUse := 5
  capacity_pos := by decide
  interactive_nonneg := by decide
  batch_nonneg := by decide
  split := by decide

theorem tenUnits_within_limits :
    ([.reserve .batch 5, .reserve .interactive 5, .release .batch 2].foldl step tenUnits).WithinLimits :=
  (within_limits_iff tenUnits rfl _).mpr (by decide) _ (foldl_mem_states tenUnits _)

/-- One unit is in use when a request for all there are makes the sum negative. -/
theorem tenUnits_oversubscribed :
    ¬∀ r ∈ states step tenUnits [.reserve .interactive 1, .reserve .interactive Int64.maxValue],
      r.WithinLimits := by
  intro h
  have hlast := h _ (foldl_mem_states tenUnits _)
  exact absurd hlast.interactive (by decide)

end Reservation

end HelixCluster.Gpu
