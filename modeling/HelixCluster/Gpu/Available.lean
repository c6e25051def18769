import HelixCluster.Gpu.Reservation

/-!
# What is available

`AvailableFor` probes for the largest request that `Admit` grants, one after the other.
-/

namespace HelixCluster.Gpu

/-- The amount of a call. -/
def Call.amount : Call → Int64
  | .reserve _ amount => amount
  | .release _ amount => amount

namespace Reservation

/-- The loop of `AvailableFor`, with the number of turns that are left. -/
def probe (r : Reservation) (n best : Int64) : ℕ → Int64
  | 0 => best
  | k + 1 => if (r.admitLocked .batch n).admitted then probe r (n + 1) n k else best

def availableFor (r : Reservation) (c : WorkloadClass) : Int64 :=
  let poolFree := r.capacity - r.totalUsed
  match c with
  | .unknown _ => 0
  | c =>
    if poolFree ≤ 0 then 0
    else
      match c with
      | .interactive => poolFree
      | .batch => r.probe 1 0 poolFree.toInt.toNat
      | .unknown _ => 0

/-- `AvailableFor` agrees with `Admit`. -/
def Agrees (r : Reservation) : Prop :=
  ∀ c n, 1 ≤ n.toInt → n.toInt ≤ r.capacity.toInt →
    ((r.admitLocked c n).admitted = true ↔ n.toInt ≤ (r.availableFor c).toInt)

variable {r : Reservation} {n : Int64}

section

variable (h : r.Bounded) (hsmall : r.capacity.toInt < 2 ^ 62)

include h hsmall

theorem admitted_interactive_small (hpos : 1 ≤ n.toInt) (hle : n.toInt ≤ r.capacity.toInt) :
    (r.admitLocked .interactive n).admitted = true ↔ r.total + n.toInt ≤ r.capacity.toInt := by
  have hused := h.toInt_totalUsed
  obtain ⟨hi, hb, htotal, _⟩ := h
  rw [Reservation.total] at hused ⊢
  rw [admitted_interactive_iff, toInt_add_of_bounds (by omega) (by omega), hused]
  omega

theorem admitted_batch_small (hpos : 1 ≤ n.toInt) (hle : n.toInt ≤ r.capacity.toInt) :
    (r.admitLocked .batch n).admitted = true ↔ r.total + n.toInt ≤ r.capacity.toInt ∧
      r.used.batch.toInt + n.toInt ≤ r.reserve.batch.toInt ∧
      (r.highWaterUnits.toInt ≤ r.total + n.toInt →
        r.used.batch.toInt + n.toInt ≤ r.batchHardCapUse.toInt) := by
  have hused := h.toInt_totalUsed
  obtain ⟨hi, hb, htotal, _⟩ := h
  rw [Reservation.total] at hused ⊢
  rw [admitted_batch_iff, batchCeiling, toInt_add_of_bounds (by omega) (by omega),
    toInt_add_of_bounds (by omega) (by omega), hused]
  split_ifs <;> omega

theorem probe_spec (k : ℕ) {start best : Int64}
    (hbest : 0 ≤ best.toInt) (hstart : start.toInt = best.toInt + 1)
    (hk : best.toInt + k ≤ r.capacity.toInt) :
    best.toInt ≤ (r.probe start best k).toInt ∧ (r.probe start best k).toInt ≤ best.toInt + k ∧
      ∀ m : Int64, best.toInt < m.toInt → m.toInt ≤ best.toInt + k →
        ((r.admitLocked .batch m).admitted = true ↔ m.toInt ≤ (r.probe start best k).toInt) := by
  induction k generalizing start best with
  | zero => exact ⟨le_rfl, by simp [probe], fun m hm hm' => by omega⟩
  | succ k ih =>
    have hlt := r.capacity.toInt_lt
    unfold probe
    split_ifs with hadmitted
    · have hnext : (start + 1).toInt = start.toInt + 1 := toInt_add_one_of_lt (by omega)
      obtain ⟨hle, hge, hrest⟩ := @ih (start + 1) start (by omega) hnext (by push_cast at hk; omega)
      refine ⟨by omega, by push_cast; omega, fun m hm hm' => ?_⟩
      by_cases heq : m.toInt = start.toInt
      · rw [Int64.toInt_inj.mp heq]
        exact iff_of_true hadmitted hle
      · exact hrest m (by omega) (by push_cast at hm'; omega)
    · refine ⟨le_rfl, by omega, fun m hm hm' => ⟨fun hm => ?_, fun _ => by omega⟩⟩
      -- a smaller request meets the same limits
      refine absurd ?_ hadmitted
      rw [admitted_batch_small h hsmall (by omega) (by push_cast at hk; omega)] at hm ⊢
      omega

theorem Bounded.agrees : r.Agrees := by
  obtain ⟨hi, hb, htotal, _⟩ := bounded_iff.mp h
  have hused := h.toInt_totalUsed
  have hfree : (r.capacity - r.totalUsed).toInt = r.capacity.toInt - r.total := by
    rw [← hused]
    rw [Reservation.total] at hused
    exact toInt_sub_of_bounds (by omega) (by omega)
  intro c n hpos hle
  cases c with
  | unknown => exact iff_of_false Bool.false_ne_true (by simp [availableFor]; omega)
  | interactive =>
    rw [admitted_interactive_small h hsmall hpos hle]
    simp only [availableFor, Int64.le_iff_toInt_le, Int64.toInt_zero, hfree]
    split_ifs
    · rw [Int64.toInt_zero]
      omega
    · rw [hfree]
      omega
  | batch =>
    simp only [availableFor, Int64.le_iff_toInt_le, Int64.toInt_zero, hfree]
    have hfits := admitted_batch_small h hsmall hpos hle
    split_ifs
    · rw [hfits, Int64.toInt_zero]
      omega
    · have hnonneg : 0 ≤ r.total := add_nonneg hi hb
      obtain ⟨_, hge, hrest⟩ := @probe_spec r h hsmall (r.capacity.toInt - r.total).toNat 1 0
        (by decide) (by decide) (by rw [Int64.toInt_zero]; omega)
      rw [Int64.toInt_zero] at hge hrest
      by_cases hin : n.toInt ≤ r.capacity.toInt - r.total
      · exact hrest n (by omega) (by omega)
      · rw [hfits]
        omega

end

theorem capacity_step (r : Reservation) (call : Call) : (r.step call).capacity = r.capacity := by
  have hset : ∀ c units, (r.setUsed c units).capacity = r.capacity := by
    intro c units
    cases c <;> rfl
  cases call with
  | reserve c amount =>
    simp only [step, reserveUnits]
    split_ifs
    · exact hset ..
    · rfl
  | release c amount =>
    cases c with
    | unknown => rfl
    | interactive | batch =>
      simp only [step, release]
      split_ifs
      · rfl
      · rfl
      · exact hset ..

/-- **`AvailableFor` agrees with `Admit`** in all states that are reached with amounts up to the
capacity, if and only if the capacity is below two to the 62nd. -/
theorem available_iff (r : Reservation) (hfresh : r.used = ⟨0, 0⟩) :
    (∀ calls : List Call, (∀ call ∈ calls, call.amount.toInt ≤ r.capacity.toInt) →
        (calls.foldl step r).Agrees) ↔ r.capacity.toInt < 2 ^ 62 := by
  constructor
  · -- all units are in use, and a request for all of them wraps around
    intro hall
    by_contra hlarge
    have hlt := r.capacity.toInt_lt
    have hpos := r.capacity_pos
    have hfirst : r.step (.reserve .interactive r.capacity) = r.setUsed .interactive r.capacity := by
      have hadmitted := (admitted_interactive_iff r r.capacity).mpr ⟨hpos, by simp [totalUsed, hfresh]⟩
      exact (reserveUnits_of_admitted hadmitted).trans (by simp [usedBy, hfresh])
    have hagrees := hall [.reserve .interactive r.capacity] (by simp [Call.amount])
    rw [List.foldl_cons, List.foldl_nil, hfirst] at hagrees
    have htotal : (r.setUsed .interactive r.capacity).totalUsed = r.capacity := by
      simp [totalUsed, setUsed, hfresh]
    have hsecond := (hagrees .interactive r.capacity hpos le_rfl).mp (by
      rw [admitted_interactive_iff, htotal, toInt_add_of_nonneg hpos.le hpos.le, if_neg (by omega)]
      exact ⟨hpos, by change _ ≤ r.capacity.toInt; omega⟩)
    have hnone : (r.setUsed .interactive r.capacity).availableFor .interactive = 0 := by
      rw [availableFor, htotal, show (r.setUsed .interactive r.capacity).capacity = r.capacity from rfl,
        Int64.sub_self]
      rfl
    rw [hnone, Int64.toInt_zero] at hsecond
    omega
  · intro hsmall calls hcalls
    have hstep : ∀ (s : Reservation) (call : Call), s.Bounded ∧ s.capacity = r.capacity →
        call.amount.toInt ≤ r.capacity.toInt → (s.step call).Bounded ∧ (s.step call).capacity = r.capacity := by
      rintro s call ⟨hs, hcapacity⟩ hamount
      refine ⟨(hs.step_iff call).mpr fun hover => ?_, (capacity_step s call).trans hcapacity⟩
      have hover : 2 ^ 63 ≤ s.total + call.amount.toInt := by
        cases call with
        | reserve c _ =>
          cases c with
          | interactive => exact hover
          | batch => exact hover.1
          | unknown => exact hover.elim
        | release => exact hover.elim
      have htotal : s.total ≤ s.capacity.toInt := hs.total
      rw [hcapacity] at htotal
      omega
    obtain ⟨hreached, hcapacity⟩ :=
      foldl_of_along hstep ⟨bounded_of_fresh hfresh, rfl⟩ (along_iff_forall.mpr hcalls)
    exact hreached.agrees (hcapacity ▸ hsmall)

/-- A pool of `2 ^ 62` units. -/
def hugePool : Reservation where
  capacity := 4611686018427387904
  reserve := ⟨4611686018427387903, 1⟩
  used := ⟨0, 0⟩
  highWaterUnits := 1
  batchHardCapUse := 1
  capacity_pos := by decide +kernel
  interactive_nonneg := by decide +kernel
  batch_nonneg := by decide +kernel
  split := by decide +kernel

/-- All units are in use, none is available, and a request for all is admitted. -/
theorem admitted_beyond_available :
    let full := hugePool.step (.reserve .interactive hugePool.capacity)
    (full.admitLocked .interactive full.capacity).admitted = true ∧ full.availableFor .interactive = 0 := by
  decide +kernel

theorem tenUnits_agree : (tenUnits.step (.reserve .batch 3)).Agrees :=
  (available_iff tenUnits rfl).mpr (by decide) [.reserve .batch 3] (by decide)

end Reservation

end HelixCluster.Gpu
