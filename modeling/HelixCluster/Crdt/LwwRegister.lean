import HelixCluster.Lib.GoString

/-!
# The last-writer-wins register

The `LWWRegister` of `pkg/crdt/crdt.go`. A register is compared by its stamp, the timestamp with the
ID of the writer.
-/

namespace HelixCluster.Crdt

structure LwwRegister where
  value : Str
  timestamp : UInt64
  replica : Str
  isSet : Bool
  deriving DecidableEq

def newLwwRegister : LwwRegister where
  value := []
  timestamp := 0
  replica := []
  isSet := false

/-- The order of the writes: by timestamp, and then by replica. -/
abbrev Stamp := ℕ ×ₗ Str

def stampOf (timestamp : UInt64) (id : Str) : Stamp := toLex (timestamp.toNat, id)

theorem stampOf_inj {timestamp timestamp' : UInt64} {id id' : Str}
    (h : stampOf timestamp id = stampOf timestamp' id') : timestamp = timestamp' ∧ id = id' := by
  have hpair := toLex_inj.mp h
  exact ⟨UInt64.toNat_inj.mp (congrArg Prod.fst hpair), congrArg Prod.snd hpair⟩

theorem stamp_eq {a b : WithBot Stamp} (h : ∀ x : Stamp, (x : WithBot Stamp) ≤ a ↔ (x : WithBot Stamp) ≤ b) :
    a = b := by
  have hle {a b : WithBot Stamp} (h : ∀ x : Stamp, (x : WithBot Stamp) ≤ a → (x : WithBot Stamp) ≤ b) :
      a ≤ b := by
    cases a with
    | bot => exact bot_le
    | coe x => exact h x (le_refl _)
  exact le_antisymm (hle fun x => (h x).mp) (hle fun x => (h x).mpr)

namespace LwwRegister

variable (r other : LwwRegister)

def dominates (timestamp : UInt64) (id : Str) : Bool :=
  if ¬r.isSet then false
  else if r.timestamp ≠ timestamp then r.timestamp > timestamp
  else r.replica ≥ id

def set (value : Str) (timestamp : UInt64) (id : Str) : LwwRegister :=
  if r.dominates timestamp id then r else ⟨value, timestamp, id, true⟩

def merge : LwwRegister :=
  if other.isSet then r.set other.value other.timestamp other.replica else r

/-- `LWWRegister.Value`. -/
def read : Option Str := if r.isSet then some r.value else none

/-- The stamp of a register, which is below all others if nothing was written. -/
def stamp : WithBot Stamp := if r.isSet then (stampOf r.timestamp r.replica : Stamp) else ⊥

theorem dominates_iff (timestamp : UInt64) (id : Str) :
    r.dominates timestamp id = true ↔ (stampOf timestamp id : WithBot Stamp) ≤ r.stamp := by
  unfold dominates stamp
  by_cases hset : r.isSet = true
  · rw [if_neg (not_not.mpr hset), if_pos hset, WithBot.coe_le_coe, stampOf, stampOf,
      Prod.Lex.toLex_le_toLex]
    by_cases hts : r.timestamp = timestamp
    · rw [if_neg (not_not.mpr hts), hts]
      simp
    have hne : timestamp.toNat ≠ r.timestamp.toNat := fun h => hts (UInt64.toNat_inj.mp h).symm
    rw [if_pos hts]
    simp [hne, UInt64.lt_iff_toNat_lt]
  · rw [if_pos hset, if_neg hset]
    simp

theorem stamp_set (value : Str) (timestamp : UInt64) (id : Str) :
    (r.set value timestamp id).stamp = max r.stamp (stampOf timestamp id) := by
  unfold set
  split_ifs with hdominates
  · exact (max_eq_left ((r.dominates_iff timestamp id).mp hdominates)).symm
  · rw [r.dominates_iff] at hdominates
    rw [max_eq_right (not_le.mp hdominates).le]
    rfl

theorem stamp_merge : (r.merge other).stamp = max r.stamp other.stamp := by
  unfold merge
  split_ifs with hset
  · rw [stamp_set, stamp.eq_def other, if_pos hset]
  · rw [stamp.eq_def other, if_neg hset, max_bot_right]

theorem merge_eq : r.merge other = r ∨ r.merge other = other := by
  unfold merge
  split_ifs with hset
  · unfold set
    split
    · exact .inl rfl
    obtain ⟨value, timestamp, replica, isSet⟩ := other
    have htrue : isSet = true := hset
    rw [htrue]
    exact .inr rfl
  · exact .inl rfl

theorem isSet_of_stamp {r : LwwRegister} (h : r.stamp ≠ ⊥) : r.isSet = true := by
  by_contra hset
  exact h (if_neg hset)

theorem read_eq_none_iff : r.read = none ↔ r.stamp = ⊥ := by
  unfold read stamp
  by_cases hset : r.isSet = true <;> simp [hset]

/-! ### Merging is a join where stamps tell the writes apart -/

def equal : Bool :=
  if r.isSet ≠ other.isSet then false
  else if ¬r.isSet then true
  else r.value = other.value ∧ r.timestamp = other.timestamp ∧ r.replica = other.replica

variable {r other}

theorem equal_iff : r.equal other = true ↔ r.stamp = other.stamp ∧ r.read = other.read := by
  unfold equal stamp read
  by_cases hset : r.isSet = true <;> by_cases hother : other.isSet = true
  · simp only [hset, hother, ne_eq, not_true, if_false, if_true, decide_eq_true_iff, WithBot.coe_inj, Option.some_inj]
    constructor
    · rintro ⟨hvalue, htimestamp, hreplica⟩
      exact ⟨by rw [htimestamp, hreplica], hvalue⟩
    · rintro ⟨hstamp, hvalue⟩
      exact ⟨hvalue, stampOf_inj hstamp⟩
  all_goals simp [hset, hother]

variable (r other) in
theorem merge_eq_if : r.merge other = if r.stamp < other.stamp then other else r := by
  unfold merge
  by_cases hset : other.isSet = true
  · have hstamp : other.stamp = (stampOf other.timestamp other.replica : Stamp) := if_pos hset
    rw [if_pos hset, set, hstamp]
    by_cases hdominates : r.dominates other.timestamp other.replica = true
    · rw [if_pos hdominates, if_neg (not_lt.mpr ((r.dominates_iff _ _).mp hdominates))]
    · rw [if_neg hdominates, if_pos (not_le.mp ((r.dominates_iff _ _).not.mp hdominates)), ← hset]
  · have hstamp : other.stamp = ⊥ := if_neg hset
    rw [if_neg hset, hstamp, if_neg not_lt_bot]

theorem merge_assoc (a b c : LwwRegister) : a.merge (b.merge c) = (a.merge b).merge c := by
  simp only [merge_eq_if]
  by_cases hab : a.stamp < b.stamp <;> by_cases hbc : b.stamp < c.stamp
  · simp only [if_pos hab, if_pos hbc, if_pos (hab.trans hbc)]
  · simp only [if_pos hab, if_neg hbc]
  · simp only [if_neg hab, if_pos hbc]
  · simp only [if_neg hab, if_neg hbc, if_neg (not_lt.mpr ((not_lt.mp hbc).trans (not_lt.mp hab)))]

theorem merge_comm_iff (a b : LwwRegister) :
    (a.merge b).equal (b.merge a) = true ↔ (a.stamp = b.stamp → a.read = b.read) := by
  rw [merge_eq_if, merge_eq_if]
  obtain hlt | heq | hgt := lt_trichotomy a.stamp b.stamp
  · rw [if_pos hlt, if_neg hlt.not_gt]
    exact iff_of_true (equal_iff.mpr ⟨rfl, rfl⟩) fun h => absurd h hlt.ne
  · rw [if_neg heq.not_lt, if_neg heq.not_gt, equal_iff]
    exact ⟨fun h _ => h.2, fun h => ⟨heq, h heq⟩⟩
  · rw [if_neg hgt.not_gt, if_pos hgt]
    exact iff_of_true (equal_iff.mpr ⟨rfl, rfl⟩) fun h => absurd h hgt.ne'

/-- `Merge` is a join if and only if equal stamps mean equal values. -/
theorem merge_join_iff (a b c : LwwRegister) :
    ((a.merge b).equal (b.merge a) = true ∧ (a.merge (b.merge c)).equal ((a.merge b).merge c) = true ∧
      (a.merge a).equal a = true) ↔
    (a.isSet = true → b.isSet = true → a.timestamp = b.timestamp → a.replica = b.replica → a.value = b.value) := by
  have hself : (a.merge a).equal a = true := by
    rw [merge_eq_if, if_neg (lt_irrefl _)]
    exact equal_iff.mpr ⟨rfl, rfl⟩
  have hassoc : (a.merge (b.merge c)).equal ((a.merge b).merge c) = true :=
    equal_iff.mpr ⟨by rw [merge_assoc], by rw [merge_assoc]⟩
  rw [and_iff_left ⟨hassoc, hself⟩, merge_comm_iff]
  unfold stamp read
  by_cases ha : a.isSet = true <;> by_cases hb : b.isSet = true
  · simp only [ha, hb, if_true, WithBot.coe_inj, Option.some_inj, forall_const]
    constructor
    · intro h htimestamp hreplica
      exact h (by rw [htimestamp, hreplica])
    · intro h hstamp
      exact h (stampOf_inj hstamp).1 (stampOf_inj hstamp).2
  all_goals simp [ha, hb]

/-- Two registers that replica `r` set to `x` and to `y` at time 1. -/
theorem merge_not_comm :
    ((newLwwRegister.set [120] 1 [114]).merge (newLwwRegister.set [121] 1 [114])).equal
      ((newLwwRegister.set [121] 1 [114]).merge (newLwwRegister.set [120] 1 [114])) = false := by
  decide

end LwwRegister

end HelixCluster.Crdt
