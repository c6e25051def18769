import HelixCluster.Crdt.LwwRegister
import HelixCluster.Crdt.OrSet

/-!
# Configuration stores

The `ConfigStore` of `pkg/configsync`. A store has a last-writer-wins register for each key, also
for deleted ones, and an observed-remove set of the live keys.
-/

namespace HelixCluster.ConfigSync

open Crdt

structure ConfigStore where
  replica : Str
  regs : GoMap Str LwwRegister
  liveKeys : OrSet

def newConfigStore (replica : Str) : ConfigStore where
  replica := replica
  regs := ∅
  liveKeys := newOrSet

/-- `ConfigStore.reg`: the register of a key, which is created if there is none. -/
def reg (regs : GoMap Str LwwRegister) (key : Str) : LwwRegister := regs.read key newLwwRegister

/-- The body of the loop of `Merge`. -/
def mergeReg (regs : GoMap Str LwwRegister) (key : Str) (otherReg : LwwRegister) :
    GoMap Str LwwRegister :=
  regs.insert key ((reg regs key).merge otherReg)

/-- The body of the loop of `Snapshot`. -/
def snapshotKey (regs : GoMap Str LwwRegister) (result : GoMap Str Str) (k : Str) :
    GoMap Str Str :=
  match regs.lookup k with
  | none => result
  | some reg =>
    match reg.read with
    | none => result
    | some v => result.insert k v

namespace ConfigStore

variable (s other : ConfigStore)

def set (key value : Str) (timestamp : UInt64) : ConfigStore :=
  { s with
    regs := s.regs.insert key ((reg s.regs key).set value timestamp s.replica)
    liveKeys := s.liveKeys.add key s.replica }

def delete (key : Str) : ConfigStore := { s with liveKeys := s.liveKeys.remove key }

def merge : ConfigStore :=
  { s with
    regs := other.regs.foldl mergeReg s.regs
    liveKeys := s.liveKeys.merge other.liveKeys }

def get (key : Str) : Option Str :=
  if ¬s.liveKeys.contains key then none
  else
    match s.regs.lookup key with
    | none => none
    | some reg => reg.read

def snapshot : GoMap Str Str := s.liveKeys.elements.foldl (snapshotKey s.regs) ∅

end ConfigStore

/-! ### Lookups -/

variable (regs : GoMap Str LwwRegister) (key : Str)

theorem reg_insert (key j : Str) (r : LwwRegister) :
    reg (regs.insert key r) j = if j = key then r else reg regs j :=
  GoMap.read_insert_if ..

theorem reg_merge (m d : GoMap Str LwwRegister) (key : Str) :
    reg (d.foldl mergeReg m) key = (reg m key).merge (reg d key) := by
  have hupdates : GoMap.Updates mergeReg fun otherReg old => some ((old.getD newLwwRegister).merge otherReg) := by
    intro out k otherReg j
    rw [mergeReg, GoMap.lookup_insert_if]
    split_ifs with hj
    · subst hj
      rfl
    · rfl
  simp only [reg, GoMap.read, GoMap.lookup_foldl_update hupdates]
  cases d.lookup key <;> rfl

theorem read_reg : (reg regs key).read = (regs.lookup key).bind (·.read) := by
  unfold reg GoMap.read
  cases regs.lookup key <;> rfl

theorem lookup_snapshotKey (result : GoMap Str Str) (k key : Str) :
    (snapshotKey regs result k).lookup key =
      if key = k then (reg regs key).read.or (result.lookup key) else result.lookup key := by
  rcases eq_or_ne key k with rfl | hkey
  · rw [if_pos rfl, snapshotKey, read_reg]
    cases regs.lookup key with
    | none => rfl
    | some r =>
      dsimp only [Option.bind_some]
      cases r.read with
      | none => rfl
      | some v => exact AList.lookup_insert _
  rw [if_neg hkey, snapshotKey]
  cases regs.lookup k with
  | none => rfl
  | some r =>
    dsimp only
    cases r.read with
    | none => rfl
    | some v => exact AList.lookup_insert_ne hkey

theorem lookup_foldl_snapshotKey (keys : List Str) (result : GoMap Str Str)
    (key : Str) : (keys.foldl (snapshotKey regs) result).lookup key =
      if key ∈ keys then (reg regs key).read.or (result.lookup key) else result.lookup key := by
  induction keys generalizing result with
  | nil => rfl
  | cons k keys ih =>
    rw [List.foldl_cons, ih, lookup_snapshotKey]
    by_cases hk : key = k
    · -- visiting the key twice changes nothing
      rw [if_pos hk, if_pos (List.mem_cons.mpr (.inl hk)), ← Option.or_assoc, Option.or_self, ite_self]
    · simp only [hk, if_false, List.mem_cons, false_or]

namespace ConfigStore

theorem get_eq (s : ConfigStore) (key : Str) :
    s.get key = if s.liveKeys.contains key then (reg s.regs key).read else none := by
  rw [get, read_reg]
  by_cases hlive : s.liveKeys.contains key = true
  · rw [if_pos hlive, if_neg (not_not.mpr hlive)]
    cases s.regs.lookup key <;> rfl
  · rw [if_neg hlive, if_pos hlive]

theorem lookup_snapshot (s : ConfigStore) (key : Str) : s.snapshot.lookup key = s.get key := by
  have hmem := s.liveKeys.mem_elements_iff key
  rw [snapshot, lookup_foldl_snapshotKey, AList.lookup_empty, Option.or_none, get_eq]
  by_cases hlive : s.liveKeys.contains key = true
  · rw [if_pos (hmem.mpr hlive), if_pos hlive]
  · rw [if_neg (mt hmem.mp hlive), if_neg hlive]

end ConfigStore

end HelixCluster.ConfigSync
