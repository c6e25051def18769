import HelixCluster.Lib.GoMap
import HelixCluster.Lib.BinarySearch
import HelixCluster.Lib.Order

/-!
# The watch manager

The `Manager` of `pkg/watchmanager`. A watcher is found in `watchers` under its ID, and the three
maps of the source are sets of IDs.
-/

namespace HelixCluster.WatchManager

inductive Group where
  | synced
  | unsynced
  | victim
  deriving DecidableEq

structure Event where
  revision : ℤ
  key : Str
  value : Str
  tick : ℤ
  deriving DecidableEq

/-- `Watcher`, with the events that are in its channel. -/
structure Watcher where
  keyPrefix : Str
  nextRev : ℤ
  bufSize : ℤ
  c : List Event
  group : Group
  deriving DecidableEq

structure Manager where
  currentRev : ℤ
  store : List Event
  nextWatcherID : ℕ
  watchers : GoMap ℕ Watcher
  synced : GoMap ℕ Unit
  unsynced : GoMap ℕ Unit
  victim : GoMap ℕ Unit

def Manager.new : Manager := ⟨0, [], 0, ∅, ∅, ∅, ∅⟩

/-- The map of a group. -/
def Manager.members (m : Manager) : Group → GoMap ℕ Unit
  | .synced => m.synced
  | .unsynced => m.unsynced
  | .victim => m.victim

/-- `trySend`, with the watcher after the send if the channel has room. -/
def Watcher.trySend (w : Watcher) (ev : Event) : Option Watcher :=
  if (w.c.length : ℤ) < w.bufSize then some { w with c := w.c ++ [ev] } else none

/-- The body of the loop in `Put`. -/
def Manager.fanOut (ev : Event) (m : Manager) (id : ℕ) : Manager :=
  match m.watchers.lookup id with
  | none => m
  | some w =>
    if ¬ w.keyPrefix <+: ev.key then
      { m with watchers := m.watchers.insert id { w with nextRev := ev.revision + 1 } }
    else
      match w.trySend ev with
      | none =>
        { m with
          watchers := m.watchers.insert id { w with group := .unsynced }
          synced := m.synced.erase id
          unsynced := m.unsynced.insert id () }
      | some w => { m with watchers := m.watchers.insert id { w with nextRev := ev.revision + 1 } }

/-- `Put` when the clock ticks to `tick`. -/
def Manager.put (m : Manager) (key value : Str) (tick : ℤ) : Manager :=
  let rev := m.currentRev + 1
  let ev : Event := ⟨rev, key, value, tick⟩
  let m := { m with currentRev := rev, store := m.store ++ [ev] }
  m.synced.keys.foldl (Manager.fanOut ev) m

/-- The watcher that `Watch` makes, with its defaults and its first group. -/
def Watcher.new (currentRev : ℤ) (keyPrefix : Str) (fromRev bufSize : ℤ) : Watcher :=
  let bufSize := if bufSize < 1 then 1 else bufSize
  let fromRev := if fromRev < 1 then 1 else fromRev
  ⟨keyPrefix, fromRev, bufSize, [], if fromRev > currentRev then .synced else .unsynced⟩

/-- The ID is added to the map of a group. -/
def Manager.addTo (m : Manager) (id : ℕ) : Group → Manager
  | .synced => { m with synced := m.synced.insert id () }
  | .unsynced => { m with unsynced := m.unsynced.insert id () }
  | .victim => { m with victim := m.victim.insert id () }

/-- `Watch`, with the ID of the new watcher. -/
def Manager.watch (m : Manager) (keyPrefix : Str) (fromRev bufSize : ℤ) : Manager × ℕ :=
  let id := m.nextWatcherID + 1
  let w := Watcher.new m.currentRev keyPrefix fromRev bufSize
  let m := { m with nextWatcherID := id, watchers := m.watchers.insert id w }
  (m.addTo id w.group, id)

def indexAtOrAfter (store : List Event) (rev : ℤ) : ℕ :=
  searchSlice store fun ev => ev.revision < rev

/-- What a replay comes to. -/
structure Replay where
  watcher : Watcher
  overflowed : Bool
  delivered : ℕ

/-- The inner loop of `Sync`, over the events from the first index on. -/
def replay : List Event → Watcher → ℕ → Replay
  | [], w, delivered => ⟨w, false, delivered⟩
  | ev :: evs, w, delivered =>
    if ¬ w.keyPrefix <+: ev.key then replay evs { w with nextRev := ev.revision + 1 } delivered
    else
      match w.trySend ev with
      | none => ⟨w, true, delivered⟩
      | some w => replay evs { w with nextRev := ev.revision + 1 } (delivered + 1)

/-- The group in which a replay leaves its watcher. -/
def Replay.group (r : Replay) (currentRev : ℤ) : Group :=
  if r.overflowed then .victim
  else if r.watcher.nextRev > currentRev then .synced
  else .unsynced

/-- The end of a round of `Sync`, where the watcher is filed in its new group. -/
def Manager.reclassify (m : Manager) (id : ℕ) (w : Watcher) (group : Group) : Manager :=
  let m := { m with
    watchers := m.watchers.insert id { w with group := group }
    unsynced := m.unsynced.erase id
    victim := m.victim.erase id }
  m.addTo id group

/-- The body of the loop in `Sync`. The store and the revision do not change in the loop. -/
def Manager.syncWatcher (store : List Event) (currentRev : ℤ) (s : Manager × ℕ) (id : ℕ) :
    Manager × ℕ :=
  match s.1.watchers.lookup id with
  | none => s
  | some w =>
    let r := replay (store.drop (indexAtOrAfter store w.nextRev)) w s.2
    (s.1.reclassify id r.watcher (r.group currentRev), r.delivered)

/-- `Sync`, with the number of events that it delivers. -/
def Manager.sync (m : Manager) : Manager × ℕ :=
  let ids := (m.unsynced.keys ++ m.victim.keys).mergeSort (· ≤ ·)
  ids.foldl (Manager.syncWatcher m.store m.currentRev) (m, 0)

/-- A consumer takes the next event from the channel of a watcher, if there is one. -/
def Manager.receive (m : Manager) (id : ℕ) : Manager × Option Event :=
  match m.watchers.lookup id with
  | none => (m, none)
  | some w =>
    match w.c with
    | [] => (m, none)
    | ev :: c => ({ m with watchers := m.watchers.insert id { w with c := c } }, some ev)

/-! ### What belongs to one watcher -/

/-- What the manager has under one ID. -/
@[ext] structure Entry where
  watcher : Option Watcher
  synced : Bool
  unsynced : Bool
  victim : Bool

/-- The entry in which the maps agree with the `group` field. -/
def Entry.of (w : Option Watcher) : Entry :=
  ⟨w, w.any (·.group = .synced), w.any (·.group = .unsynced), w.any (·.group = .victim)⟩

/-- What a round of `Put` does to a synced watcher. -/
def Watcher.offer (ev : Event) (w : Watcher) : Watcher :=
  if ¬ w.keyPrefix <+: ev.key then { w with nextRev := ev.revision + 1 }
  else
    match w.trySend ev with
    | none => { w with group := .unsynced }
    | some w => { w with nextRev := ev.revision + 1 }

/-- What a round of `Sync` does to a watcher. -/
def Watcher.catchUp (store : List Event) (currentRev : ℤ) (w : Watcher) : Watcher :=
  let r := replay (store.drop (indexAtOrAfter store w.nextRev)) w 0
  { r.watcher with group := r.group currentRev }

namespace Manager

variable {m : Manager} {id j : ℕ} {w : Watcher}

/-- What belongs to an ID. -/
def entry (m : Manager) (id : ℕ) : Entry :=
  ⟨m.watchers.lookup id, decide (id ∈ m.synced), decide (id ∈ m.unsynced), decide (id ∈ m.victim)⟩

/-- The maps agree with the `group` fields. -/
def Filed (m : Manager) : Prop := ∀ id, m.entry id = .of (m.watchers.lookup id)

theorem Filed.mem_members_iff (h : m.Filed) (hlookup : m.watchers.lookup id = some w)
    (group : Group) : id ∈ m.members group ↔ w.group = group := by
  have hid := h id
  simp only [entry, hlookup, Entry.of, Option.any_some, Entry.mk.injEq, decide_eq_decide,
    true_and] at hid
  obtain ⟨hsynced, hunsynced, hvictim⟩ := hid
  cases group with
  | synced => exact hsynced
  | unsynced => exact hunsynced
  | victim => exact hvictim

theorem Filed.lookup_of_mem (h : m.Filed) (group : Group) (hmem : id ∈ m.members group) :
    ∃ w, m.watchers.lookup id = some w ∧ w.group = group := by
  cases hlookup : m.watchers.lookup id with
  | some w => exact ⟨w, rfl, (h.mem_members_iff hlookup group).mp hmem⟩
  | none =>
    have hid := h id
    simp only [entry, hlookup, Entry.of, Option.any_none, Entry.mk.injEq, decide_eq_false_iff_not,
      true_and] at hid
    cases group with
    | synced => exact absurd hmem hid.1
    | unsynced => exact absurd hmem hid.2.1
    | victim => exact absurd hmem hid.2.2

theorem Filed.entry_eq (h : m.Filed) (hlookup : m.watchers.lookup id = some w) :
    m.entry id = .of (some w) := by
  rw [h id, hlookup]

theorem filed_of_entry {f : ℕ → Option Watcher} (h : ∀ id, m.entry id = .of (f id)) : m.Filed := by
  intro id
  have hlookup : m.watchers.lookup id = f id := congrArg Entry.watcher (h id)
  rw [h id, hlookup]

/-! ### Put -/

theorem entry_fanOut (ev : Event) (hentry : m.entry id = .of (some w)) (hsynced : w.group = .synced)
    (j : ℕ) : (m.fanOut ev id).entry j = if j = id then .of (some (w.offer ev)) else m.entry j := by
  have hlookup : m.watchers.lookup id = some w := congrArg Entry.watcher hentry
  simp only [entry, hlookup, Entry.of, Option.any_some, Entry.mk.injEq, hsynced] at hentry
  unfold fanOut Watcher.offer
  by_cases hkey : w.keyPrefix <+: ev.key
  · unfold Watcher.trySend
    by_cases hroom : (w.c.length : ℤ) < w.bufSize <;> by_cases hj : j = id <;>
      simp [hlookup, hkey, hroom, hj, entry, Entry.of, hsynced, hentry, AList.mem_erase,
        GoMap.lookup_insert_if]
  · by_cases hj : j = id <;>
      simp [hlookup, hkey, hj, entry, Entry.of, hsynced, hentry, GoMap.lookup_insert_if]

section

variable (h : m.Filed) (key value : Str) (tick : ℤ)

include h

theorem Filed.entry_put (id : ℕ) :
    (m.put key value tick).entry id = .of ((m.watchers.lookup id).map fun w =>
      if w.group = .synced then w.offer ⟨m.currentRev + 1, key, value, tick⟩ else w) := by
  have hkeys : ∀ k ∈ m.synced.keys, ∃ w, m.entry k = .of (some w) ∧ w.group = .synced := by
    intro k hk
    obtain ⟨w, hlookup, hgroup⟩ := h.lookup_of_mem .synced hk
    exact ⟨w, h.entry_eq hlookup, hgroup⟩
  let ev : Event := ⟨m.currentRev + 1, key, value, tick⟩
  have hloop := view_foldl entry (fanOut ev) (fun _ e => .of (e.watcher.map (Watcher.offer ev)))
    (P := fun e => ∃ w, e = .of (some w) ∧ w.group = .synced)
    (fun m k ⟨w, hentry, hgroup⟩ j => by rw [entry_fanOut ev hentry hgroup, hentry]; rfl)
    m.synced.keys_nodup (s := { m with currentRev := m.currentRev + 1, store := m.store ++ [ev] })
    hkeys id
  refine hloop.trans ?_
  have hentry : entry { m with currentRev := m.currentRev + 1, store := m.store ++ [ev] } id =
      .of (m.watchers.lookup id) := h id
  rw [hentry]
  cases hlookup : m.watchers.lookup id with
  | none => split <;> rfl
  | some w =>
    have hmem : id ∈ m.synced.keys ↔ w.group = .synced := h.mem_members_iff hlookup .synced
    by_cases hgroup : w.group = .synced
    · rw [if_pos (hmem.mpr hgroup)]
      simp [Entry.of, hgroup, ev]
    · rw [if_neg (mt hmem.mp hgroup)]
      simp [hgroup]

theorem Filed.put : (m.put key value tick).Filed :=
  filed_of_entry (h.entry_put key value tick)

theorem lookup_put (id : ℕ) :
    (m.put key value tick).watchers.lookup id = (m.watchers.lookup id).map fun w =>
      if w.group = .synced then w.offer ⟨m.currentRev + 1, key, value, tick⟩ else w :=
  congrArg Entry.watcher (h.entry_put key value tick id)

end

theorem put_frame (m : Manager) (key value : Str) (tick : ℤ) :
    (m.put key value tick).store = m.store ++ [⟨m.currentRev + 1, key, value, tick⟩] ∧
      (m.put key value tick).currentRev = m.currentRev + 1 ∧
      (m.put key value tick).nextWatcherID = m.nextWatcherID := by
  unfold put
  refine List.foldlRecOn _ _ (motive := fun m' : Manager => m'.store = _ ∧ m'.currentRev = _ ∧
    m'.nextWatcherID = _) ⟨rfl, rfl, rfl⟩ ?_
  intro m' h id _
  unfold fanOut
  split
  · exact h
  split
  · exact h
  · split <;> exact h

/-! ### Sync -/

theorem replay_delivered (evs : List Event) (w : Watcher) (n : ℕ) :
    (replay evs w n).watcher = (replay evs w 0).watcher ∧
      (replay evs w n).overflowed = (replay evs w 0).overflowed := by
  induction evs generalizing w n with
  | nil => exact ⟨rfl, rfl⟩
  | cons ev evs ih =>
    unfold replay
    split
    · exact ih _ n
    split
    · exact ⟨rfl, rfl⟩
    · next w' _ =>
      have h1 := ih { w' with nextRev := ev.revision + 1 } (n + 1)
      have h2 := ih { w' with nextRev := ev.revision + 1 } (0 + 1)
      exact ⟨h1.1.trans h2.1.symm, h1.2.trans h2.2.symm⟩

theorem entry_reclassify (hentry : m.entry id = .of (some w)) (hbehind : w.group ≠ .synced)
    (w' : Watcher) (group : Group) (j : ℕ) : (m.reclassify id w' group).entry j =
      if j = id then .of (some { w' with group := group }) else m.entry j := by
  have hsynced : decide (id ∈ m.synced) = false := by
    have hold : decide (id ∈ m.synced) = decide (w.group = .synced) := congrArg Entry.synced hentry
    rw [hold, decide_eq_false hbehind]
  by_cases hj : j = id <;> cases group <;>
    simp_all [reclassify, addTo, entry, Entry.of, AList.mem_erase, GoMap.lookup_insert_if] <;> rfl

theorem addTo_frame (m : Manager) (id : ℕ) (group : Group) :
    (m.addTo id group).store = m.store ∧ (m.addTo id group).currentRev = m.currentRev ∧
      (m.addTo id group).nextWatcherID = m.nextWatcherID := by
  cases group <;> exact ⟨rfl, rfl, rfl⟩

theorem entry_syncWatcher (store : List Event) (currentRev : ℤ) {s : Manager × ℕ}
    (hentry : s.1.entry id = .of (some w)) (hbehind : w.group ≠ .synced) (j : ℕ) :
    (syncWatcher store currentRev s id).1.entry j =
      if j = id then .of (some (w.catchUp store currentRev)) else s.1.entry j := by
  have hlookup : s.1.watchers.lookup id = some w := congrArg Entry.watcher hentry
  obtain ⟨hwatcher, hoverflowed⟩ :=
    replay_delivered (store.drop (indexAtOrAfter store w.nextRev)) w s.2
  unfold syncWatcher Watcher.catchUp
  simp only [hlookup, hwatcher, Replay.group, hoverflowed]
  exact entry_reclassify hentry hbehind _ _ j

theorem Filed.nodup_ids (h : m.Filed) : (m.unsynced.keys ++ m.victim.keys).Nodup := by
  refine List.nodup_append.mpr ⟨m.unsynced.keys_nodup, m.victim.keys_nodup, ?_⟩
  rintro id hunsynced _ hvictim rfl
  obtain ⟨w, hlookup, hgroup⟩ := h.lookup_of_mem .unsynced hunsynced
  have hother := (h.mem_members_iff hlookup .victim).mp hvictim
  rw [hgroup] at hother
  cases hother

theorem Filed.entry_sync (h : m.Filed) (id : ℕ) :
    m.sync.1.entry id = .of ((m.watchers.lookup id).map fun w =>
      if w.group = .synced then w else w.catchUp m.store m.currentRev) := by
  let ids := (m.unsynced.keys ++ m.victim.keys).mergeSort (· ≤ ·)
  have hperm : ids.Perm (m.unsynced.keys ++ m.victim.keys) := List.mergeSort_perm _ _
  have hmem : ∀ k, k ∈ ids ↔ k ∈ m.unsynced ∨ k ∈ m.victim := fun k => by
    rw [hperm.mem_iff, List.mem_append]
    rfl
  have hkeys : ∀ k ∈ ids, ∃ w, m.entry k = .of (some w) ∧ w.group ≠ .synced := by
    intro k hk
    rcases (hmem k).mp hk with hk | hk
    · obtain ⟨w, hlookup, hgroup⟩ := h.lookup_of_mem .unsynced hk
      exact ⟨w, h.entry_eq hlookup, by simp [hgroup]⟩
    · obtain ⟨w, hlookup, hgroup⟩ := h.lookup_of_mem .victim hk
      exact ⟨w, h.entry_eq hlookup, by simp [hgroup]⟩
  have hloop := view_foldl (fun s : Manager × ℕ => s.1.entry) (syncWatcher m.store m.currentRev)
    (fun _ e => .of (e.watcher.map (Watcher.catchUp m.store m.currentRev)))
    (P := fun e => ∃ w, e = .of (some w) ∧ w.group ≠ .synced)
    (fun s k ⟨w, hentry, hgroup⟩ j => by
      rw [entry_syncWatcher m.store m.currentRev hentry hgroup, hentry]
      rfl)
    (hperm.nodup_iff.mpr h.nodup_ids) (s := (m, 0)) hkeys id
  refine hloop.trans ?_
  rw [show Manager.entry (m, 0).1 id = .of (m.watchers.lookup id) from h id]
  cases hlookup : m.watchers.lookup id with
  | none => split <;> rfl
  | some w =>
    have hserved : id ∈ ids ↔ w.group ≠ .synced := by
      have hunsynced := h.mem_members_iff hlookup .unsynced
      have hvictim := h.mem_members_iff hlookup .victim
      rw [hmem]
      show id ∈ m.members .unsynced ∨ id ∈ m.members .victim ↔ _
      rw [hunsynced, hvictim]
      cases w.group <;> simp
    by_cases hgroup : w.group = .synced
    · rw [if_neg (mt hserved.mp (not_not.mpr hgroup))]
      simp [hgroup]
    · rw [if_pos (hserved.mpr hgroup)]
      simp [Entry.of, hgroup]

theorem Filed.sync (h : m.Filed) : m.sync.1.Filed := filed_of_entry h.entry_sync

theorem lookup_sync (h : m.Filed) (id : ℕ) :
    m.sync.1.watchers.lookup id = (m.watchers.lookup id).map fun w =>
      if w.group = .synced then w else w.catchUp m.store m.currentRev :=
  congrArg Entry.watcher (h.entry_sync id)

theorem sync_frame (m : Manager) : m.sync.1.store = m.store ∧ m.sync.1.currentRev = m.currentRev ∧
      m.sync.1.nextWatcherID = m.nextWatcherID := by
  unfold Manager.sync
  refine List.foldlRecOn _ _ (motive := fun s : Manager × ℕ => s.1.store = _ ∧ s.1.currentRev = _ ∧
    s.1.nextWatcherID = _) ⟨rfl, rfl, rfl⟩ ?_
  intro s h id _
  unfold syncWatcher
  split
  · exact h
  · exact ⟨(addTo_frame ..).1.trans h.1, (addTo_frame ..).2.1.trans h.2.1,
      (addTo_frame ..).2.2.trans h.2.2⟩

/-! ### Watch and receive -/

section

variable (h : m.Filed) (hfresh : m.watchers.lookup (m.nextWatcherID + 1) = none) (keyPrefix : Str) (fromRev bufSize : ℤ)

include h hfresh

theorem entry_watch (j : ℕ) : (m.watch keyPrefix fromRev bufSize).1.entry j =
      if j = m.nextWatcherID + 1 then .of (some (.new m.currentRev keyPrefix fromRev bufSize))
      else m.entry j := by
  have hnew := h (m.nextWatcherID + 1)
  simp only [entry, hfresh, Entry.of, Option.any_none, Entry.mk.injEq, decide_eq_false_iff_not,
    true_and] at hnew
  unfold Manager.watch
  generalize Watcher.new m.currentRev keyPrefix fromRev bufSize = w
  by_cases hj : j = m.nextWatcherID + 1 <;> cases hgroup : w.group <;>
    simp [addTo, entry, Entry.of, GoMap.lookup_insert_if, hj, hgroup, hnew]

theorem Filed.watch : (m.watch keyPrefix fromRev bufSize).1.Filed := by
  refine filed_of_entry (f := fun j => if j = m.nextWatcherID + 1 then
    some (.new m.currentRev keyPrefix fromRev bufSize) else m.watchers.lookup j) fun j => ?_
  rw [entry_watch h hfresh]
  split
  · rfl
  · exact h j

theorem lookup_watch (j : ℕ) : (m.watch keyPrefix fromRev bufSize).1.watchers.lookup j =
      if j = m.nextWatcherID + 1 then some (.new m.currentRev keyPrefix fromRev bufSize)
      else m.watchers.lookup j := by
  have hentry := congrArg Entry.watcher (entry_watch h hfresh keyPrefix fromRev bufSize j)
  rw [apply_ite Entry.watcher] at hentry
  exact hentry

end

theorem watch_frame (m : Manager) (keyPrefix : Str) (fromRev bufSize : ℤ) :
    (m.watch keyPrefix fromRev bufSize).1.store = m.store ∧
      (m.watch keyPrefix fromRev bufSize).1.currentRev = m.currentRev ∧
      (m.watch keyPrefix fromRev bufSize).1.nextWatcherID = m.nextWatcherID + 1 :=
  addTo_frame _ (m.nextWatcherID + 1) (Watcher.new m.currentRev keyPrefix fromRev bufSize).group

theorem Filed.receive (h : m.Filed) (id : ℕ) : (m.receive id).1.Filed := by
  intro j
  have hold := h j
  unfold Manager.receive
  split
  · exact hold
  split
  · exact hold
  · next w hlookup _ _ _ _ =>
    rcases eq_or_ne j id with rfl | hj
    · simp_all [entry, Entry.of]
    · simpa [entry, Entry.of, GoMap.lookup_insert_if, hj] using hold

end Manager

end HelixCluster.WatchManager
