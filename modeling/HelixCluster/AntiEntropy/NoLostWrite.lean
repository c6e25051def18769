import HelixCluster.AntiEntropy.Coordinator

/-!
# No write is lost by the coordinator

For every replica and key, what the replica stores joined with what is pending in its hints is the
latest value written to the key (`Complete`, `no_write_lost`).
-/

namespace HelixCluster.AntiEntropy

open List

/-- A call on the coordinator or on one of its replicas. -/
inductive Call where
  | write (key value : Str) (version : UInt64)
  | read (key : Str)
  | setUp (i : ℕ) (up : Bool)
  | replayHints (i : ℕ)

/-- What a call writes. -/
def Call.written : Call → List (Str × VersionedValue)
  | .write key value version => [(key, ⟨value, version⟩)]
  | .read _ => []
  | .setUp _ _ => []
  | .replayHints _ => []

/-- Everything a run writes. -/
def writes (calls : List Call) : List (Str × VersionedValue) := calls.flatMap Call.written

namespace Coordinator

/-- The coordinator after a call. -/
def perform (c : Coordinator) : Call → Coordinator
  | .write key value version => (c.write key value version).1
  | .read key => (c.read key).1
  | .setUp i up => c.setUp i up
  | .replayHints i => (c.replayHints i).1

/-- The coordinator after a sequence of calls. -/
def run (c : Coordinator) (calls : List Call) : Coordinator := calls.foldl perform c

/-- Every replica stores or has pending the latest value written to each key. -/
structure Complete (ids : List Str) (log : List (Str × VersionedValue))
    (c : Coordinator) : Prop where
  ids_eq : c.replicas.map Replica.id = ids
  join : ∀ r ∈ c.replicas, ∀ key, max (r.stored key) (c.pending r.id key) = latest log key

variable {ids : List Str} {log : List (Str × VersionedValue)} {c : Coordinator}

namespace Complete

section

variable (hids : ids.Nodup) (h : Complete ids log c)

include hids h

theorem write (key value : Str) (version : UInt64) :
    Complete ids (log ++ [(key, ⟨value, version⟩)]) (c.write key value version).1 := by
  have hreplicas : (c.write key value version).1.replicas =
      c.replicas.map (Replica.take key ⟨value, version⟩) :=
    writeLoop_replicas key _ c.replicas c.hints
  constructor
  · rw [hreplicas, Replica.map_id_take, h.ids_eq]
  intro r' hr' k
  rw [hreplicas] at hr'
  obtain ⟨r, hr, rfl⟩ := mem_map.mp hr'
  have hread : (c.write key value version).1.hints.read r.id [] =
      if r.up then c.hints.read r.id [] else c.hints.read r.id [] ++ [⟨key, ⟨value, version⟩⟩] :=
    writeLoop_hints key _ (h.ids_eq ▸ hids) hr c.hints
  rw [latest_append, ← h.join r hr k, pending, r.take_id, r.take_stored, hread]
  split
  · exact max_right_comm _ _ _
  · rw [map_append, latest_append, max_assoc]
    rfl

omit hids in
theorem read (key : Str) : Complete ids log (c.read key).1 := by
  unfold Coordinator.read
  split
  · exact h
  · next best hbest =>
    have hle : (best : WithBot VersionedValue) ≤ latest log key := by
      rw [← known_some, ← hbest]
      exact known_foldl_pickNewer_le bot_le fun r hr => (le_max_left _ _).trans_eq (h.join r hr key)
    have hoffer (k : Str) : latest [(key, best)] k ≤ latest log k := by
      rw [latest_singleton]
      split
      · next hk => exact hk ▸ hle
      · exact bot_le
    constructor
    · show (repairLoop key best c.replicas).1.map Replica.id = ids
      rw [repairLoop_replicas, Replica.map_id_take, h.ids_eq]
    intro r' hr' k
    have hr' : r' ∈ (repairLoop key best c.replicas).1 := hr'
    rw [repairLoop_replicas] at hr'
    obtain ⟨r, hr, rfl⟩ := mem_map.mp hr'
    show max ((r.take key best).stored k) (c.pending (r.take key best).id k) = _
    rw [r.take_id, r.take_stored]
    split
    · rw [max_right_comm, h.join r hr k]
      exact max_eq_left (hoffer k)
    · exact h.join r hr k

omit hids in
theorem setUp (i : ℕ) (up : Bool) : Complete ids log (c.setUp i up) := by
  have hposition (j : ℕ) : (c.setUp i up).replicas[j]? =
      c.replicas[j]?.map fun r => if i = j then r.setUp up else r :=
    List.getElem?_modify _ i c.replicas j
  constructor
  · rw [← h.ids_eq]
    refine ext_getElem? fun j => ?_
    rw [List.getElem?_map, hposition, List.getElem?_map, Option.map_map]
    congr 1
    funext r
    by_cases hj : i = j <;> simp [hj, Replica.setUp]
  intro r' hr' k
  obtain ⟨j, hj⟩ := mem_iff_getElem?.mp hr'
  rw [hposition] at hj
  obtain ⟨r, hr, rfl⟩ := Option.map_eq_some_iff.mp hj
  have hjoin := h.join r (mem_of_getElem? hr) k
  split <;> exact hjoin

theorem id_ne_of_position_ne {i j : ℕ} {r s : Replica}
    (hr : c.replicas[i]? = some r) (hs : c.replicas[j]? = some s) (hij : i ≠ j) : s.id ≠ r.id := by
  intro heq
  have hi : (c.replicas.map Replica.id)[i]? = some r.id := by
    rw [List.getElem?_map, hr, Option.map_some]
  have hj : (c.replicas.map Replica.id)[j]? = some r.id := by
    rw [List.getElem?_map, hs, Option.map_some, heq]
  rw [h.ids_eq] at hi hj
  exact hij ((List.getElem?_inj (List.getElem?_eq_some_iff.mp hi).1 hids).mp (hi.trans hj.symm))

theorem replayHints (i : ℕ) : Complete ids log (c.replayHints i).1 := by
  unfold Coordinator.replayHints
  split
  · exact h
  · next r hr =>
    split
    · exact h
    obtain ⟨hi, hget⟩ := List.getElem?_eq_some_iff.mp hr
    constructor
    · show (c.replicas.set i (deliver r (c.hints.read r.id []))).map Replica.id = ids
      rw [map_set, deliver_id, ← hget, ← getElem_map Replica.id, set_getElem_self]
      · exact h.ids_eq
      · rwa [length_map]
    intro r' hr' k
    have hr' : r' ∈ c.replicas.set i (deliver r (c.hints.read r.id [])) := hr'
    obtain ⟨j, hj⟩ := mem_iff_getElem?.mp hr'
    show max (r'.stored k)
      (latest ((GoMap.read (c.hints.erase r.id) r'.id []).map Hint.entry) k) = _
    rw [List.getElem?_set] at hj
    rw [GoMap.read_erase_if]
    split_ifs at hj with hij
    · cases hj
      rw [deliver_id, if_pos rfl, deliver_stored, map_nil, latest_nil, max_bot_right]
      exact h.join r (mem_of_getElem? hr) k
    · rw [if_neg (id_ne_of_position_ne hids h hr hj hij)]
      exact h.join r' (mem_of_getElem? hj) k

theorem perform (call : Call) : Complete ids (log ++ call.written) (c.perform call) := by
  cases call with
  | write key value version => exact write hids h key value version
  | read key => exact (append_nil log).symm ▸ h.read key
  | setUp i up => exact (append_nil log).symm ▸ h.setUp i up
  | replayHints i => exact (append_nil log).symm ▸ replayHints hids h i

theorem run (calls : List Call) : Complete ids (log ++ writes calls) (c.run calls) := by
  induction calls generalizing log c with
  | nil => simpa [writes, Coordinator.run] using h
  | cons call calls ih =>
    have hrest := ih (perform hids h call)
    rwa [append_assoc] at hrest

end

end Complete

theorem complete_newCoordinator (ids : List Str) :
    Complete ids [] (newCoordinator (ids.map newReplica)) where
  ids_eq := by
    change (ids.map newReplica).map Replica.id = ids
    rw [map_map]
    exact map_id ids
  join r hr key := by
    obtain ⟨id, _, rfl⟩ := mem_map.mp hr
    rfl

theorem newest_read {key : Str} {vv : WithBot VersionedValue} {r : Replica}
    (hr : r ∈ c.replicas) (h : ∀ r ∈ c.replicas, r.up = true ∧ r.stored key = vv) :
    (c.read key).2.newest = vv := by
  have hbest : known (c.replicas.foldl (pickNewer key) none) = vv := by
    refine le_antisymm ?_ ?_
    · exact known_foldl_pickNewer_le bot_le fun r hr => (h r hr).2.le
    · rw [← (h r hr).2]
      exact (known_le_foldl_pickNewer key c.replicas none).2 r hr (h r hr).1
  unfold read
  rw [← hbest]
  split
  · next hnone =>
    rw [hnone]
    rfl
  · next best hsome =>
    rw [hsome]
    rfl

end Coordinator

/-- The coordinator over empty replicas after a run. -/
def after (ids : List Str) (calls : List Call) : Coordinator :=
  (newCoordinator (ids.map newReplica)).run calls

/-- **No write is lost.** What a replica stores, joined with what is pending for it, is the latest.
Where nothing is pending and all are up, a read returns it, or nothing if there is no replica. -/
theorem no_write_lost {ids : List Str} (hids : ids.Nodup) (calls : List Call) :
    (∀ r ∈ (after ids calls).replicas, ∀ key,
        max (r.stored key) ((after ids calls).pending r.id key) = latest (writes calls) key) ∧
      ((∀ r ∈ (after ids calls).replicas, r.up = true ∧ (after ids calls).pendingHints r.id = 0) →
        (∀ r ∈ (after ids calls).replicas, ∀ key, r.stored key = latest (writes calls) key) ∧
          ∀ key, ((after ids calls).read key).2.newest =
            if ids = [] then ⊥ else latest (writes calls) key) := by
  have hcomplete : (after ids calls).Complete ids (writes calls) :=
    .run hids (Coordinator.complete_newCoordinator ids) calls
  generalize after ids calls = c at *
  refine ⟨hcomplete.join, fun hsettled => ?_⟩
  have hstored : ∀ r ∈ c.replicas, ∀ key, r.stored key = latest (writes calls) key := by
    intro r hr key
    have hnone : c.hints.read r.id [] = [] := eq_nil_of_length_eq_zero (hsettled r hr).2
    rw [← hcomplete.join r hr key, Coordinator.pending, hnone, map_nil, latest_nil, max_bot_right]
  refine ⟨hstored, fun key => ?_⟩
  split_ifs with hnone
  · have hempty : c.replicas = [] := map_eq_nil_iff.mp (hcomplete.ids_eq.trans hnone)
    simp only [Coordinator.read, hempty]
    rfl
  · have hnonempty : c.replicas ≠ [] := fun h => hnone (hcomplete.ids_eq ▸ by rw [h]; rfl)
    obtain ⟨r, hr⟩ := exists_mem_of_ne_nil c.replicas hnonempty
    exact Coordinator.newest_read hr fun r hr => ⟨(hsettled r hr).1, hstored r hr key⟩

/-- The second replica misses two writes, is repaired by a read, and then takes the older hint. -/
def missedWrites : List Call :=
  [.setUp 1 false, .write [107] [120] 1, .write [107] [121] 1, .setUp 1 true, .read [107],
    .replayHints 1]

/-- Both replicas end with the larger value, and a read returns it. -/
theorem missedWrites_catch_up : (∀ r ∈ (after [[97], [98]] missedWrites).replicas,
        r.stored [107] = latest (writes missedWrites) [107]) ∧
      ((after [[97], [98]] missedWrites).read [107]).2.newest =
        ((⟨[121], 1⟩ : VersionedValue) : WithBot VersionedValue) := by
  have hids : ([[97], [98]] : List Str).Nodup := by decide
  obtain ⟨_, hsettled⟩ := no_write_lost hids missedWrites
  obtain ⟨hstored, hread⟩ := hsettled (by decide)
  exact ⟨fun r hr => hstored r hr [107], (hread [107]).trans (by decide)⟩

/-- A replica that is up and has its hints replayed stores the latest write of every key. -/
theorem replayHints_catches_up {ids : List Str} (hids : ids.Nodup) (calls : List Call) {i : ℕ}
    {r : Replica} (hr : (after ids calls).replicas[i]? = some r) (hup : r.up = true) :
    ∃ r', (after ids (calls ++ [.replayHints i])).replicas[i]? = some r' ∧
      ∀ key, r'.stored key = latest (writes calls) key := by
  refine ⟨Coordinator.deliver r ((after ids calls).hints.read r.id []), ?_, fun key => ?_⟩
  · rw [after, Coordinator.run, foldl_concat]
    show ((after ids calls).replayHints i).1.replicas[i]? = _
    simp only [Coordinator.replayHints, hr, hup]
    exact List.getElem?_set_self (List.getElem?_eq_some_iff.mp hr).1
  · rw [Coordinator.deliver_stored]
    have hcomplete := Coordinator.Complete.run hids (Coordinator.complete_newCoordinator ids) calls
    exact hcomplete.join r (mem_of_getElem? hr) key

theorem missedWrites_replayed :
    ∃ r, (after [[97], [98]] (missedWrites.dropLast ++ [.replayHints 1])).replicas[1]? = some r ∧
      ∀ key, r.stored key = latest (writes missedWrites.dropLast) key :=
  replayHints_catches_up (by decide) _ rfl rfl

end HelixCluster.AntiEntropy
