import HelixCluster.Lib.GoMap
import HelixCluster.Lib.Order

/-!
# The heartbeat coalescer

The `Coalescer` and the `Receiver` of `pkg/heartbeatcoalescer`. Coalescing changes only the framing
of the heartbeats (`coalescing_changes_framing`), and a shard fails by the age of the last message
that carries it (`no_spurious_failure_iff`).
-/

namespace HelixCluster.HeartbeatCoalescer

open List

structure ShardHeartbeat where
  shardID : Str
  term : UInt64
  commitIndex : UInt64
  deriving DecidableEq

structure Message where
  destPeer : Str
  entries : List ShardHeartbeat

def Message.bytes (m : Message) : ℕ := 24 + m.entries.length * 18

/-- A registered shard. Its peers are sorted and distinct. -/
structure Shard where
  id : Str
  term : UInt64
  peers : List Str
  nodup : peers.Nodup

structure Coalescer where
  shards : List Shard
  commit : UInt64

structure TickResult where
  messages : List Message
  msgCount : ℕ
  byteCount : ℕ
  entryCount : ℕ

def newTickResult (msgs : List Message) : TickResult :=
  ⟨msgs, msgs.length, (msgs.map Message.bytes).sum, (msgs.map fun m => m.entries.length).sum⟩

namespace Coalescer

def register (c : Coalescer) (shardID : Str) (peers : List Str) : Coalescer :=
  { c with shards := c.shards ++ [{
      id := shardID
      term := 0
      peers := peers.dedup.insertionSort (· ≤ ·)
      nodup := (perm_insertionSort _ _).nodup_iff.mpr (nodup_dedup peers) }] }

/-- Both kinds of tick advance the commit index and all terms. -/
def advance (c : Coalescer) : Coalescer :=
  ⟨c.shards.map fun s => { s with term := s.term + 1 }, c.commit + 1⟩

/-- The heartbeat of a shard. -/
def heartbeat (c : Coalescer) (s : Shard) : ShardHeartbeat := ⟨s.id, s.term, c.commit⟩

def tickUncoalesced (c : Coalescer) : Coalescer × TickResult :=
  let c := c.advance
  (c, newTickResult (c.shards.flatMap fun s => s.peers.map fun peer => ⟨peer, [c.heartbeat s]⟩))

/-- The body of the loop over the peers of a shard. -/
def append (hb : ShardHeartbeat) (byPeer : GoMap Str (List ShardHeartbeat)) (peer : Str) :
    GoMap Str (List ShardHeartbeat) :=
  byPeer.insert peer (byPeer.read peer [] ++ [hb])

/-- The loop over the shards. -/
def byPeer (c : Coalescer) : GoMap Str (List ShardHeartbeat) :=
  c.shards.foldl (fun m s => s.peers.foldl (append (c.heartbeat s)) m) ∅

def shardLess (a b : ShardHeartbeat) : Bool := a.shardID < b.shardID

def tickCoalesced (sorting : SortSlice shardLess) (c : Coalescer) : Coalescer × TickResult :=
  let c := c.advance
  (c, newTickResult (c.byPeer.sortedKeys.map fun peer => ⟨peer, sorting.sort (c.byPeer.read peer [])⟩))

end Coalescer

structure Receiver where
  lastSeen : GoMap Str UInt64
  failureWindow : UInt64

namespace Receiver

def newReceiver (failureWindow : UInt64) : Receiver := ⟨∅, failureWindow⟩

def deliver (r : Receiver) (tick : UInt64) (m : Message) : Receiver × ℕ :=
  ({ r with lastSeen := m.entries.foldl (fun seen e => seen.insert e.shardID tick) r.lastSeen },
    m.entries.length)

def deliverAll (r : Receiver) (tick : UInt64) : List Message → Receiver × ℕ
  | [] => (r, 0)
  | m :: msgs =>
    let rest := (r.deliver tick m).1.deliverAll tick msgs
    (rest.1, (r.deliver tick m).2 + rest.2)

def isFailed (r : Receiver) (shardID : Str) (now : UInt64) : Bool :=
  match r.lastSeen.lookup shardID with
  | none => true
  | some t => now - t > r.failureWindow

end Receiver

/-- The messages to a peer. -/
def sentTo (peer : Str) (msgs : List Message) : List Message := msgs.filter fun m => m.destPeer = peer

/-- The entries of messages. -/
def entriesOf (msgs : List Message) : List ShardHeartbeat := msgs.flatMap Message.entries

/-! ### The framing -/

variable {peer shardID : Str}

namespace Coalescer

/-- The heartbeats to a peer, in the order of the shards. -/
def beats (c : Coalescer) (peer : Str) (shards : List Shard) : List ShardHeartbeat :=
  (shards.filter fun s => peer ∈ s.peers).map c.heartbeat

theorem lookup_shardLoop (c : Coalescer) (shards : List Shard) (m : GoMap Str (List ShardHeartbeat)) :
    (shards.foldl (fun m s => s.peers.foldl (append (c.heartbeat s)) m) m).lookup peer =
      if c.beats peer shards = [] then m.lookup peer
      else some (m.read peer [] ++ c.beats peer shards) := by
  induction shards generalizing m with
  | nil => rfl
  | cons s shards ih =>
    have hpeers := view_foldl (P := fun _ => True) (fun m k => AList.lookup k m) (append (c.heartbeat s))
      (fun _ v => some (v.getD [] ++ [c.heartbeat s]))
      (fun m k _ j => GoMap.lookup_insert_if m k j _) s.nodup (s := m) (fun _ _ => trivial) peer
    rw [foldl_cons, ih, GoMap.read, hpeers]
    by_cases hmem : peer ∈ s.peers
    · have hbeats : c.beats peer (s :: shards) = c.heartbeat s :: c.beats peer shards := by
        simp [beats, hmem]
      rw [if_pos hmem, hbeats, if_neg (cons_ne_nil _ _), GoMap.read]
      split
      · next hnone => rw [hnone]
      · simp
    · have hbeats : c.beats peer (s :: shards) = c.beats peer shards := by simp [beats, hmem]
      rw [if_neg hmem, hbeats, GoMap.read]

theorem lookup_byPeer (c : Coalescer) (peer : Str) :
    c.byPeer.lookup peer = if c.beats peer c.shards = [] then none else some (c.beats peer c.shards) :=
  c.lookup_shardLoop c.shards ∅

theorem mem_byPeer {c : Coalescer} : peer ∈ c.byPeer ↔ ∃ s ∈ c.shards, peer ∈ s.peers := by
  rw [← AList.lookup_isSome, lookup_byPeer]
  split_ifs with hnone
  · simpa [beats] using hnone
  · simpa [beats] using hnone

theorem read_byPeer (c : Coalescer) (peer : Str) : c.byPeer.read peer [] = c.beats peer c.shards := by
  rw [GoMap.read, lookup_byPeer]
  split
  · next hnone => exact hnone.symm
  · rfl

theorem entriesOf_map {peers : List Str} (h : peers.Nodup) (f : Str → List ShardHeartbeat) :
    entriesOf (sentTo peer (peers.map fun p => ⟨p, f p⟩)) = if peer ∈ peers then f peer else [] := by
  simp only [sentTo, entriesOf, filter_map, Function.comp_def, filter_eq, h.count]
  split <;> simp

theorem entriesOf_uncoalesced (c : Coalescer) (shards : List Shard) :
    entriesOf (sentTo peer (shards.flatMap fun s => s.peers.map fun p => ⟨p, [c.heartbeat s]⟩)) =
      c.beats peer shards := by
  induction shards with
  | nil => rfl
  | cons s shards ih =>
    rw [flatMap_cons, sentTo, filter_append, entriesOf, flatMap_append]
    refine (congrArg₂ (· ++ ·) (entriesOf_map s.nodup fun _ => [c.heartbeat s]) ih).trans ?_
    by_cases hmem : peer ∈ s.peers <;> simp [beats, hmem]

theorem nodup_sortedKeys (m : GoMap Str (List ShardHeartbeat)) : m.sortedKeys.Nodup :=
  (perm_insertionSort _ _).nodup_iff.mpr m.keys_nodup

theorem entriesOf_coalesced (sorting : SortSlice shardLess) (c : Coalescer) :
    (entriesOf (sentTo peer
        (c.byPeer.sortedKeys.map fun p => ⟨p, sorting.sort (c.byPeer.read p [])⟩))).Perm
      (c.beats peer c.shards) := by
  rw [entriesOf_map (nodup_sortedKeys _), ← read_byPeer]
  split_ifs with hnone
  · exact sorting.perm _
  · rw [GoMap.mem_sortedKeys] at hnone
    rw [GoMap.read, AList.lookup_eq_none.mpr hnone, Option.getD_none]

end Coalescer

/-! ### The receiver -/

/-- The message carries the shard. -/
def Message.Carries (shardID : Str) (m : Message) : Prop := shardID ∈ m.entries.map ShardHeartbeat.shardID

instance (m : Message) : Decidable (m.Carries shardID) := inferInstanceAs (Decidable (_ ∈ _))

namespace Receiver

theorem lookup_deliver (r : Receiver) (tick : UInt64) (m : Message) :
    (r.deliver tick m).1.lastSeen.lookup shardID =
      if m.Carries shardID then some tick else r.lastSeen.lookup shardID := by
  have hloop : ∀ (entries : List ShardHeartbeat) (seen : GoMap Str UInt64),
      (entries.foldl (fun seen e => seen.insert e.shardID tick) seen).lookup shardID =
        if shardID ∈ entries.map ShardHeartbeat.shardID then some tick else seen.lookup shardID := by
    intro entries
    induction entries with
    | nil => exact fun _ => rfl
    | cons e entries ih =>
      intro seen
      rw [foldl_cons, ih, GoMap.lookup_insert_if]
      by_cases hmem : shardID ∈ entries.map ShardHeartbeat.shardID <;> simp [hmem]
  exact hloop m.entries r.lastSeen

theorem lookup_deliverAll (r : Receiver) (tick : UInt64) (msgs : List Message) :
    (r.deliverAll tick msgs).1.lastSeen.lookup shardID =
      if shardID ∈ (entriesOf msgs).map ShardHeartbeat.shardID then some tick
      else r.lastSeen.lookup shardID := by
  induction msgs generalizing r with
  | nil => rfl
  | cons m msgs ih =>
    have hsplit : shardID ∈ (entriesOf (m :: msgs)).map ShardHeartbeat.shardID ↔
        m.Carries shardID ∨ shardID ∈ (entriesOf msgs).map ShardHeartbeat.shardID := by
      rw [entriesOf, flatMap_cons, map_append, mem_append]
      rfl
    rw [deliverAll, ih, lookup_deliver]
    simp only [hsplit]
    by_cases hmem : shardID ∈ (entriesOf msgs).map ShardHeartbeat.shardID <;> simp [hmem]

/-- The deliveries that carry a shard. -/
def carrying (shardID : Str) (deliveries : List (UInt64 × Message)) : List (UInt64 × Message) :=
  deliveries.filter fun d => d.2.Carries shardID

/-- The receiver after deliveries. -/
def afterAll (window : UInt64) (deliveries : List (UInt64 × Message)) : Receiver :=
  deliveries.foldl (fun r d => (r.deliver d.1 d.2).1) (newReceiver window)

theorem lookup_afterAll (window : UInt64) (deliveries : List (UInt64 × Message)) :
    (afterAll window deliveries).lastSeen.lookup shardID =
        (carrying shardID deliveries).getLast?.map Prod.fst ∧
      (afterAll window deliveries).failureWindow = window := by
  induction deliveries using reverseRecOn with
  | nil => exact ⟨rfl, rfl⟩
  | append_singleton deliveries d ih =>
    rw [afterAll, foldl_append, foldl_cons, foldl_nil]
    refine ⟨?_, ih.2⟩
    rw [lookup_deliver, carrying, filter_append]
    by_cases hcarries : d.2.Carries shardID
    · simp [hcarries]
    · rw [if_neg hcarries, filter_cons_of_neg (by simpa using hcarries), filter_nil, append_nil]
      exact ih.1

end Receiver

open Coalescer Receiver

/-- **Coalescing changes only the framing.** -/
theorem coalescing_changes_framing (sorting : SortSlice shardLess) (c : Coalescer) :
    let batched := (c.tickCoalesced sorting).2.messages
    let single := c.tickUncoalesced.2.messages
    (c.tickCoalesced sorting).1 = c.tickUncoalesced.1 ∧
      (∀ peer, (entriesOf (sentTo peer batched)).Perm (entriesOf (sentTo peer single))) ∧
      (batched.map Message.destPeer).Pairwise (· < ·) ∧
      (∀ peer, peer ∈ batched.map Message.destPeer ↔ ∃ s ∈ c.shards, peer ∈ s.peers) ∧
      ∀ (peer : Str) (r : Receiver) (tick : UInt64) (shardID : Str),
        (r.deliverAll tick (sentTo peer batched)).1.lastSeen.lookup shardID =
          (r.deliverAll tick (sentTo peer single)).1.lastSeen.lookup shardID := by
  have hperm : ∀ peer, (entriesOf (sentTo peer (c.tickCoalesced sorting).2.messages)).Perm
      (entriesOf (sentTo peer c.tickUncoalesced.2.messages)) := by
    intro peer
    refine (c.advance.entriesOf_coalesced sorting).trans ?_
    rw [← entriesOf_uncoalesced]
    rfl
  have hpeers : (c.tickCoalesced sorting).2.messages.map Message.destPeer = c.advance.byPeer.sortedKeys := by
    simp [tickCoalesced, newTickResult, Function.comp_def]
  refine ⟨rfl, hperm, ?_, fun peer => ?_, fun peer r tick shardID => ?_⟩
  · rw [hpeers]
    exact ((pairwise_insertionSort (· ≤ ·) _).and (nodup_sortedKeys _)).imp fun h => lt_of_le_of_ne h.1 h.2
  · rw [hpeers, GoMap.mem_sortedKeys, mem_byPeer]
    simp [advance]
  · rw [lookup_deliverAll, lookup_deliverAll]
    simp only [((hperm peer).map ShardHeartbeat.shardID).mem_iff]

/-- **No spurious failure** if the last delivery that carries the shard is recent. The last writer
wins, and a tick ahead of `now` is left out. -/
theorem no_spurious_failure_iff {window now : UInt64} {shardID : Str}
    {deliveries : List (UInt64 × Message)} {d : UInt64 × Message}
    (hlast : (carrying shardID deliveries).getLast? = some d) (hnow : d.1 ≤ now) :
    (afterAll window deliveries).isFailed shardID now = false ↔
      now.toNat ≤ d.1.toNat + window.toNat := by
  obtain ⟨hseen, hwindow⟩ := @lookup_afterAll shardID window deliveries
  rw [hlast, Option.map_some] at hseen
  rw [isFailed, hseen, hwindow]
  have hage : (now - d.1).toNat = now.toNat - d.1.toNat := UInt64.toNat_sub_of_le now d.1 hnow
  rw [UInt64.le_iff_toNat_le] at hnow
  simp only [gt_iff_lt, decide_eq_false_iff_not, UInt64.lt_iff_toNat_lt, hage]
  omega

/-- A late message of tick eight comes after the one of tick nine. -/
theorem late_in_window :
    let beat : Message := ⟨[112], [⟨[115], 1, 1⟩]⟩
    (afterAll 3 [(9, beat), (8, beat), (10, ⟨[112], []⟩)]).isFailed [115] 10 = false :=
  (no_spurious_failure_iff (d := (8, ⟨[112], [⟨[115], 1, 1⟩]⟩)) rfl (by decide)).mpr (by decide)

/-- With a window of three, the shard fails at ten after ticks nine and one. -/
theorem late_heartbeat_fails :
    let beat : Message := ⟨[112], [⟨[115], 1, 1⟩]⟩
    (∃ d ∈ carrying [115] [(9, beat), (1, beat)], 10 ≤ d.1.toNat + 3) ∧
      (afterAll 3 [(9, beat), (1, beat)]).isFailed [115] 10 = true := by
  decide +kernel

end HelixCluster.HeartbeatCoalescer
