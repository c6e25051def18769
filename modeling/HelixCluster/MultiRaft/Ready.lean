import HelixCluster.Lib.GoMap
import HelixCluster.Lib.Order

/-!
# The Ready loop

`processReadyLockedErr` of `pkg/multiraft/multiraft.go` with `deliver` and `deliverPending`.
-/

namespace HelixCluster.MultiRaft

/-! ### The raft engine -/

structure HardState where
  term : UInt64
  vote : UInt64
  commit : UInt64
  deriving DecidableEq

inductive EntryType where
  | normal
  | confChange
  | confChangeV2
  deriving DecidableEq

structure Entry where
  type : EntryType
  index : UInt64
  term : UInt64
  data : Str
  deriving DecidableEq

/-- `pb.Message`, with all that the loop does not read in `body`. -/
structure Message where
  toID : UInt64
  fromID : UInt64
  body : Str
  deriving DecidableEq

structure Ready where
  hardState : HardState
  entries : List Entry
  messages : List Message
  committedEntries : List Entry
  deriving DecidableEq

/-- `raft.RawNode` and `shardPersister`, which share their state, and `raft.IsEmptyHardState`. -/
structure Raft (σ κ : Type) where
  isEmptyHardState : HardState → Bool
  hasReady : σ → Bool
  ready : σ → Ready × σ
  setHardState : σ → HardState → σ × Option Str
  append : σ → List Entry → σ × Option Str
  step : σ → Message → σ
  unmarshal : EntryType → Str → Option κ
  applyConfChange : σ → κ → σ
  advance : σ → Ready → σ

/-! ### Nodes and shards -/

/-- `node`. A `hasPendingReady` that is false is `none`. -/
structure Node (σ : Type) where
  raw : σ
  committed : List Str
  applied : UInt64
  stopped : Bool
  pendingReady : Option Ready

/-- A call that the loop makes, with the error of the storage and with what `deliver` did with a
message. -/
inductive Call where
  | pulled (rd : Ready)
  | setHardState (st : HardState) (err : Option Str)
  | append (entries : List Entry) (err : Option Str)
  | queued (msg : Message)
  | stepped (msg : Message)
  | dropped (msg : Message)
  | applied (ent : Entry)
  | advanced (rd : Ready)
  deriving DecidableEq

/-- The errors, with the node. -/
inductive PersistError where
  | setHardState (id : UInt64) (err : Str)
  | append (id : UInt64) (err : Str)
  deriving DecidableEq

structure Shard (σ : Type) where
  nodes : GoMap UInt64 (Node σ)
  pending : List Message
  sent : List Message
  trace : List (UInt64 × Call)

variable {σ κ : Type}

namespace Node

/-- The batch to handle: the parked one, or else a new one if there is one. -/
def take (E : Raft σ κ) (n : Node σ) : Option (Ready × σ × List Call) :=
  match n.pendingReady with
  | some rd => some (rd, n.raw, [])
  | none =>
    if E.hasReady n.raw then
      let pulled := E.ready n.raw
      some (pulled.1, pulled.2, [.pulled pulled.1])
    else none

/-- The body of the loop over the committed entries. -/
def applyEntry (E : Raft σ κ) (n : Node σ) (ent : Entry) : Node σ :=
  let n := match ent.type with
    | .normal => if ent.data ≠ [] then { n with committed := n.committed ++ [ent.data] } else n
    | _ =>
      match E.unmarshal ent.type ent.data with
      | some cc => { n with raw := E.applyConfChange n.raw cc }
      | none => n
  if n.applied < ent.index then { n with applied := ent.index } else n

end Node

/-- What came of storing a batch. -/
structure Stored (σ : Type) where
  raw : σ
  calls : List Call
  err : Option PersistError

/-- The call of `SetHardState`. -/
def storeHardState (E : Raft σ κ) (id : UInt64) (raw : σ) (rd : Ready) : Stored σ :=
  if E.isEmptyHardState rd.hardState then ⟨raw, [], none⟩
  else
    let result := E.setHardState raw rd.hardState
    ⟨result.1, [.setHardState rd.hardState result.2], result.2.map (.setHardState id)⟩

/-- The call of `Append`. -/
def storeEntries (E : Raft σ κ) (id : UInt64) (raw : σ) (rd : Ready) : Stored σ :=
  if rd.entries = [] then ⟨raw, [], none⟩
  else
    let result := E.append raw rd.entries
    ⟨result.1, [.append rd.entries result.2], result.2.map (.append id)⟩

/-- Both calls, the second one only if the first did not fail. -/
def store (E : Raft σ κ) (id : UInt64) (raw : σ) (rd : Ready) : Stored σ :=
  let first := storeHardState E id raw rd
  if first.err = none then
    let second := storeEntries E id first.raw rd
    ⟨second.raw, first.calls ++ second.calls, second.err⟩
  else first

namespace Shard

def record (s : Shard σ) (id : UInt64) (calls : List Call) : Shard σ :=
  { s with trace := s.trace ++ calls.map (Prod.mk id) }

def setNode (s : Shard σ) (id : UInt64) (n : Node σ) : Shard σ :=
  { s with nodes := s.nodes.insert id n }

def modify (s : Shard σ) (id : UInt64) (f : Node σ → Node σ) : Shard σ :=
  match s.nodes.lookup id with
  | some n => s.setNode id (f n)
  | none => s

/-- `deliver`, called for a batch of node `id`. -/
def deliver (E : Raft σ κ) (id : UInt64) (s : Shard σ) (msg : Message) : Shard σ :=
  if msg.toID = msg.fromID then
    if (s.nodes.lookup msg.toID).any (!·.stopped) then
      (s.modify msg.toID fun dst => { dst with raw := E.step dst.raw msg }).record id [.stepped msg]
    else s.record id [.dropped msg]
  else { s with pending := s.pending ++ [msg] }.record id [.queued msg]

def deliverPending (s : Shard σ) : Shard σ := { s with pending := [], sent := s.sent ++ s.pending }

/-- What a batch does once it is stored. -/
def release (E : Raft σ κ) (s : Shard σ) (id : UInt64) (rd : Ready) : Shard σ :=
  let s := rd.messages.foldl (deliver E id) s
  let s := (s.modify id fun n => rd.committedEntries.foldl (Node.applyEntry E) n).record id
    (rd.committedEntries.map .applied)
  (s.modify id fun n => { n with raw := E.advance n.raw rd }).record id [.advanced rd]

end Shard

/-- What came of a visit of a node. -/
inductive Outcome where
  | skipped
  | failed (err : PersistError)
  | advanced
  deriving DecidableEq

namespace Shard

/-- The body of the loop over the nodes. -/
def visit (E : Raft σ κ) (s : Shard σ) (id : UInt64) : Shard σ × Outcome :=
  match s.nodes.lookup id with
  | none => (s, .skipped)
  | some n =>
    if n.stopped then (s, .skipped)
    else
      match n.take E with
      | none => (s, .skipped)
      | some (rd, raw, pulls) =>
        let stored := store E id raw rd
        let s := s.record id (pulls ++ stored.calls)
        match stored.err with
        | some err =>
          (s.setNode id { n with raw := stored.raw, pendingReady := some rd }, .failed err)
        | none =>
          ((s.setNode id { n with raw := stored.raw, pendingReady := none }).release E id rd,
            .advanced)

/-- The variables of the loop. -/
structure Pass (σ : Type) where
  shard : Shard σ
  did : Bool
  progressed : Bool
  firstErr : Option PersistError

/-- A visit and what the loop keeps of it. -/
def Pass.visit (E : Raft σ κ) (p : Pass σ) (id : UInt64) : Pass σ :=
  let result := p.shard.visit E id
  match result.2 with
  | .skipped => { p with shard := result.1 }
  | .failed err => { p with shard := result.1, firstErr := p.firstErr.or (some err) }
  | .advanced => { p with shard := result.1, did := true, progressed := true }

/-- One iteration of the outer loop. -/
def Pass.run (E : Raft σ κ) (p : Pass σ) (order : Shuffle UInt64) : Pass σ :=
  (order.run p.shard.nodes.keys).foldl (Pass.visit E) { p with did := false }

/-- The outer loop, once for each order. The second component says that it has ended. -/
def Pass.loop (E : Raft σ κ) (p : Pass σ) : List (Shuffle UInt64) → Pass σ × Bool
  | [] => (p, false)
  | order :: orders =>
    if (p.run E order).did then (p.run E order).loop E orders else (p.run E order, true)

def processReadyLockedErr (E : Raft σ κ) (s : Shard σ) (orders : List (Shuffle UInt64)) :
    Pass σ × Bool :=
  Pass.loop E ⟨s, false, false, none⟩ orders

end Shard

end HelixCluster.MultiRaft
