import HelixCluster.Lib.GoMap
import HelixCluster.Swim.Member

/-!
# The gossip protocol

The message handlers of `pkg/swim/protocol.go`, with the failure detector and the gossip buffer.
-/

namespace HelixCluster.Swim

open GoMap

inductive MessageType where
  | ping
  | pingReq
  | ack
  | suspect
  | alive
  | dead
  | join
  | leave
  deriving DecidableEq

structure Message where
  type : MessageType
  sourceID : Str
  targetID : Str
  incarnation : UInt32
  payload : List UInt8
  deriving DecidableEq

/-- The member a message is about, and the state it says the member has. -/
def Message.about (msg : Message) : Option (Str × MemberState) :=
  match msg.type with
  | .suspect => some (msg.targetID, .suspect)
  | .alive => some (msg.sourceID, .alive)
  | .dead => some (msg.targetID, .dead)
  | .leave => some (msg.sourceID, .left)
  | .ping => none
  | .pingReq => none
  | .ack => none
  | .join => none

/-! ## The gossip buffer -/

structure GossipEvent where
  memberID : Str
  state : MemberState
  incarnation : UInt32
  timestamp : ℤ
  deriving DecidableEq

structure GossipBuffer where
  events : List GossipEvent
  maxSize : ℕ
  maxSize_pos : 0 < maxSize

def newGossipBuffer (maxSize : ℤ) : GossipBuffer :=
  if h : maxSize ≤ 0 then ⟨[], 100, by decide⟩ else ⟨[], maxSize.toNat, by omega⟩

def GossipBuffer.add (gb : GossipBuffer) (event : GossipEvent) : GossipBuffer :=
  let kept := if gb.events.length ≥ gb.maxSize then gb.events.tail else gb.events
  { gb with events := kept ++ [event] }

/-! ## The failure detector -/

/-- `FailureDetector`: the incarnation of the record of each suspected member. -/
structure FailureDetector where
  suspects : GoMap Str UInt32

namespace FailureDetector

def suspect (fd : FailureDetector) (memberID : Str) (incarnation : UInt32) : FailureDetector :=
  match fd.suspects.lookup memberID with
  | some existing =>
    if incarnation > existing then ⟨fd.suspects.insert memberID incarnation⟩ else fd
  | none => ⟨fd.suspects.insert memberID incarnation⟩

/-- `Refute`. The callback of the protocol does nothing. -/
def refute (fd : FailureDetector) (memberID : Str) : FailureDetector :=
  ⟨fd.suspects.erase memberID⟩

def isSuspected (fd : FailureDetector) (memberID : Str) : Bool :=
  (fd.suspects.lookup memberID).isSome

theorem isSuspected_suspect (fd : FailureDetector) (memberID : Str) (incarnation : UInt32)
    (id : Str) : (fd.suspect memberID incarnation).isSuspected id =
      if id = memberID then true else fd.isSuspected id := by
  have hinsert : (FailureDetector.mk (fd.suspects.insert memberID incarnation)).isSuspected id =
      if id = memberID then true else fd.isSuspected id := by
    unfold isSuspected
    rw [lookup_insert_if]
    split <;> rfl
  unfold suspect
  split
  · next existing hexisting =>
    split
    · exact hinsert
    split
    · next h => rw [isSuspected, h, hexisting]; rfl
    · rfl
  · exact hinsert

theorem isSuspected_refute (fd : FailureDetector) (memberID id : Str) :
    (fd.refute memberID).isSuspected id = if id = memberID then false else fd.isSuspected id := by
  unfold refute isSuspected
  rw [lookup_erase_if]
  split <;> rfl

end FailureDetector

/-! ## The protocol -/

def bumpIncarnation (inc : UInt32) : UInt32 := if inc = 4294967295 then 4294967295 else inc + 1

/-- `Protocol`, with each member under its own identifier, the local node among them. -/
structure Protocol where
  localID : Str
  localAddr : Str
  members : GoMap Str Member
  incarnation : UInt32
  gossipBuffer : GossipBuffer
  fd : FailureDetector
  keyed : ∀ id m, members.lookup id = some m → m.id = id
  registered : (members.lookup localID).isSome = true

/-- The state of a new node, which knows only itself. -/
def Protocol.initial (localID localAddr : Str) : Protocol where
  localID
  localAddr
  members := AList.singleton localID ⟨localID, localAddr, .alive, 0⟩
  incarnation := 0
  gossipBuffer := newGossipBuffer 100
  fd := ⟨∅⟩
  keyed := by
    intro id m h
    rw [lookup_singleton_if] at h
    split at h
    · next heq => rw [← Option.some.inj h, heq]
    · cases h
  registered := by
    rw [lookup_singleton_if, if_pos rfl]
    rfl

/-- `NewProtocol`, on a transport that listens on an address. -/
def newProtocol (localID localAddr : Str) : Except String Protocol :=
  if localID = [] then .error "local_id is required" else .ok (.initial localID localAddr)

namespace Protocol

/-- The assignment `p.members[m.ID] = m`, or a change to the member that is stored there. -/
def put (p : Protocol) (m : Member) : Protocol where
  localID := p.localID
  localAddr := p.localAddr
  members := p.members.insert m.id m
  incarnation := p.incarnation
  gossipBuffer := p.gossipBuffer
  fd := p.fd
  keyed := by
    intro id m' h
    rw [lookup_insert_if] at h
    split at h
    · next heq => rw [← Option.some.inj h, heq]
    · exact p.keyed id m' h
  registered := by
    rw [lookup_insert_if]
    split
    · rfl
    · exact p.registered

/-- Add an event to the gossip buffer. -/
def gossiped (p : Protocol) (event : GossipEvent) : Protocol :=
  { p with gossipBuffer := p.gossipBuffer.add event }

def healthyMembers (p : Protocol) : List Member :=
  (p.members.entries.map Sigma.snd).filter Member.isHealthy

variable {A : Type} (resolve : Str → Option A)

/-- Send a message, if the address can be resolved. -/
def sendTo (msg : Message) (address : Str) : List (Message × A) :=
  ((resolve address).map fun a => (msg, a)).toList

/-- Send a message to the healthy members other than the local node and those to skip. -/
def sendHealthy (p : Protocol) (msg : Message) (skip : Str → Bool) : List (Message × A) :=
  p.healthyMembers.flatMap fun m =>
    if m.id = p.localID || skip m.id then [] else sendTo resolve msg m.address

/-- The `Alive` message of the local node. -/
def aliveMessage (p : Protocol) (incarnation : UInt32) : Message :=
  ⟨.alive, p.localID, [], incarnation, []⟩

def broadcastAlive (p : Protocol) (incarnation : UInt32) : List (Message × A) :=
  p.sendHealthy resolve (p.aliveMessage incarnation) fun _ => false

def handlePing (p : Protocol) (msg : Message) (addr : Str) : List (Message × A) :=
  let ack : Message := ⟨.ack, p.localID, msg.sourceID, p.incarnation, []⟩
  sendTo resolve ack addr ++
    if msg.payload.length > 0 then sendTo resolve ack msg.payload else []

def handlePingReq (p : Protocol) (msg : Message) (addr : Str) : List (Message × A) :=
  sendTo resolve ⟨.ping, p.localID, msg.targetID, 0, addr⟩ msg.payload

def handleAck (p : Protocol) (msg : Message) : Protocol :=
  let p :=
    match p.members.lookup msg.sourceID with
    | some m => p.put m.clearSuspect.1
    | none => p
  { p with fd := p.fd.refute msg.sourceID }

/-- The answer of `handleSuspect` and `handleDead` to what is said about the local node. -/
def refuteSelf (p : Protocol) : Protocol × List (Message × A) :=
  let inc := bumpIncarnation p.incarnation
  let p := { p with incarnation := inc }
  (p, p.broadcastAlive resolve inc)

def handleSuspect (p : Protocol) (msg : Message) (now : ℤ) : Protocol × List (Message × A) :=
  match p.members.lookup msg.targetID with
  | none => (p, [])
  | some m =>
    if msg.targetID = p.localID then p.refuteSelf resolve
    else
      let updated := m.updateState .suspect msg.incarnation
      let p := p.put updated.1
      let p := if updated.2 then p.gossiped ⟨msg.targetID, .suspect, msg.incarnation, now⟩ else p
      ({ p with fd := p.fd.suspect msg.targetID msg.incarnation }, [])

def handleAlive (p : Protocol) (msg : Message) (addr : Str) : Protocol :=
  let m := (p.members.lookup msg.sourceID).getD ⟨msg.sourceID, addr, .alive, 0⟩
  let updated := m.updateState .alive msg.incarnation
  let p := p.put updated.1
  if updated.2 then { p with fd := p.fd.refute msg.sourceID } else p

def handleDead (p : Protocol) (msg : Message) (now : ℤ) : Protocol × List (Message × A) :=
  if msg.targetID = p.localID then p.refuteSelf resolve
  else
    let p :=
      match p.members.lookup msg.targetID with
      | some m =>
        (p.put (m.updateState .dead msg.incarnation).1).gossiped
          ⟨msg.targetID, .dead, msg.incarnation, now⟩
      | none => p
    ({ p with fd := p.fd.refute msg.targetID }, [])

/-- `handleJoin`. The increment of the incarnation wraps around. -/
def handleJoin (p : Protocol) (msg : Message) (addr : Str) : Protocol × List (Message × A) :=
  let p :=
    match p.members.lookup msg.sourceID with
    | some existing =>
      p.put { existing with
        address := msg.payload
        state := .alive
        incarnation := existing.incarnation + 1 }
    | none => p.put ⟨msg.sourceID, msg.payload, .alive, 0⟩
  (p, sendTo resolve (p.aliveMessage p.incarnation) addr)

def handleLeave (p : Protocol) (msg : Message) (now : ℤ) : Protocol :=
  match p.members.lookup msg.sourceID with
  | some m =>
    (p.put (m.updateState .left msg.incarnation).1).gossiped
      ⟨msg.sourceID, .left, msg.incarnation, now⟩
  | none => p

def handleConfirm (p : Protocol) (memberID : Str) (now : ℤ) : Protocol :=
  match p.members.lookup memberID with
  | some m =>
    let inc := bumpIncarnation p.incarnation
    let p := { p with incarnation := inc }
    (p.put (m.updateState .dead inc).1).gossiped ⟨memberID, .dead, inc, now⟩
  | none => p

/-- `Confirm` of the failure detector, with `handleConfirm` as its callback. -/
def confirm (p : Protocol) (memberID : Str) (now : ℤ) : Protocol :=
  if p.fd.isSuspected memberID then
    { p with fd := ⟨p.fd.suspects.erase memberID⟩ }.handleConfirm memberID now
  else p

/-- The end of `probeRandomMember` when the member has not acknowledged the ping. -/
def probeFailed (p : Protocol) (targetID : Str) (now : ℤ) : Protocol × List (Message × A) :=
  match p.members.lookup targetID with
  | none => (p, [])
  | some target =>
    if targetID = p.localID then (p, [])
    else
      let inc := bumpIncarnation p.incarnation
      let p := { p with incarnation := inc, fd := p.fd.suspect targetID inc }
      let p := p.gossiped ⟨targetID, .suspect, inc, now⟩
      let msg : Message := ⟨.suspect, p.localID, targetID, inc, []⟩
      (p, sendTo resolve msg target.address ++ p.sendHealthy resolve msg (· = targetID))

/-- `Leave`, up to the end of the protocol. -/
def leave (p : Protocol) (now : ℤ) : Protocol × List (Message × A) :=
  let inc := bumpIncarnation p.incarnation
  let p := { p with incarnation := inc }
  let p := p.gossiped ⟨p.localID, .left, inc, now⟩
  (p, p.sendHealthy resolve ⟨.leave, p.localID, [], inc, []⟩ fun _ => false)

/-- The handler that is registered for the type of a message. -/
def handle (p : Protocol) (msg : Message) (addr : Str) (now : ℤ) :
    Protocol × List (Message × A) :=
  match msg.type with
  | .ping => (p, p.handlePing resolve msg addr)
  | .pingReq => (p, p.handlePingReq resolve msg addr)
  | .ack => (p.handleAck msg, [])
  | .suspect => p.handleSuspect resolve msg now
  | .alive => (p.handleAlive msg addr, [])
  | .dead => p.handleDead resolve msg now
  | .join => p.handleJoin resolve msg addr
  | .leave => (p.handleLeave msg now, [])

/-! ## What the handlers do to the member table -/

theorem lookup_put (p : Protocol) (m : Member) (id : Str) :
    (p.put m).members.lookup id = if id = m.id then some m else p.members.lookup id :=
  lookup_insert_if p.members m.id id m

variable {key : Str}

theorem lookup_put_of_lookup {p : Protocol} {m : Member} (h : p.members.lookup key = some m)
    (f : Member → Member) (hf : (f m).id = m.id) (id : Str) : (p.put (f m)).members.lookup id =
      if id = key then (p.members.lookup id).map f else p.members.lookup id := by
  rw [lookup_put, hf, p.keyed key m h]
  split
  · next heq => rw [heq, h, Option.map_some]
  · rfl

theorem lookup_put_updateState {p : Protocol} {m : Member} (h : p.members.lookup key = some m)
    (state : MemberState) (incarnation : UInt32) (id : Str) :
    (p.put (m.updateState state incarnation).1).members.lookup id =
      if id = key then (p.members.lookup id).map fun m => (m.updateState state incarnation).1
      else p.members.lookup id :=
  lookup_put_of_lookup h (fun m => (m.updateState state incarnation).1)
    (m.updateState_id state incarnation) id

theorem lookup_of_none {p : Protocol} (h : p.members.lookup key = none) (f : Member → Member)
    (id : Str) : p.members.lookup id =
      if id = key then (p.members.lookup id).map f else p.members.lookup id := by
  split
  · next heq => rw [heq, h, Option.map_none]
  · rfl

variable (p : Protocol) (msg : Message) (addr : Str) (now : ℤ) (id : Str)

theorem lookup_handleAck : (p.handleAck msg).members.lookup id =
      if id = msg.sourceID then (p.members.lookup id).map fun m => m.clearSuspect.1
      else p.members.lookup id := by
  unfold handleAck
  split
  · next m h => exact lookup_put_of_lookup h (fun m => m.clearSuspect.1) m.clearSuspect_id id
  · next h => exact lookup_of_none h _ id

theorem lookup_handleSuspect : (p.handleSuspect resolve msg now).1.members.lookup id =
      if id = msg.targetID ∧ id ≠ p.localID then
        (p.members.lookup id).map fun m => (m.updateState .suspect msg.incarnation).1
      else p.members.lookup id := by
  unfold handleSuspect
  split
  · next h =>
    split
    · next hid => rw [hid.1, h, Option.map_none]
    · rfl
  · next m h =>
    split
    · next hlocal => rw [if_neg fun hid => hid.2 (hid.1.trans hlocal)]; rfl
    · next hlocal =>
      have hput := lookup_put_updateState h .suspect msg.incarnation id
      have hcond : (id = msg.targetID ∧ id ≠ p.localID) ↔ id = msg.targetID :=
        ⟨And.left, fun hid => ⟨hid, hid ▸ hlocal⟩⟩
      simp only [hcond]
      rw [← hput]
      split <;> rfl

theorem lookup_handleAlive : (p.handleAlive msg addr).members.lookup id = if id = msg.sourceID then
        some (((p.members.lookup id).getD ⟨msg.sourceID, addr, .alive, 0⟩).updateState
          .alive msg.incarnation).1 else p.members.lookup id := by
  unfold handleAlive
  generalize hm : (p.members.lookup msg.sourceID).getD ⟨msg.sourceID, addr, .alive, 0⟩ = m
  have hid : m.id = msg.sourceID := by
    subst hm
    cases h : p.members.lookup msg.sourceID with
    | some m => exact p.keyed _ m h
    | none => rfl
  have hput : (p.put (m.updateState .alive msg.incarnation).1).members.lookup id =
      if id = msg.sourceID then
        some (((p.members.lookup id).getD ⟨msg.sourceID, addr, .alive, 0⟩).updateState
          .alive msg.incarnation).1
      else p.members.lookup id := by
    rw [lookup_put, m.updateState_id, hid]
    split
    · next heq => rw [heq, hm]
    · rfl
  rw [← hput]
  dsimp only
  split <;> rfl

theorem lookup_handleDead :
    (p.handleDead resolve msg now).1.members.lookup id = if id = msg.targetID ∧ id ≠ p.localID then
        (p.members.lookup id).map fun m => (m.updateState .dead msg.incarnation).1
      else p.members.lookup id := by
  unfold handleDead
  split
  · next hlocal => rw [if_neg fun hid => hid.2 (hid.1.trans hlocal)]; rfl
  · next hlocal =>
    have hcond : (id = msg.targetID ∧ id ≠ p.localID) ↔ id = msg.targetID :=
      ⟨And.left, fun hid => ⟨hid, hid ▸ hlocal⟩⟩
    simp only [hcond]
    split
    · next m h => exact lookup_put_updateState h .dead msg.incarnation id
    · next h => exact lookup_of_none h _ id

theorem lookup_handleJoin :
    (p.handleJoin resolve msg addr).1.members.lookup id = if id = msg.sourceID then
        some (match p.members.lookup id with
          | some m =>
            { m with
              address := msg.payload
              state := .alive
              incarnation := m.incarnation + 1 }
          | none => ⟨msg.sourceID, msg.payload, .alive, 0⟩)
      else p.members.lookup id := by
  unfold handleJoin
  split
  · next m h =>
    refine (lookup_put p _ id).trans ?_
    show (if id = m.id then _ else _) = _
    rw [p.keyed _ m h]
    split
    · next heq =>
      rw [heq, h]
      dsimp only
      rw [p.keyed _ m h]
    · rfl
  · next h =>
    refine (lookup_put p _ id).trans ?_
    dsimp only
    split
    · next heq => rw [heq, h]
    · rfl

theorem lookup_handleLeave : (p.handleLeave msg now).members.lookup id = if id = msg.sourceID then
        (p.members.lookup id).map fun m => (m.updateState .left msg.incarnation).1
      else p.members.lookup id := by
  unfold handleLeave
  split
  · next m h => exact lookup_put_updateState h .left msg.incarnation id
  · next h => exact lookup_of_none h _ id

theorem lookup_confirm (memberID : Str) : (p.confirm memberID now).members.lookup id =
      if id = memberID ∧ p.fd.isSuspected memberID = true then
        (p.members.lookup id).map fun m => (m.updateState .dead (bumpIncarnation p.incarnation)).1
      else p.members.lookup id := by
  unfold confirm
  by_cases hsuspected : p.fd.isSuspected memberID = true
  · simp only [hsuspected, if_true, and_true]
    unfold handleConfirm
    split
    · next m h => exact lookup_put_updateState h .dead (bumpIncarnation p.incarnation) id
    · next h => exact lookup_of_none h _ id
  · simp only [hsuspected, and_false, if_false, Bool.false_eq_true]

end Protocol

end HelixCluster.Swim
