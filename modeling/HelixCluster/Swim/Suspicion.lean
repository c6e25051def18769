import HelixCluster.Lib.GoMap
import HelixCluster.Swim.Member

/-!
# The suspicion manager

The `SuspicionManager` of `pkg/swim/suspicion.go`.
-/

namespace HelixCluster.Swim

/-- How a suspicion ended. The field `dead` of the source is `dead`. -/
inductive Fate where
  | active
  | superseded
  | refuted
  | cleared
  | dead
  deriving DecidableEq

/-- The timer of a suspicion. -/
inductive Timer where
  | armed
  | stopped
  | fired
  deriving DecidableEq

/-- The `stop` function of a timer. -/
def Timer.stop : Timer → Timer
  | armed => stopped
  | stopped => stopped
  | fired => fired

/-- Where a timer callback is. `M` are the references to members. -/
inductive Phase (M : Type) where
  /-- The timer has fired. -/
  | started
  /-- The first locked section has read the record, and the indirect probe is running. -/
  | probing (member : M) (relays : List M)
  /-- A relay has reached the member. -/
  | reachable (member : M)
  /-- The record is deleted, and the member is about to be set to `Alive`. -/
  | recovering (member : M)
  /-- No relay has reached the member. -/
  | unreachable (member : M)
  /-- The second locked section has marked a suspicion as dead, and the member is about to be set to
  `Dead`. -/
  | marked (member : M) (confirmed : ℕ) (incarnation : UInt32)
  /-- `OnDead` is about to be invoked. -/
  | announcing (member : M) (confirmed : ℕ)
  | finished

/-- A timer callback: a call of `onTimeout`. -/
structure Callback (M : Type) where
  memberID : Str
  phase : Phase M

/-- `suspicionEntry`, with the identifier that its timer callback is called with. -/
structure Suspicion (M : Type) where
  id : Str
  member : M
  incarnation : UInt32
  relays : List (Option M)
  fate : Fate
  timer : Timer

/-- An invocation of `OnDead`, with the suspicion of the callback, the one marked, and the member's
state. -/
structure Death where
  memberID : Str
  caller : ℕ
  confirmed : ℕ
  state : MemberState
  deriving DecidableEq

/-- Whether there is a prober, the number of relays, and those for suspicions without any. -/
structure SuspicionConfig (M : Type) where
  prober : Bool
  indirectProbes : ℕ
  indirectProbes_pos : 0 < indirectProbes
  relays : List (Option M)

/-- `SuspicionManager`, with the members its suspicions refer to and its timer callbacks. -/
structure Manager (M : Type) where
  members : M → Member
  suspicions : ℕ → Option (Suspicion M)
  next : ℕ
  records : GoMap Str ℕ
  callbacks : ℕ → Option (Callback M)
  deaths : List Death

def newSuspicionManager {M : Type} (members : M → Member) : Manager M where
  members
  suspicions _ := none
  next := 0
  records := ∅
  callbacks _ := none
  deaths := []

/-- What happens to a manager: a call, a timer that fires, or a step of a timer callback. -/
inductive SuspicionEvent (M : Type) where
  | suspectWithRelays (member : Option M) (incarnation : UInt32) (relays : List (Option M))
  | refute (memberID : Str) (incarnation : UInt32)
  | fire (n : ℕ)
  | readRecord (n : ℕ)
  | probe (n : ℕ) (reachable : Bool)
  | clearRecord (n : ℕ)
  | setAlive (n : ℕ)
  | confirmRecord (n : ℕ)
  | setDead (n : ℕ)
  | onDead (n : ℕ)

namespace Manager

variable {M : Type} [DecidableEq M]

/-- `UpdateState` of a member. -/
def updateMember (w : Manager M) (r : M) (state : MemberState) (incarnation : UInt32) : Manager M :=
  { w with
    members := Function.update w.members r ((w.members r).updateState state incarnation).1 }

/-- The suspicion that is recorded for a member. -/
def current (w : Manager M) (id : Str) : Option (ℕ × Suspicion M) :=
  (w.records.lookup id).bind fun n => (w.suspicions n).map fun s => (n, s)

/-- End a recorded suspicion and delete its record. -/
def drop (w : Manager M) (id : Str) (n : ℕ) (s : Suspicion M) (fate : Fate) (timer : Timer) :
    Manager M :=
  { w with
    suspicions := Function.update w.suspicions n (some { s with fate, timer })
    records := w.records.erase id }

/-- Stop and delete the recorded suspicion of a member, if there is one. -/
def supersede (w : Manager M) (id : Str) : Manager M :=
  match w.current id with
  | some (old, s) => w.drop id old s .superseded s.timer.stop
  | none => w

/-- Record a new suspicion and arm its timer. -/
def raise (w : Manager M) (id : Str) (r : M) (incarnation : UInt32)
    (relays : List (Option M)) : Manager M :=
  { w with
    suspicions := Function.update w.suspicions w.next
      (some ⟨id, r, incarnation, relays, .active, .armed⟩)
    next := w.next + 1
    records := w.records.insert id w.next }

def suspectWithRelays (w : Manager M) (member : Option M) (incarnation : UInt32)
    (relays : List (Option M)) : Manager M :=
  match member with
  | none => w
  | some r =>
    if ((w.members r).updateState .suspect incarnation).2 then
      let id := (w.members r).id
      ((w.updateMember r .suspect incarnation).supersede id).raise id r incarnation relays
    else w

def refute (w : Manager M) (memberID : Str) (refuteIncarnation : UInt32) : Manager M :=
  match w.current memberID with
  | none => w
  | some (n, s) =>
    if s.fate = .dead ∨ refuteIncarnation ≤ s.incarnation then w
    else
      (w.drop memberID n s .refuted s.timer.stop).updateMember s.member .alive refuteIncarnation

/-- The timer of a suspicion fires and starts its callback. -/
def fire (w : Manager M) (n : ℕ) (s : Suspicion M) : Manager M :=
  { w with
    suspicions := Function.update w.suspicions n (some { s with timer := .fired })
    callbacks := Function.update w.callbacks n (some ⟨s.id, .started⟩) }

/-- The timer callback of a suspicion goes on to a phase. -/
def goTo (w : Manager M) (n : ℕ) (id : Str) (phase : Phase M) : Manager M :=
  { w with callbacks := Function.update w.callbacks n (some ⟨id, phase⟩) }

/-- `selectRelaysLocked`. -/
def selectRelays (cfg : SuspicionConfig M) (w : Manager M) (s : Suspicion M) : List M :=
  let src := if s.relays.length = 0 then cfg.relays else s.relays
  (src.filterMap fun r => r.filter fun r => (w.members r).id ≠ (w.members s.member).id).take
    cfg.indirectProbes

/-- The first locked section of `onTimeout`. -/
def readRecord (cfg : SuspicionConfig M) (w : Manager M) (n : ℕ) (id : Str) : Manager M :=
  match w.current id with
  | none => w.goTo n id .finished
  | some (_, entry) =>
    if entry.fate = .dead then w.goTo n id .finished
    else w.goTo n id (.probing entry.member (selectRelays cfg w entry))

/-- The indirect probe of `onTimeout`, which is skipped without a prober or relays. -/
def probe (cfg : SuspicionConfig M) (w : Manager M) (n : ℕ) (id : Str) (member : M)
    (relays : List M) (reachable : Bool) : Manager M :=
  if cfg.prober ∧ relays.length > 0 ∧ reachable then w.goTo n id (.reachable member)
  else w.goTo n id (.unreachable member)

/-- The locked section of `onTimeout` after a successful probe. -/
def clearRecord (w : Manager M) (n : ℕ) (id : Str) (member : M) : Manager M :=
  let w : Manager M :=
    match w.current id with
    | none => w
    | some (cur, entry) => if entry.fate = .dead then w else w.drop id cur entry .cleared entry.timer
  w.goTo n id (.recovering member)

/-- The second locked section of `onTimeout`, without a successful probe. -/
def confirmRecord (w : Manager M) (n : ℕ) (id : Str) (member : M) : Manager M :=
  match w.current id with
  | none => w.goTo n id .finished
  | some (cur, entry) =>
    if entry.fate = .dead then w.goTo n id .finished
    else (w.drop id cur entry .dead entry.timer).goTo n id (.marked member cur entry.incarnation)

/-- The invocation of `OnDead`. -/
def onDead (w : Manager M) (n : ℕ) (id : Str) (member : M) (confirmed : ℕ) : Manager M :=
  { w.goTo n id .finished with
    deaths := ⟨id, n, confirmed, (w.members member).state⟩ :: w.deaths }

/-- One event. A step at which the timer callback is not changes nothing. -/
def step (cfg : SuspicionConfig M) (w : Manager M) : SuspicionEvent M → Manager M
  | .suspectWithRelays member incarnation relays => w.suspectWithRelays member incarnation relays
  | .refute memberID incarnation => w.refute memberID incarnation
  | .fire n =>
    match w.suspicions n with
    | some s => if s.timer = .armed then w.fire n s else w
    | none => w
  | .readRecord n =>
    match w.callbacks n with
    | some ⟨id, .started⟩ => w.readRecord cfg n id
    | _ => w
  | .probe n reachable =>
    match w.callbacks n with
    | some ⟨id, .probing member relays⟩ => w.probe cfg n id member relays reachable
    | _ => w
  | .clearRecord n =>
    match w.callbacks n with
    | some ⟨id, .reachable member⟩ => w.clearRecord n id member
    | _ => w
  | .setAlive n =>
    match w.callbacks n with
    | some ⟨id, .recovering member⟩ =>
      (w.updateMember member .alive ((w.members member).incarnation + 1)).goTo n id .finished
    | _ => w
  | .confirmRecord n =>
    match w.callbacks n with
    | some ⟨id, .unreachable member⟩ => w.confirmRecord n id member
    | _ => w
  | .setDead n =>
    match w.callbacks n with
    | some ⟨id, .marked member confirmed incarnation⟩ =>
      (w.updateMember member .dead incarnation).goTo n id (.announcing member confirmed)
    | _ => w
  | .onDead n =>
    match w.callbacks n with
    | some ⟨id, .announcing member confirmed⟩ => w.onDead n id member confirmed
    | _ => w

end Manager

end HelixCluster.Swim
