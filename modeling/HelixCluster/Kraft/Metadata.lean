import HelixCluster.Lib.GoMap
import HelixCluster.Lib.ValidText

/-!
# The replicated metadata

The commands of `pkg/kraft` and the state machine that every member of the controller quorum applies
them to.
-/

namespace HelixCluster.Kraft

inductive CommandKind where
  | createTopic
  | assignLeader
  deriving DecidableEq

structure Command where
  kind : CommandKind
  topic : Str
  partitions : Int64
  partition : Int64
  leader : UInt64
  deriving DecidableEq

/-- What `decodeCommand` returns for `encode`. JSON does not keep a name that is not valid UTF-8. -/
def Command.received (c : Command) : Command := { c with topic := validText c.topic }

/-- The errors of `apply`. -/
inductive ApplyError where
  | emptyTopic
  | badPartitions (topic : Str)
  | topicExists (topic : Str) (existing requested : Int64)
  | unknownTopic (topic : Str)
  | outOfRange (topic : Str) (partition partitions : Int64)
  deriving DecidableEq

structure MetadataState where
  topics : GoMap Str Int64
  leaders : GoMap Str (GoMap Int64 UInt64)

def newMetadataState : MetadataState := ⟨∅, ∅⟩

namespace MetadataState

/-- The branch of `apply` that creates a topic. -/
def createTopic (s : MetadataState) (c : Command) : MetadataState × Option ApplyError :=
  if c.topic = [] then (s, some .emptyTopic)
  else if c.partitions ≤ 0 then (s, some (.badPartitions c.topic))
  else
    match s.topics.lookup c.topic with
    | some existing =>
      if existing = c.partitions then (s, none)
      else (s, some (.topicExists c.topic existing c.partitions))
    | none =>
      (⟨s.topics.insert c.topic c.partitions,
        if c.topic ∈ s.leaders then s.leaders else s.leaders.insert c.topic ∅⟩, none)

/-- The branch of `apply` that assigns the leader of a partition. -/
def assignLeader (s : MetadataState) (c : Command) : MetadataState × Option ApplyError :=
  if c.topic = [] then (s, some .emptyTopic)
  else
    match s.topics.lookup c.topic with
    | none => (s, some (.unknownTopic c.topic))
    | some parts =>
      if c.partition < 0 ∨ c.partition ≥ parts then
        (s, some (.outOfRange c.topic c.partition parts))
      else
        ({ s with
            leaders := s.leaders.insert c.topic
              (AList.insert c.partition c.leader (s.leaders.read c.topic ∅)) }, none)

def apply (s : MetadataState) (c : Command) : MetadataState × Option ApplyError :=
  match c.kind with
  | .createTopic => s.createTopic c
  | .assignLeader => s.assignLeader c

/-- The state after a list of commands. Their errors are discarded. -/
def replay (cmds : List Command) : MetadataState :=
  cmds.foldl (fun s c => (s.apply c).1) newMetadataState

end MetadataState

/-- The partitions that the command gives to the topic if it creates it. -/
def Command.creates (c : Command) (name : Str) : Option Int64 :=
  if c.kind = .createTopic ∧ c.topic = name ∧ name ≠ [] ∧ 0 < c.partitions then some c.partitions
  else none

/-- The partitions that the first command to create the topic gives to it. -/
def firstCreation (cmds : List Command) (name : Str) : Option Int64 :=
  cmds.findSome? fun c => c.creates name

theorem lookup_apply (s : MetadataState) (c : Command) (name : Str) :
    (s.apply c).1.topics.lookup name = (s.topics.lookup name).or (c.creates name) := by
  unfold MetadataState.apply Command.creates
  cases hkind : c.kind with
  | assignLeader =>
    have hsame : (s.assignLeader c).1.topics = s.topics := by
      unfold MetadataState.assignLeader
      split
      · rfl
      split
      · rfl
      split <;> rfl
    simp [hsame]
  | createTopic =>
    dsimp only
    unfold MetadataState.createTopic
    split
    · next hempty =>
      rw [if_neg (by grind), Option.or_none]
    split
    · next hpartitions =>
      rw [if_neg fun h => Int64.not_lt.mpr hpartitions h.2.2.2, Option.or_none]
    · next hempty hpartitions =>
      split
      · next existing hexisting =>
        have hsame : (if existing = c.partitions then (s, none)
            else (s, some (ApplyError.topicExists c.topic existing c.partitions))).1 = s := by
          split <;> rfl
        rw [hsame]
        rcases eq_or_ne c.topic name with rfl | hname
        · rw [hexisting, Option.some_or]
        · rw [if_neg fun h => hname h.2.1, Option.or_none]
      · next hnew =>
        rw [GoMap.lookup_insert_if]
        rcases eq_or_ne c.topic name with rfl | hname
        · rw [if_pos rfl, hnew, if_pos ⟨rfl, rfl, hempty, Int64.not_le.mp hpartitions⟩]
          rfl
        · rw [if_neg (Ne.symm hname), if_neg fun h => hname h.2.1, Option.or_none]

theorem lookup_replay (cmds : List Command) (name : Str) :
    (MetadataState.replay cmds).topics.lookup name = firstCreation cmds name := by
  have hfold : ∀ s : MetadataState, (cmds.foldl (fun s c => (s.apply c).1) s).topics.lookup name =
        (s.topics.lookup name).or (firstCreation cmds name) := by
    induction cmds with
    | nil => simp [firstCreation]
    | cons c cmds ih =>
      intro s
      rw [List.foldl_cons, ih, lookup_apply, Option.or_assoc]
      simp only [firstCreation, List.findSome?_cons]
      cases c.creates name <;> simp
  exact hfold newMetadataState

theorem firstCreation_append_of_some {cmds : List Command} {name : Str} {n : Int64}
    (h : firstCreation cmds name = some n) (more : List Command) :
    firstCreation (cmds ++ more) name = some n := by
  rw [firstCreation] at h ⊢
  rw [List.findSome?_append, h]
  rfl

end HelixCluster.Kraft
