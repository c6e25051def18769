import HelixCluster.Kraft.Metadata
import HelixCluster.Lib.Runs
import HelixCluster.Pair

/-!
# Creating topics through the quorum

`CreateTopic` of `pkg/kraft` is a check of the topics that the controller has applied, and a
proposal, with any other steps in between.
-/

namespace HelixCluster.Kraft

open List

/-- The errors of `CreateTopic`. -/
inductive Error where
  | context
  | emptyName
  | badPartitions (name : Str)
  | topicExists (name : Str) (existing requested : Int64)
  | noController
  | propose
  deriving DecidableEq

/-- How far a call of `CreateTopic` has come. It returns nil if it finds the topic, or has proposed
its own. -/
inductive Outcome where
  | checked
  | failed (err : Error)
  | existed (applied : ℕ)
  | proposed
  deriving DecidableEq

/-- A call of `CreateTopic`. -/
structure Call where
  name : Str
  partitions : Int64
  outcome : Outcome
  deriving DecidableEq

/-- The command that a call proposes. -/
def Call.command (c : Call) : Command := ⟨.createTopic, c.name, c.partitions, 0, 0⟩

/-- A member, with the number of commands it has applied. -/
structure Member where
  state : MetadataState
  applied : ℕ

/-- A command in the log, and the call that proposed it if it is one of `CreateTopic`. -/
structure Entry where
  call : Option ℕ
  cmd : Command
  deriving DecidableEq

/-- The first step of `CreateTopic`, up to its proposal. -/
def check (name : Str) (partitions : Int64) (cancelled : Bool) (ctrl : Option Member) :
    Outcome :=
  if cancelled then .failed .context
  else if name = [] then .failed .emptyName
  else if partitions ≤ 0 then .failed (.badPartitions name)
  else
    match ctrl with
    | none => .checked
    | some m =>
      match m.state.topics.lookup name with
      | none => .checked
      | some existing =>
        if existing ≠ partitions then .failed (.topicExists name existing partitions)
        else .existed m.applied

/-- The members, the committed log, the open proposals, and the calls of `CreateTopic`. -/
structure Quorum (ι : Type) where
  members : ι → Member
  log : List Entry
  pending : List Entry
  calls : List Call

/-- The two steps of a call, and the proposal of other commands. -/
inductive Event (ι : Type) where
  | check (name : Str) (partitions : Int64) (cancelled : Bool) (ctrl : Option ι)
  | propose (call : ℕ) (ctrl : Option ι) (refused : Bool)
  | assign (topic : Str) (partition : Int64) (leader : UInt64)
  | commit (proposal : ℕ)
  | drop (proposal : ℕ)
  | apply (i : ι)

namespace Quorum

variable {ι : Type}

/-- New members. -/
def start : Quorum ι := ⟨fun _ => ⟨newMetadataState, 0⟩, [], [], []⟩

/-- The second step of a call: `propose`. -/
def propose (q : Quorum ι) (id : ℕ) (call : Call) (ctrl : Option ι) (refused : Bool) : Quorum ι :=
  match ctrl with
  | none => { q with calls := q.calls.set id { call with outcome := .failed .noController } }
  | some _ =>
    if refused then { q with calls := q.calls.set id { call with outcome := .failed .propose } }
    else
      { q with
        calls := q.calls.set id { call with outcome := .proposed }
        pending := q.pending ++ [⟨some id, call.command.received⟩] }

variable [DecidableEq ι]

def step (q : Quorum ι) : Event ι → Quorum ι
  | .check name partitions cancelled ctrl =>
    let outcome := Kraft.check name partitions cancelled (ctrl.map q.members)
    { q with calls := q.calls ++ [⟨name, partitions, outcome⟩] }
  | .propose id ctrl refused =>
    match q.calls[id]? with
    | none => q
    | some call => if call.outcome = .checked then q.propose id call ctrl refused else q
  | .assign topic partition leader =>
    let cmd : Command := ⟨.assignLeader, topic, 0, partition, leader⟩
    { q with pending := q.pending ++ [⟨none, cmd.received⟩] }
  | .commit k =>
    match q.pending[k]? with
    | none => q
    | some e => { q with log := q.log ++ [e], pending := q.pending.eraseIdx k }
  | .drop k => { q with pending := q.pending.eraseIdx k }
  | .apply i =>
    match q.log[(q.members i).applied]? with
    | none => q
    | some e =>
      let m := q.members i
      { q with
        members := Function.update q.members i ⟨(m.state.apply e.cmd).1, m.applied + 1⟩ }

/-- The committed commands. -/
def cmds (q : Quorum ι) : List Command := q.log.map Entry.cmd

/-- The command came through JSON, and if a call proposed it then the call asked for it. -/
def Proposed (q : Quorum ι) (e : Entry) : Prop :=
  validText e.cmd.topic = e.cmd.topic ∧
    ∀ id, e.call = some id → ∃ call, q.calls[id]? = some call ∧ call.outcome = .proposed ∧
      e.cmd = call.command.received ∧ call.name ≠ [] ∧ 0 < call.partitions

/-- What every run maintains. Every member has replayed a part of the log. -/
structure Consistent (q : Quorum ι) : Prop where
  members : ∀ i, (q.members i).applied ≤ q.log.length ∧
    (q.members i).state = .replay (q.cmds.take (q.members i).applied)
  log : ∀ e ∈ q.log, q.Proposed e
  pending : ∀ e ∈ q.pending, q.Proposed e
  checked : ∀ call ∈ q.calls, call.outcome = .checked → call.name ≠ [] ∧ 0 < call.partitions
  existed : ∀ call ∈ q.calls, ∀ m, call.outcome = .existed m →
    m ≤ q.log.length ∧ firstCreation (q.cmds.take m) call.name = some call.partitions

variable {q : Quorum ι}

omit [DecidableEq ι] in
theorem consistent_start : (start : Quorum ι).Consistent where
  members _ := ⟨le_refl _, rfl⟩
  log _ he := absurd he not_mem_nil
  pending _ he := absurd he not_mem_nil
  checked _ hcall := absurd hcall not_mem_nil
  existed _ hcall := absurd hcall not_mem_nil

theorem of_check (name : Str) (partitions : Int64) (cancelled : Bool) (ctrl : Option Member) :
    (Kraft.check name partitions cancelled ctrl = .checked → name ≠ [] ∧ 0 < partitions) ∧
      ∀ m, Kraft.check name partitions cancelled ctrl = .existed m →
        ∃ member ∈ ctrl, member.applied = m ∧
          member.state.topics.lookup name = some partitions := by
  unfold Kraft.check
  split
  · simp
  split
  · simp
  split
  · simp
  · next hname hpartitions =>
    refine ⟨fun _ => ⟨hname, Int64.not_le.mp hpartitions⟩, fun m h => ?_⟩
    split at h
    · cases h
    · next member =>
      split at h
      · cases h
      · next existing hexisting =>
        split at h
        · cases h
        · next hsame =>
          refine ⟨member, rfl, Outcome.existed.inj h, ?_⟩
          rw [hexisting, not_not.mp hsame]

omit [DecidableEq ι] in
theorem Proposed.mono {q' : Quorum ι} {e : Entry} (h : q.Proposed e)
    (hcalls : ∀ (id : ℕ) (call : Call), q.calls[id]? = some call → call.outcome = .proposed →
      q'.calls[id]? = some call) : q'.Proposed e := by
  refine ⟨h.1, fun id hid => ?_⟩
  obtain ⟨call, hcall, hproposed, hcmd⟩ := h.2 id hid
  exact ⟨call, hcalls id call hcall hproposed, hproposed, hcmd⟩

section

variable (h : q.Consistent)

include h

omit [DecidableEq ι] in
theorem Consistent.lookup (i : ι) (name : Str) : (q.members i).state.topics.lookup name =
      firstCreation (q.cmds.take (q.members i).applied) name := by
  rw [(h.members i).2, lookup_replay]

theorem consistent_check (name : Str) (partitions : Int64)
    (cancelled : Bool) (ctrl : Option ι) :
    (q.step (.check name partitions cancelled ctrl)).Consistent := by
  obtain ⟨hchecked, hexisted⟩ := of_check name partitions cancelled (ctrl.map q.members)
  have hmono : ∀ e, q.Proposed e → (q.step (.check name partitions cancelled ctrl)).Proposed e :=
    fun e he => Proposed.mono he fun id call hcall _ =>
      (List.getElem?_append_left (List.getElem?_eq_some_iff.mp hcall).1).trans hcall
  refine ⟨h.members, fun e he => hmono e (h.log e he), fun e he => hmono e (h.pending e he), ?_, ?_⟩
  · intro call hcall houtcome
    rcases mem_append.mp hcall with hold | hnew
    · exact h.checked call hold houtcome
    · obtain rfl := mem_singleton.mp hnew
      exact hchecked houtcome
  intro call hcall m houtcome
  rcases mem_append.mp hcall with hold | hnew
  · exact h.existed call hold m houtcome
  obtain rfl := mem_singleton.mp hnew
  obtain ⟨member, hmember, rfl, hlookup⟩ := hexisted m houtcome
  obtain ⟨i, _, rfl⟩ := Option.map_eq_some_iff.mp hmember
  exact ⟨(h.members i).1, (h.lookup i name).symm.trans hlookup⟩

omit [DecidableEq ι] in
theorem consistent_finish {id : ℕ} {call : Call} (hcall : q.calls[id]? = some call)
    (hchecked : call.outcome = .checked) (outcome : Outcome) (hout : outcome ≠ .checked)
    (hexisted : ∀ m, outcome ≠ .existed m) {pending : List Entry}
    (hpending : ∀ e ∈ pending, e ∈ q.pending ∨
      outcome = .proposed ∧ e = ⟨some id, call.command.received⟩) :
    Consistent { q with calls := q.calls.set id { call with outcome }, pending } := by
  obtain ⟨hid, hget⟩ := List.getElem?_eq_some_iff.mp hcall
  have hmono : ∀ e, q.Proposed e →
      Proposed { q with calls := q.calls.set id { call with outcome }, pending } e := by
    intro e he
    refine Proposed.mono he fun other call' hcall' hproposed => ?_
    rw [List.getElem?_set_ne, hcall']
    rintro rfl
    rw [hcall] at hcall'
    cases hcall'
    exact Outcome.noConfusion (hchecked.symm.trans hproposed)
  have hmem : ∀ call' ∈ q.calls.set id { call with outcome },
      call' ∈ q.calls ∨ call' = { call with outcome } := fun _ => mem_or_eq_of_mem_set
  refine ⟨h.members, fun e he => hmono e (h.log e he), fun e he => ?_, ?_, ?_⟩
  · rcases hpending e he with hold | ⟨rfl, rfl⟩
    · exact hmono e (h.pending e hold)
    · refine ⟨validText_idem _, fun other hother => ?_⟩
      cases hother
      refine ⟨_, List.getElem?_set_self hid, rfl, rfl, ?_⟩
      exact h.checked call (mem_of_getElem? hcall) hchecked
  · intro call' hcall' houtcome
    rcases hmem call' hcall' with hold | rfl
    · exact h.checked call' hold houtcome
    · exact absurd houtcome hout
  intro call' hcall' m houtcome
  rcases hmem call' hcall' with hold | rfl
  · exact h.existed call' hold m houtcome
  · exact absurd houtcome (hexisted m)

theorem consistent_propose (id : ℕ) (ctrl : Option ι) (refused : Bool) :
    (q.step (.propose id ctrl refused)).Consistent := by
  dsimp only [step]
  split
  · exact h
  · next call hcall =>
    split_ifs with hchecked
    · unfold propose
      split
      · exact consistent_finish h hcall hchecked (.failed .noController) nofun nofun
          fun e he => .inl he
      split
      · exact consistent_finish h hcall hchecked (.failed .propose) nofun nofun
          fun e he => .inl he
      refine consistent_finish h hcall hchecked .proposed nofun nofun fun e he => ?_
      rcases mem_append.mp he with hold | hnew
      · exact .inl hold
      · exact .inr ⟨rfl, mem_singleton.mp hnew⟩
    · exact h

theorem consistent_commit (k : ℕ) : (q.step (.commit k)).Consistent := by
  dsimp only [step]
  split
  · exact h
  · next e hpending =>
    have htake : ∀ m, m ≤ q.log.length →
        ((q.log ++ [e]).map Entry.cmd).take m = q.cmds.take m := by
      intro m hm
      rw [map_append, take_append_of_le_length (by simpa using hm)]
      rfl
    have hlength : (q.log ++ [e]).length = q.log.length + 1 := length_append
    refine ⟨fun i => ?_, fun e' he' => ?_, fun e' he' => ?_, h.checked, fun call hcall m hm => ?_⟩
    · obtain ⟨hle, hstate⟩ := h.members i
      refine ⟨by dsimp only; omega, hstate.trans ?_⟩
      exact congrArg _ (htake _ hle).symm
    · rcases mem_append.mp he' with hold | hnew
      · exact Proposed.mono (h.log e' hold) fun _ _ hcall _ => hcall
      · obtain rfl := mem_singleton.mp hnew
        exact Proposed.mono (h.pending _ (mem_of_getElem? hpending)) fun _ _ hcall _ => hcall
    · exact Proposed.mono (h.pending e' (mem_of_mem_eraseIdx he')) fun _ _ hcall _ => hcall
    obtain ⟨hle, hfirst⟩ := h.existed call hcall m hm
    refine ⟨by dsimp only; omega, ?_⟩
    show firstCreation (((q.log ++ [e]).map Entry.cmd).take m) call.name = _
    rw [htake m hle, hfirst]

theorem consistent_apply (i : ι) : (q.step (.apply i)).Consistent := by
  dsimp only [step]
  split
  · exact h
  · next e hentry =>
    refine ⟨fun j => ?_, fun e' he' => h.log e' he', fun e' he' => h.pending e' he', h.checked,
      h.existed⟩
    rcases eq_or_ne j i with rfl | hj
    · simp only [Function.update_self]
      refine ⟨(List.getElem?_eq_some_iff.mp hentry).1, ?_⟩
      have hcmd : q.cmds[(q.members j).applied]? = some e.cmd := by
        rw [cmds, List.getElem?_map, hentry]
        rfl
      rw [(h.members j).2]
      show _ = MetadataState.replay (q.cmds.take ((q.members j).applied + 1))
      rw [take_add_one, hcmd, Option.toList_some, MetadataState.replay, MetadataState.replay, foldl_concat]
    · simp only [Function.update_of_ne hj]
      exact h.members j

theorem consistent_step (event : Event ι) : (q.step event).Consistent := by
  cases event with
  | check name partitions cancelled ctrl => exact consistent_check h name partitions cancelled ctrl
  | propose id ctrl refused => exact consistent_propose h id ctrl refused
  | assign topic partition leader =>
    refine ⟨h.members, h.log, fun e he => ?_, h.checked, h.existed⟩
    rcases mem_append.mp he with hold | hnew
    · exact h.pending e hold
    · obtain rfl := mem_singleton.mp hnew
      exact ⟨validText_idem _, nofun⟩
  | commit k => exact consistent_commit h k
  | drop k =>
    exact ⟨h.members, h.log, fun e he => h.pending e (mem_of_mem_eraseIdx he), h.checked, h.existed⟩
  | apply i => exact consistent_apply h i

end

omit [DecidableEq ι] in
theorem firstCreation_eq_none (h : q.Consistent) {name : Str} (hinvalid : validText name ≠ name)
    (m : ℕ) : firstCreation (q.cmds.take m) name = none := by
  refine List.findSome?_eq_none_iff.mpr fun c hc => if_neg ?_
  rintro ⟨_, htopic, _⟩
  obtain ⟨e, he, rfl⟩ := mem_map.mp (mem_of_mem_take hc)
  exact hinvalid (htopic ▸ (h.log e he).1)

end Quorum

/-- A committed call has returned nil, and its topic has its partitions exactly if the first command
has them and the name is valid UTF-8. -/
theorem createTopic_nil_iff {ι : Type} [DecidableEq ι] {events : List (Event ι)} {q : Quorum ι}
    (hq : q ∈ states Quorum.step .start events) {id k : ℕ} {call : Call} {e : Entry} {i : ι}
    (hcall : q.calls[id]? = some call) (hentry : q.log[k]? = some e) (hown : e.call = some id)
    (happlied : k < (q.members i).applied) :
    call.outcome = .proposed ∧ ((q.members i).state.topics.lookup call.name = some call.partitions ↔
        validText call.name = call.name ∧
          firstCreation q.cmds call.name = some call.partitions) := by
  have h : q.Consistent :=
    forall_states (I := Quorum.Consistent) (fun _ event h => Quorum.consistent_step h event)
      Quorum.consistent_start events q hq
  obtain ⟨_, hcalls⟩ := h.log e (mem_of_getElem? hentry)
  obtain ⟨_, hsame, hproposed, hcmd, hname, hpartitions⟩ := hcalls id hown
  cases hcall.symm.trans hsame
  refine ⟨hproposed, ?_⟩
  rw [h.lookup i]
  by_cases hvalid : validText call.name = call.name
  · -- the command is in the part of the log that is applied, so that part has the first creation
    have hmem : e.cmd ∈ q.cmds.take (q.members i).applied := by
      refine mem_of_getElem? (i := k) ?_
      rw [List.getElem?_take_of_lt happlied, Quorum.cmds, List.getElem?_map, hentry]
      rfl
    have hcreates : e.cmd.creates call.name = some call.partitions := by
      rw [hcmd]
      exact if_pos ⟨rfl, hvalid, hname, hpartitions⟩
    obtain ⟨n, hn⟩ : ∃ n, firstCreation (q.cmds.take (q.members i).applied) call.name = some n := by
      refine Option.ne_none_iff_exists'.mp fun hnone => Option.some_ne_none call.partitions ?_
      rw [← hcreates, List.findSome?_eq_none_iff.mp hnone _ hmem]
    have hfull := firstCreation_append_of_some hn (q.cmds.drop (q.members i).applied)
    rw [take_append_drop] at hfull
    rw [hn, hfull, and_iff_right hvalid]
  · rw [Quorum.firstCreation_eq_none h hvalid]
    exact iff_of_false (Option.some_ne_none _).symm fun hboth => hvalid hboth.1

/-- **Members agree**: each has replayed a part of the committed log, and has every topic with the
partitions of its first creation. -/
theorem members_agree {ι : Type} [DecidableEq ι] (events : List (Event ι)) (i : ι) :
    let q := events.foldl Quorum.step .start
    (q.members i).state = .replay (q.cmds.take (q.members i).applied) ∧
      ∀ name n, (q.members i).state.topics.lookup name = some n →
        firstCreation q.cmds name = some n := by
  intro q
  have h : q.Consistent :=
    forall_states (I := Quorum.Consistent) (fun _ event h => Quorum.consistent_step h event)
      Quorum.consistent_start events q (foldl_mem_states _ _)
  refine ⟨(h.members i).2, fun name n hlookup => ?_⟩
  rw [h.lookup] at hlookup
  rw [← take_append_drop (q.members i).applied q.cmds]
  exact firstCreation_append_of_some hlookup _

/-- Concurrent calls for topic `t` with one partition and for `u` with two, committed in the other
order, and applied by member `b`. -/
def twoTopics : Quorum Site :=
  [Event.check [116] 1 false (some .a), .check [117] 2 false (some .a), .propose 0 (some .a) false,
    .propose 1 (some .a) false, .commit 1, .commit 0, .apply .b, .apply .b].foldl Quorum.step .start

theorem lookup_twoTopics : (twoTopics.members .b).state.topics.lookup [116] = some 1 ∧
    (twoTopics.members .b).state.topics.lookup [117] = some 2 := by
  have ht : twoTopics.calls[0]? = some ⟨[116], 1, .proposed⟩ := by decide
  have hu : twoTopics.calls[1]? = some ⟨[117], 2, .proposed⟩ := by decide
  have htEntry : twoTopics.log[1]? = some ⟨some 0, .createTopic, [116], 1, 0, 0⟩ := by decide
  have huEntry : twoTopics.log[0]? = some ⟨some 1, .createTopic, [117], 2, 0, 0⟩ := by decide
  have happlied : 1 < (twoTopics.members .b).applied := by decide
  exact ⟨(createTopic_nil_iff (foldl_mem_states _ _) ht htEntry rfl happlied).2.mpr
      ⟨by decide, by decide⟩,
    (createTopic_nil_iff (foldl_mem_states _ _) hu huEntry rfl (Nat.zero_lt_of_lt happlied)).2.mpr
      ⟨by decide, by decide⟩⟩

/-- Two calls create `t` with one partition and with two, and a member has it with one. -/
theorem both_calls_return_nil :
    let q := [Event.check [116] 1 false (some Site.a), .check [116] 2 false (some .a),
      .propose 0 (some .a) false, .propose 1 (some .a) false, .commit 0, .commit 0, .apply .a,
      .apply .a].foldl Quorum.step .start
    q.calls = [⟨[116], 1, .proposed⟩, ⟨[116], 2, .proposed⟩] ∧
      q.log.map (fun e => e.call) = [some 0, some 1] ∧ (q.members .a).applied = 2 ∧
      (q.members .a).state.topics.lookup [116] = some 1 := by
  decide

end HelixCluster.Kraft
