import HelixCluster.Swim.Protocol

/-!
# Stale messages

A `Suspect`, `Alive`, `Dead` or `Leave` message says that a member has some state at some
incarnation.
-/

namespace HelixCluster.Swim

/-! ## The gossip buffer -/

/-- The buffer is full and every event in it is the same. -/
def GossipBuffer.FullOf (gb : GossipBuffer) (event : GossipEvent) : Prop :=
  gb.maxSize ≤ gb.events.length ∧ ∀ x ∈ gb.events, x = event

theorem tail_append_eq_iff {α : Type} {a e : α} {l : List α} :
    l ++ [e] = a :: l ↔ a = e ∧ ∀ x ∈ l, x = e := by
  induction l generalizing a with
  | nil => simp [eq_comm]
  | cons b l ih =>
    rw [List.cons_append, List.cons.injEq, ih, List.forall_mem_cons]
    constructor
    · rintro ⟨rfl, rfl, hrest⟩
      exact ⟨rfl, rfl, hrest⟩
    · rintro ⟨rfl, rfl, hrest⟩
      exact ⟨rfl, rfl, hrest⟩

theorem GossipBuffer.add_eq_iff (gb : GossipBuffer) (event : GossipEvent) :
    gb.add event = gb ↔ gb.FullOf event := by
  obtain ⟨events, maxSize, hpos⟩ := gb
  unfold add FullOf
  simp only [GossipBuffer.mk.injEq, and_true, ge_iff_le]
  split_ifs with hfull
  · cases events with
    | nil => exact absurd hfull (not_le.mpr hpos)
    | cons a l =>
      rw [List.tail_cons, tail_append_eq_iff, List.forall_mem_cons]
      exact (and_iff_right hfull).symm
  refine iff_of_false (fun heq => ?_) fun h => hfull h.1
  simpa using congrArg List.length heq

namespace Protocol

/-- The member table, the set of suspected members and the gossip buffer are the same. -/
structure NoEffect (p p' : Protocol) : Prop where
  members : ∀ id, p'.members.lookup id = p.members.lookup id
  suspects : ∀ id, p'.fd.isSuspected id = p.fd.isSuspected id
  gossipBuffer : p'.gossipBuffer = p.gossipBuffer

/-- When a rejected message that says that `id` has a state is without effect. -/
def Harmless (p : Protocol) (id : Str) (incarnation : UInt32) (now : ℤ) : MemberState → Prop
  | .alive => True
  | .suspect => p.fd.isSuspected id = true
  | .dead => ¬ p.fd.isSuspected id = true ∧ p.gossipBuffer.FullOf ⟨id, .dead, incarnation, now⟩
  | .left => p.gossipBuffer.FullOf ⟨id, .left, incarnation, now⟩

theorem lookup_put_same {p : Protocol} {key : Str} {m : Member}
    (h : p.members.lookup key = some m) (id : Str) :
    (p.put m).members.lookup id = p.members.lookup id := by
  rw [lookup_put, p.keyed key m h]
  split
  · next heq => rw [heq, h]
  · rfl

variable {A : Type} (resolve : Str → Option A) {p : Protocol} {msg : Message} {m : Member}

theorem noEffect_handleSuspect_iff (hm : p.members.lookup msg.targetID = some m)
    (hlocal : msg.targetID ≠ p.localID)
    (hreject : (m.updateState .suspect msg.incarnation).2 = false) (now : ℤ) :
    NoEffect p (p.handleSuspect resolve msg now).1 ↔ p.fd.isSuspected msg.targetID = true := by
  have hresult : (p.handleSuspect resolve msg now).1 =
      { p.put m with fd := p.fd.suspect msg.targetID msg.incarnation } := by
    unfold handleSuspect
    rw [hm]
    dsimp only
    rw [if_neg hlocal, hreject, m.updateState_of_reject _ _ hreject]
    rfl
  rw [hresult]
  constructor
  · intro h
    rw [← h.suspects]
    show (p.fd.suspect msg.targetID msg.incarnation).isSuspected msg.targetID = true
    rw [FailureDetector.isSuspected_suspect, if_pos rfl]
  intro hsuspected
  refine ⟨lookup_put_same hm, fun id => ?_, rfl⟩
  show (p.fd.suspect msg.targetID msg.incarnation).isSuspected id = _
  rw [FailureDetector.isSuspected_suspect]
  split
  · next heq => rw [heq, hsuspected]
  · rfl

theorem noEffect_handleAlive (hm : p.members.lookup msg.sourceID = some m)
    (hreject : (m.updateState .alive msg.incarnation).2 = false) (addr : Str) :
    NoEffect p (p.handleAlive msg addr) := by
  have hresult : p.handleAlive msg addr = p.put m := by
    unfold handleAlive
    dsimp only
    rw [hm, Option.getD_some, hreject, m.updateState_of_reject _ _ hreject]
    rfl
  rw [hresult]
  exact ⟨lookup_put_same hm, fun _ => rfl, rfl⟩

theorem noEffect_handleDead_iff (hm : p.members.lookup msg.targetID = some m)
    (hlocal : msg.targetID ≠ p.localID)
    (hreject : (m.updateState .dead msg.incarnation).2 = false) (now : ℤ) :
    NoEffect p (p.handleDead resolve msg now).1 ↔ ¬ p.fd.isSuspected msg.targetID = true ∧
        p.gossipBuffer.FullOf ⟨msg.targetID, .dead, msg.incarnation, now⟩ := by
  have hresult : (p.handleDead resolve msg now).1 =
      { (p.put m).gossiped ⟨msg.targetID, .dead, msg.incarnation, now⟩ with
        fd := p.fd.refute msg.targetID } := by
    unfold handleDead
    rw [if_neg hlocal, hm]
    dsimp only
    rw [m.updateState_of_reject _ _ hreject]
    rfl
  rw [hresult]
  constructor
  · intro h
    refine ⟨?_, (GossipBuffer.add_eq_iff _ _).mp h.gossipBuffer⟩
    rw [← h.suspects]
    show ¬ (p.fd.refute msg.targetID).isSuspected msg.targetID = true
    rw [FailureDetector.isSuspected_refute, if_pos rfl]
    exact Bool.false_ne_true
  rintro ⟨hsuspected, hfull⟩
  refine ⟨lookup_put_same hm, fun id => ?_, (GossipBuffer.add_eq_iff _ _).mpr hfull⟩
  show (p.fd.refute msg.targetID).isSuspected id = _
  rw [FailureDetector.isSuspected_refute]
  split
  · next heq => rw [heq, Bool.eq_false_iff.mpr hsuspected]
  · rfl

theorem noEffect_handleLeave_iff (hm : p.members.lookup msg.sourceID = some m)
    (hreject : (m.updateState .left msg.incarnation).2 = false) (now : ℤ) :
    NoEffect p (p.handleLeave msg now) ↔
      p.gossipBuffer.FullOf ⟨msg.sourceID, .left, msg.incarnation, now⟩ := by
  have hresult : p.handleLeave msg now =
      (p.put m).gossiped ⟨msg.sourceID, .left, msg.incarnation, now⟩ := by
    unfold handleLeave
    rw [hm]
    dsimp only
    rw [m.updateState_of_reject _ _ hreject]
  rw [hresult]
  constructor
  · exact fun h => (GossipBuffer.add_eq_iff _ _).mp h.gossipBuffer
  · exact fun hfull =>
      ⟨lookup_put_same hm, fun _ => rfl, (GossipBuffer.add_eq_iff _ _).mpr hfull⟩

end Protocol

variable {A : Type} (resolve : Str → Option A)

/-- A rejected message has no effect exactly if it is `Alive`, `Suspect` about a suspect, or meets a
gossip buffer full of its event. -/
theorem stale_no_effect_iff {p : Protocol} {msg : Message} {id : Str} {state : MemberState}
    {m : Member} (habout : msg.about = some (id, state)) (hm : p.members.lookup id = some m)
    (hlocal : id ≠ p.localID) (hreject : (m.updateState state msg.incarnation).2 = false)
    (addr : Str) (now : ℤ) :
    p.NoEffect (p.handle resolve msg addr now).1 ↔ p.Harmless id msg.incarnation now state := by
  unfold Message.about at habout
  unfold Protocol.handle
  split at habout <;> cases habout
  · next htype =>
    rw [htype]
    exact Protocol.noEffect_handleSuspect_iff resolve hm hlocal hreject now
  · next htype =>
    rw [htype]
    exact iff_of_true (Protocol.noEffect_handleAlive hm hreject addr) trivial
  · next htype =>
    rw [htype]
    exact Protocol.noEffect_handleDead_iff resolve hm hlocal hreject now
  · next htype =>
    rw [htype]
    exact Protocol.noEffect_handleLeave_iff hm hreject now

/-- A node that has a peer as alive at incarnation five, and does not suspect it. -/
def trustingNode : Protocol := (Protocol.initial [97] [1]).put ⟨[98], [2], .alive, 5⟩

/-- A stale `Alive` message about it has no effect. -/
theorem staleAlive_no_effect :
    trustingNode.NoEffect (trustingNode.handle some ⟨.alive, [98], [], 3, []⟩ [2] 0).1 := by
  have hm : trustingNode.members.lookup [98] = some ⟨[98], [2], .alive, 5⟩ := rfl
  have hlocal : ([98] : Str) ≠ trustingNode.localID := by decide
  have habout : (⟨.alive, [98], [], 3, []⟩ : Message).about = some ([98], .alive) := rfl
  exact (stale_no_effect_iff some habout hm hlocal (by decide) [2] 0).mpr trivial

/-- A stale `Suspect` message starts a suspicion all the same, and a stale `Leave` is gossiped. -/
theorem staleSuspect_starts_suspicion :
    ((⟨[98], [2], .alive, 5⟩ : Member).updateState .suspect 3).2 = false ∧
      trustingNode.fd.isSuspected [98] = false ∧
      (trustingNode.handle some ⟨.suspect, [99], [98], 3, []⟩ [3] 0).1.fd.isSuspected [98] = true ∧
      (trustingNode.handle some ⟨.leave, [98], [], 3, []⟩ [3] 0).1.gossipBuffer.events =
        [⟨[98], .left, 3, 0⟩] := by
  decide

end HelixCluster.Swim
