import HelixCluster.Swim.Protocol

/-!
# Self-refutation

A node that hears that it is suspected or dead bumps its own incarnation and broadcasts `Alive` with
it.
-/

namespace HelixCluster.Swim

theorem toNat_bumpIncarnation (inc : UInt32) :
    (bumpIncarnation inc).toNat = min (inc.toNat + 1) 4294967295 := by
  have hlt := inc.toNat_lt
  unfold bumpIncarnation
  split_ifs with h
  · rw [h]; rfl
  · have hne : inc.toNat ≠ 4294967295 := fun heq => h (UInt32.toNat_inj.mp heq)
    rw [UInt32.toNat_add, UInt32.toNat_one]
    omega

namespace Protocol

/-- The table has the node as suspected or dead, with this incarnation. -/
def Accuses (q : Protocol) (id : Str) (incarnation : UInt32) : Prop :=
  ∃ m, q.members.lookup id = some m ∧ (m.state = .suspect ∨ m.state = .dead) ∧
    m.incarnation = incarnation

/-- Every peer that has `p` as suspected or dead at `incarnation` accepts the `Alive` message with
`inc`. -/
def Refutes (p : Protocol) (inc incarnation : UInt32) : Prop :=
  incarnation < inc ∧ ∀ (q : Protocol) (addr : Str), q.Accuses p.localID incarnation →
      ((q.handleAlive (p.aliveMessage inc) addr).members.lookup p.localID).map Member.standing =
        some ⟨inc, .alive⟩

theorem refutes_iff (p : Protocol) (inc incarnation : UInt32) :
    p.Refutes inc incarnation ↔ incarnation < inc := by
  refine ⟨And.left, fun hlt => ⟨hlt, ?_⟩⟩
  rintro q addr ⟨m, hm, _, rfl⟩
  have hle : m.standing ≤ ⟨inc, .alive⟩ :=
    Standing.le_iff.mpr (.inl (UInt32.lt_iff_toNat_lt.mp hlt))
  rw [lookup_handleAlive, if_pos (show p.localID = (p.aliveMessage inc).sourceID from rfl), hm]
  show some (m.updateState .alive inc).1.standing = _
  rw [m.standing_updateState, max_eq_right hle]

variable {A : Type} (resolve : Str → Option A)

theorem handle_about_self {p : Protocol} {msg : Message}
    (htype : msg.type = .suspect ∨ msg.type = .dead) (hlocal : msg.targetID = p.localID)
    (addr : Str) (now : ℤ) : p.handle resolve msg addr now = p.refuteSelf resolve := by
  obtain ⟨m, hm⟩ := Option.isSome_iff_exists.mp p.registered
  unfold handle
  rcases htype with htype | htype
  · rw [htype]
    show p.handleSuspect resolve msg now = _
    rw [handleSuspect, hlocal, hm]
    exact if_pos rfl
  rw [htype]
  show p.handleDead resolve msg now = _
  rw [handleDead, if_pos hlocal]

theorem eq_of_mem_broadcastAlive {p : Protocol} {inc : UInt32} {sent : Message × A}
    (h : sent ∈ p.broadcastAlive resolve inc) : sent.1 = p.aliveMessage inc := by
  obtain ⟨m, _, hm⟩ := List.mem_flatMap.mp h
  split at hm
  · cases hm
  · obtain ⟨a, _, rfl⟩ := Option.map_eq_some_iff.mp (Option.mem_toList.mp hm)
    rfl

end Protocol

variable {A : Type} (resolve : Str → Option A)

/-- A node refutes what is said exactly if that is not ahead of its own incarnation. -/
theorem self_refutation_iff {p : Protocol} {msg : Message}
    (htype : msg.type = .suspect ∨ msg.type = .dead) (hlocal : msg.targetID = p.localID)
    (hmax : msg.incarnation < 4294967295) (addr : Str) (now : ℤ) :
    ∃ inc, (p.handle resolve msg addr now).1.incarnation = inc ∧ (p.handle resolve msg addr now).2 =
        (p.handle resolve msg addr now).1.broadcastAlive resolve inc ∧
      (∀ sent ∈ (p.handle resolve msg addr now).2, sent.1 = p.aliveMessage inc) ∧
      (p.Refutes inc msg.incarnation ↔ msg.incarnation ≤ p.incarnation) := by
  rw [Protocol.handle_about_self resolve htype hlocal]
  refine ⟨bumpIncarnation p.incarnation, rfl, rfl, fun sent hsent => ?_, ?_⟩
  · exact Protocol.eq_of_mem_broadcastAlive resolve hsent
  have hbound : msg.incarnation.toNat < 4294967295 := UInt32.lt_iff_toNat_lt.mp hmax
  rw [p.refutes_iff, UInt32.lt_iff_toNat_lt, UInt32.le_iff_toNat_le, toNat_bumpIncarnation]
  omega

/-- A node that knows one peer. -/
def pairedNode : Protocol := (Protocol.initial [97] [1]).put ⟨[98], [2], .alive, 0⟩

/-- It is suspected at the incarnation it has. -/
def freshSuspicion : Message := ⟨.suspect, [98], [97], 0, []⟩

/-- Its peer has that suspicion in its table and takes the node for alive again. -/
theorem freshSuspicion_refuted :
    (pairedNode.handle some freshSuspicion [2] 0).2 = [(pairedNode.aliveMessage 1, [2])] ∧
      pairedNode.Refutes 1 freshSuspicion.incarnation := by
  have htype : freshSuspicion.type = .suspect ∨ freshSuspicion.type = .dead := .inl rfl
  have hlocal : freshSuspicion.targetID = pairedNode.localID := rfl
  obtain ⟨inc, hinc, _, _, hrefutes⟩ := self_refutation_iff some htype hlocal (by decide) [2] 0
  obtain rfl : inc = 1 := hinc.symm.trans rfl
  exact ⟨by decide, hrefutes.mpr (by decide)⟩

/-- It is suspected by a peer whose own counter has already reached five. -/
def aheadSuspicion : Message := ⟨.suspect, [98], [97], 5, []⟩

/-- The table of another peer that has heard of the suspicion. -/
def accusingPeer : Protocol := (Protocol.initial [99] [3]).put ⟨[97], [1], .suspect, 5⟩

/-- The node answers with incarnation one, and the peer goes on suspecting it. -/
theorem aheadSuspicion_not_refuted :
    (pairedNode.handle some aheadSuspicion [2] 0).2 = [(pairedNode.aliveMessage 1, [2])] ∧
      accusingPeer.Accuses [97] aheadSuspicion.incarnation ∧
      ((accusingPeer.handleAlive (pairedNode.aliveMessage 1) [1]).members.lookup [97]).map
        Member.state = some .suspect :=
  ⟨by decide, ⟨⟨[97], [1], .suspect, 5⟩, rfl, .inl rfl, rfl⟩, by decide⟩

end HelixCluster.Swim
