import HelixCluster.Lib.Runs
import HelixCluster.Swim.Refutation

/-!
# Runs of a node

A node receives arbitrary messages, its suspicions are confirmed by their timers, its probes fail,
and it leaves.
-/

namespace HelixCluster.Swim

open Option

/-- What happens to a node. -/
inductive Event where
  | receive (msg : Message) (addr : Str) (now : ℤ)
  | confirm (memberID : Str) (now : ℤ)
  | probeFailed (targetID : Str) (now : ℤ)
  | leave (now : ℤ)

namespace Protocol

variable {A : Type} (resolve : Str → Option A)

/-- The state of the node after an event. -/
def step (p : Protocol) : Event → Protocol
  | .receive msg addr now => (p.handle resolve msg addr now).1
  | .confirm memberID now => p.confirm memberID now
  | .probeFailed targetID now => (p.probeFailed resolve targetID now).1
  | .leave now => (p.leave resolve now).1

/-! ## What every event keeps -/

/-- The node keeps its name and its incarnation, and does not suspect itself. -/
structure Frame (p p' : Protocol) : Prop where
  localID : p'.localID = p.localID
  incarnation : p.incarnation.toNat ≤ p'.incarnation.toNat
  suspects : p'.fd.isSuspected p.localID = true → p.fd.isSuspected p.localID = true

variable (p : Protocol)

namespace Frame

theorem refl : Frame p p := ⟨rfl, le_rfl, id⟩

theorem of_eq {p p' : Protocol} (hlocal : p'.localID = p.localID)
    (hincarnation : p'.incarnation = p.incarnation) (hfd : p'.fd = p.fd) : Frame p p' :=
  ⟨hlocal, by rw [hincarnation], by rw [hfd]; exact id⟩

theorem trans {p q r : Protocol} (hpq : Frame p q) (hqr : Frame q r) : Frame p r :=
  ⟨hqr.localID.trans hpq.localID, hpq.incarnation.trans hqr.incarnation,
    fun h => hpq.suspects (hpq.localID ▸ hqr.suspects (hpq.localID.symm ▸ h))⟩

theorem refute (id : Str) : Frame p { p with fd := p.fd.refute id } where
  localID := rfl
  incarnation := le_rfl
  suspects h := by
    show p.fd.isSuspected p.localID = true
    have h' : (p.fd.refute id).isSuspected p.localID = true := h
    rw [FailureDetector.isSuspected_refute] at h'
    split at h'
    · cases h'
    · exact h'

theorem suspect {id : Str} (hid : id ≠ p.localID) (inc : UInt32) :
    Frame p { p with fd := p.fd.suspect id inc } where
  localID := rfl
  incarnation := le_rfl
  suspects h := by
    have h' : (p.fd.suspect id inc).isSuspected p.localID = true := h
    rwa [FailureDetector.isSuspected_suspect, if_neg (Ne.symm hid)] at h'

theorem bump : Frame p { p with incarnation := bumpIncarnation p.incarnation } where
  localID := rfl
  incarnation := by
    have hlt := p.incarnation.toNat_lt
    show p.incarnation.toNat ≤ (bumpIncarnation p.incarnation).toNat
    rw [toNat_bumpIncarnation]
    omega
  suspects := id

end Frame

variable (msg : Message)

theorem frame_handleAck : Frame p (p.handleAck msg) := by
  unfold handleAck
  refine .trans ?_ (.refute _ msg.sourceID)
  split
  · exact .of_eq rfl rfl rfl
  · exact .refl p

variable (now : ℤ)

theorem frame_handleSuspect : Frame p (p.handleSuspect resolve msg now).1 := by
  unfold handleSuspect
  split
  · exact .refl p
  · next m _ =>
    split_ifs with hlocal
    · exact .bump p
    · refine .trans ?_ (.suspect _ ?_ msg.incarnation)
      · split <;> exact .of_eq rfl rfl rfl
      · split <;> exact hlocal

theorem frame_handleAlive (addr : Str) : Frame p (p.handleAlive msg addr) := by
  unfold handleAlive
  dsimp only
  split
  · refine .trans ?_ (.refute _ msg.sourceID)
    exact .of_eq rfl rfl rfl
  · exact .of_eq rfl rfl rfl

theorem frame_handleDead : Frame p (p.handleDead resolve msg now).1 := by
  unfold handleDead
  split
  · exact .bump p
  refine .trans ?_ (.refute _ msg.targetID)
  split
  · exact .of_eq rfl rfl rfl
  · exact .refl p

theorem frame_handleJoin (addr : Str) : Frame p (p.handleJoin resolve msg addr).1 := by
  unfold handleJoin
  split <;> exact .of_eq rfl rfl rfl

theorem frame_handleLeave : Frame p (p.handleLeave msg now) := by
  unfold handleLeave
  split
  · exact .of_eq rfl rfl rfl
  · exact .refl p

theorem frame_confirm (memberID : Str) (now : ℤ) : Frame p (p.confirm memberID now) := by
  unfold confirm
  split
  · refine .trans (.refute p memberID) ?_
    unfold handleConfirm
    split
    · exact .trans (.bump _) (.of_eq rfl rfl rfl)
    · exact .refl _
  · exact .refl p

theorem frame_probeFailed (targetID : Str) (now : ℤ) :
    Frame p (p.probeFailed resolve targetID now).1 := by
  unfold probeFailed
  split
  · exact .refl p
  split_ifs with hlocal
  · exact .refl p
  · let bumped := { p with incarnation := bumpIncarnation p.incarnation }
    have hsuspect := Frame.suspect bumped hlocal (bumpIncarnation p.incarnation)
    exact (Frame.bump p).trans (hsuspect.trans (.of_eq rfl rfl rfl))

theorem frame_step (e : Event) : Frame p (p.step resolve e) := by
  cases e with
  | confirm memberID now => exact p.frame_confirm memberID now
  | probeFailed targetID now => exact p.frame_probeFailed resolve targetID now
  | leave now => exact .trans (.bump p) (.of_eq rfl rfl rfl)
  | receive msg addr now =>
    show Frame p (p.handle resolve msg addr now).1
    unfold handle
    split
    · exact .refl p
    · exact .refl p
    · exact p.frame_handleAck msg
    · exact p.frame_handleSuspect resolve msg now
    · exact p.frame_handleAlive msg addr
    · exact p.frame_handleDead resolve msg now
    · exact p.frame_handleJoin resolve msg addr
    · exact p.frame_handleLeave msg now

/-! ## The local entry -/

/-- The local node is alive in its own table. -/
def SelfAlive (p : Protocol) : Prop := (p.members.lookup p.localID).map Member.state = some .alive

/-- A `Leave` message that names the local node is older than the local entry. -/
def LeaveRejected (p : Protocol) (e : Event) : Prop :=
  ∀ msg addr now, e = .receive msg addr now → msg.type = .leave → msg.sourceID = p.localID →
    ∀ m, p.members.lookup p.localID = some m → msg.incarnation < m.incarnation

variable {m : Member}

theorem state_updateState_alive (h : m.state = .alive) (incarnation : UInt32) :
    (m.updateState .alive incarnation).1.state = .alive := by
  rw [m.updateState_eq]
  split
  · rfl
  · exact h

theorem state_updateState_left (h : m.state = .alive) (incarnation : UInt32) :
    (m.updateState .left incarnation).1.state = .alive ↔ incarnation < m.incarnation := by
  rw [m.updateState_eq, UInt32.lt_iff_toNat_lt]
  have hle : m.standing ≤ ⟨incarnation, .left⟩ ↔ m.incarnation.toNat ≤ incarnation.toNat := by
    rw [Standing.le_iff, ← UInt32.toNat_inj]
    show m.incarnation.toNat < incarnation.toNat ∨
      m.incarnation.toNat = incarnation.toNat ∧ m.state ≤ .left ↔ _
    simp only [m.state.le_left, and_true]
    omega
  split_ifs with hstanding
  · have := hle.mp hstanding
    exact iff_of_false (fun hleft => by cases hleft) (by omega)
  · exact iff_of_true h (not_le.mp (mt hle.mpr hstanding))

theorem lookup_probeFailed (targetID : Str) (now : ℤ) :
    (p.probeFailed resolve targetID now).1.members = p.members := by
  unfold probeFailed
  split
  · rfl
  · split <;> rfl

theorem selfAlive_handle {p : Protocol} (hm : p.members.lookup p.localID = some m)
    (hstate : m.state = .alive) (msg : Message) (addr : Str) (now : ℤ) :
    ((p.handle resolve msg addr now).1.members.lookup p.localID).map Member.state = some .alive ↔
      (msg.type = .leave → msg.sourceID = p.localID → msg.incarnation < m.incarnation) := by
  have hkept : (p.members.lookup p.localID).map Member.state = some .alive := by
    rw [hm, map_some, hstate]
  unfold handle
  split
  · next htype => exact iff_of_true hkept (by simp [htype])
  · next htype => exact iff_of_true hkept (by simp [htype])
  · next htype =>
    refine iff_of_true ?_ (by simp [htype])
    rw [lookup_handleAck, hm]
    split
    · simp [Member.clearSuspect, hstate]
    · simp [hstate]
  · next htype =>
    refine iff_of_true ?_ (by simp [htype])
    rw [lookup_handleSuspect, if_neg fun h => h.2 rfl]
    exact hkept
  · next htype =>
    refine iff_of_true ?_ (by simp [htype])
    rw [lookup_handleAlive, hm]
    split
    · rw [getD_some, map_some, state_updateState_alive hstate]
    · simp [hstate]
  · next htype =>
    refine iff_of_true ?_ (by simp [htype])
    rw [lookup_handleDead, if_neg fun h => h.2 rfl]
    exact hkept
  · next htype =>
    refine iff_of_true ?_ (by simp [htype])
    rw [lookup_handleJoin, hm]
    split
    · rfl
    · simp [hstate]
  · next htype =>
    rw [lookup_handleLeave, hm]
    split_ifs with hsource
    · rw [map_some, map_some, some_inj, state_updateState_left hstate]
      exact ⟨fun h _ _ => h, fun h => h htype hsource.symm⟩
    · exact iff_of_true (by simp [hstate]) fun _ heq => absurd heq.symm hsource

theorem selfAlive_step {p : Protocol} (hself : ¬ p.fd.isSuspected p.localID = true)
    (halive : p.SelfAlive) (e : Event) : (p.step resolve e).SelfAlive ↔ p.LeaveRejected e := by
  obtain ⟨m, hm, hstate⟩ := map_eq_some_iff.mp halive
  unfold SelfAlive
  rw [(p.frame_step resolve e).localID]
  cases e with
  | receive msg addr now =>
    refine (selfAlive_handle resolve hm hstate msg addr now).trans ⟨fun h => ?_, fun h => ?_⟩
    · rintro msg' addr' now' heq htype hsource m' hm'
      obtain ⟨rfl, _, _⟩ := Event.receive.inj heq
      cases hm.symm.trans hm'
      exact h htype hsource
    · exact fun htype hsource => h msg addr now rfl htype hsource m hm
  | confirm memberID now =>
    refine iff_of_true ?_ fun _ _ _ h => by cases h
    show ((p.confirm memberID now).members.lookup p.localID).map Member.state = _
    have hother : ¬ (p.localID = memberID ∧ p.fd.isSuspected memberID = true) :=
      fun h => hself (h.1 ▸ h.2)
    rw [lookup_confirm, if_neg hother]
    exact halive
  | probeFailed targetID now =>
    refine iff_of_true ?_ fun _ _ _ h => by cases h
    show ((p.probeFailed resolve targetID now).1.members.lookup p.localID).map Member.state = _
    rw [lookup_probeFailed]
    exact halive
  | leave now => exact iff_of_true halive fun _ _ _ h => by cases h

/-! ## Incarnations -/

/-- No incarnation goes back from `p` to `p'`, neither that of the node nor that of a member. -/
structure IncarnationsLe (p p' : Protocol) : Prop where
  own : p.incarnation.toNat ≤ p'.incarnation.toNat
  member : ∀ id m, p.members.lookup id = some m →
    ∃ m', p'.members.lookup id = some m' ∧ m.incarnation.toNat ≤ m'.incarnation.toNat

instance incarnationsLe_trans : IsTrans Protocol IncarnationsLe where
  trans p q r hpq hqr := by
    refine ⟨hpq.own.trans hqr.own, fun id m hm => ?_⟩
    obtain ⟨m', hm', hle⟩ := hpq.member id m hm
    obtain ⟨m'', hm'', hle'⟩ := hqr.member id m' hm'
    exact ⟨m'', hm'', hle.trans hle'⟩

/-- A `Join` message does not meet an entry with the largest incarnation. -/
def JoinBelowCeiling (p : Protocol) (e : Event) : Prop :=
  ∀ msg addr now, e = .receive msg addr now → msg.type = .join →
    ∀ m, p.members.lookup msg.sourceID = some m → m.incarnation ≠ 4294967295

theorem incarnation_updateState (m : Member) (state : MemberState) (incarnation : UInt32) :
    m.incarnation.toNat ≤ (m.updateState state incarnation).1.incarnation.toNat := by
  have hle : m.standing ≤ (m.updateState state incarnation).1.standing := by
    rw [m.standing_updateState]
    exact le_max_left _ _
  exact Standing.incarnation_le hle

theorem incarnation_le_of_map {old : Option Member} (hm : old = some m) {f : Member → Member}
    (hf : m.incarnation.toNat ≤ (f m).incarnation.toNat) (changed : Prop) [Decidable changed] :
    ∃ m', (if changed then old.map f else old) = some m' ∧
      m.incarnation.toNat ≤ m'.incarnation.toNat := by
  subst hm
  split
  · exact ⟨f m, rfl, hf⟩
  · exact ⟨m, rfl, le_rfl⟩

theorem incarnation_handle {p : Protocol} {id : Str} (hm : p.members.lookup id = some m)
    (msg : Message) (addr : Str) (now : ℤ)
    (hjoin : msg.type = .join → id = msg.sourceID → m.incarnation ≠ 4294967295) :
    ∃ m', (p.handle resolve msg addr now).1.members.lookup id = some m' ∧
      m.incarnation.toNat ≤ m'.incarnation.toNat := by
  unfold handle
  split
  · exact ⟨m, hm, le_rfl⟩
  · exact ⟨m, hm, le_rfl⟩
  · rw [lookup_handleAck]
    exact incarnation_le_of_map hm (by rw [m.clearSuspect_incarnation]) _
  · rw [lookup_handleSuspect]
    exact incarnation_le_of_map hm (incarnation_updateState m _ _) _
  · rw [lookup_handleAlive, hm]
    split
    · exact ⟨_, rfl, incarnation_updateState m .alive msg.incarnation⟩
    · exact ⟨m, rfl, le_rfl⟩
  · rw [lookup_handleDead]
    exact incarnation_le_of_map hm (incarnation_updateState m _ _) _
  · next htype =>
    rw [lookup_handleJoin, hm]
    split_ifs with hid
    · refine ⟨_, rfl, ?_⟩
      have hne : m.incarnation.toNat ≠ 4294967295 := fun heq =>
        hjoin htype hid (UInt32.toNat_inj.mp heq)
      have hlt := m.incarnation.toNat_lt
      show m.incarnation.toNat ≤ (m.incarnation + 1).toNat
      rw [UInt32.toNat_add, UInt32.toNat_one]
      omega
    · exact ⟨m, rfl, le_rfl⟩
  · rw [lookup_handleLeave]
    exact incarnation_le_of_map hm (incarnation_updateState m _ _) _

theorem incarnationsLe_step (e : Event) :
    IncarnationsLe p (p.step resolve e) ↔ p.JoinBelowCeiling e := by
  constructor
  · rintro hle msg addr now rfl htype m hm hceiling
    obtain ⟨m', hm', hmono⟩ := hle.member msg.sourceID m hm
    have hjoin : (p.step resolve (.receive msg addr now)).members.lookup msg.sourceID =
        some ⟨m.id, msg.payload, .alive, m.incarnation + 1⟩ := by
      show (p.handle resolve msg addr now).1.members.lookup msg.sourceID = _
      rw [handle, htype]
      show (p.handleJoin resolve msg addr).1.members.lookup msg.sourceID = _
      rw [lookup_handleJoin, if_pos rfl, hm]
    cases hm'.symm.trans hjoin
    have hzero : (m.incarnation + 1).toNat = 0 := by rw [hceiling]; rfl
    have hmax : m.incarnation.toNat = 4294967295 := by rw [hceiling]; rfl
    exact absurd (hmono.trans_eq hzero) (by omega)
  intro hjoin
  refine ⟨(p.frame_step resolve e).incarnation, fun id m hm => ?_⟩
  cases e with
  | receive msg addr now =>
    refine incarnation_handle resolve hm msg addr now fun htype hid => ?_
    exact hjoin msg addr now rfl htype m (hid ▸ hm)
  | confirm memberID now =>
    show ∃ m', (p.confirm memberID now).members.lookup id = some m' ∧ _
    rw [lookup_confirm]
    exact incarnation_le_of_map hm (incarnation_updateState m _ _) _
  | probeFailed targetID now =>
    show ∃ m', (p.probeFailed resolve targetID now).1.members.lookup id = some m' ∧ _
    rw [lookup_probeFailed]
    exact ⟨m, hm, le_rfl⟩
  | leave now => exact ⟨m, hm, le_rfl⟩

end Protocol

variable {A : Type} (resolve : Str → Option A)

/-- **The local entry** stays alive if and only if every `Leave` message of the node itself is
older. -/
theorem self_alive_iff {localID localAddr : Str} {p : Protocol}
    (hp : newProtocol localID localAddr = .ok p) (events : List Event) :
    (∀ q ∈ states (Protocol.step resolve) p events, q.SelfAlive) ↔
      Along (Protocol.step resolve) Protocol.LeaveRejected p events := by
  have hinitial : p = .initial localID localAddr := by
    unfold newProtocol at hp
    split at hp
    · cases hp
    · exact (Except.ok.inj hp).symm
  subst hinitial
  let Unsuspected (q : Protocol) : Prop := ¬ q.fd.isSuspected q.localID = true
  have hkept : ∀ q e, Unsuspected q → Unsuspected (Protocol.step resolve q e) := by
    intro q e hq hsuspected
    have hframe := q.frame_step resolve e
    exact hq (hframe.suspects (hframe.localID ▸ hsuspected))
  refine forall_states_iff hkept (fun q e hq ha => Protocol.selfAlive_step resolve hq ha e) ?_ ?_
    events
  · exact Bool.false_ne_true
  have hself : (Protocol.initial localID localAddr).members.lookup localID =
      some ⟨localID, localAddr, .alive, 0⟩ :=
    (GoMap.lookup_singleton_if localID localID _).trans (if_pos rfl)
  show Option.map Member.state ((Protocol.initial localID localAddr).members.lookup localID) = _
  rw [hself]
  rfl

/-- A node joins its own table again, and then hears that it has left and that it is dead. -/
def echoes : List Event :=
  [.receive ⟨.join, [97], [], 0, [1]⟩ [2] 0, .receive ⟨.leave, [97], [97], 0, []⟩ [2] 1,
    .receive ⟨.dead, [98], [97], 7, []⟩ [2] 2]

/-- The stale `Leave` message is rejected, and the `Dead` message raises the incarnation. -/
theorem echoes_self_alive :
    (echoes.foldl (Protocol.step some) (.initial [97] [1])).incarnation = 1 ∧
      ∀ q ∈ states (Protocol.step some) (.initial [97] [1]) echoes, q.SelfAlive := by
  have hnew : newProtocol [97] [1] = .ok (.initial [97] [1]) := rfl
  refine ⟨by decide, (self_alive_iff some hnew echoes).mpr ⟨?_, ?_, ?_, trivial⟩⟩
  · rintro msg addr now heq htype
    obtain ⟨rfl, _⟩ := Event.receive.inj heq
    cases htype
  · rintro msg addr now heq _ _ m hm
    obtain ⟨rfl, _⟩ := Event.receive.inj heq
    cases hm
    decide
  rintro msg addr now heq htype
  obtain ⟨rfl, _⟩ := Event.receive.inj heq
  cases htype

/-- A `Leave` message that names the node marks it as left in its own table. -/
theorem forged_leave_accepted : (((Protocol.initial [97] [1]).step some
      (.receive ⟨.leave, [97], [], 0, []⟩ [2] 0)).members.lookup [97]).map Member.state =
        some .left := by
  decide

/-- **Incarnations** never go back if and only if no `Join` message meets an entry with the largest
one. -/
theorem incarnations_monotone_iff (p : Protocol) (events : List Event) :
    (states (Protocol.step resolve) p events).Pairwise Protocol.IncarnationsLe ↔
      Along (Protocol.step resolve) Protocol.JoinBelowCeiling p events :=
  pairwise_states_iff (Protocol.incarnationsLe_step resolve) p events

/-- A peer announces the largest incarnation and then joins again. -/
def ceilingJoin : List Event :=
  [.receive ⟨.alive, [98], [], 4294967295, []⟩ [2] 0, .receive ⟨.join, [98], [], 0, [2]⟩ [2] 1]

/-- Its incarnation goes back to zero. -/
theorem ceilingJoin_wraps :
    (states (Protocol.step some) (.initial [97] [1]) ceilingJoin).map (fun q =>
        (q.members.lookup [98]).map Member.incarnation) = [none, some 4294967295, some 0] := by
  decide

end HelixCluster.Swim
