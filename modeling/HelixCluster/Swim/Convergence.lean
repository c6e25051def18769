import HelixCluster.Lib.Latest
import HelixCluster.Swim.Runs

/-!
# Convergence of membership views

Two nodes hear the same messages about a member, in different orders.
-/

namespace HelixCluster.Swim

open List

/-- A message as it is received. -/
structure Received where
  msg : Message
  addr : Str
  now : ℤ

/-- What a message says about its member. -/
def Message.said (msg : Message) : Standing :=
  ⟨msg.incarnation, (msg.about.map Prod.snd).getD .alive⟩

/-- A message as an offer to the entry of the member. Only `Alive` creates an entry. -/
def Message.offer (msg : Message) : Bool × Standing := (msg.type = .alive, msg.said)

namespace Protocol

variable {A : Type} (resolve : Str → Option A)

/-- The standing of a member in the table. -/
def standing (p : Protocol) (id : Str) : WithBot Standing :=
  known ((p.members.lookup id).map Member.standing)

/-- The state after a sequence of messages. -/
def receiveAll (p : Protocol) (received : List Received) : Protocol :=
  received.foldl (fun p r => (p.handle resolve r.msg r.addr r.now).1) p

theorem known_map_updateState (entry : Option Member) (state : MemberState) (incarnation : UInt32) :
    known ((entry.map fun m => (m.updateState state incarnation).1).map Member.standing) =
      absorb (known (entry.map Member.standing)) (false, ⟨incarnation, state⟩) := by
  cases entry with
  | none => rfl
  | some m =>
    refine Eq.trans ?_ (absorb_ne_bot (.inl WithBot.coe_ne_bot)).1.symm
    show ((m.updateState state incarnation).1.standing : WithBot Standing) =
      max (m.standing : WithBot Standing) _
    rw [m.standing_updateState, WithBot.coe_max]

theorem known_getD_updateState (entry : Option Member) (id addr : Str) (incarnation : UInt32) :
    known ((some ((entry.getD ⟨id, addr, .alive, 0⟩).updateState .alive incarnation).1).map
        Member.standing) =
      absorb (known (entry.map Member.standing)) (true, ⟨incarnation, .alive⟩) := by
  rw [(absorb_ne_bot (.inr rfl)).1]
  cases entry with
  | some m =>
    show ((m.updateState .alive incarnation).1.standing : WithBot Standing) =
      max (m.standing : WithBot Standing) _
    rw [m.standing_updateState, WithBot.coe_max]
  | none =>
    have hle : Member.standing ⟨id, addr, .alive, 0⟩ ≤ ⟨incarnation, .alive⟩ := by
      rw [Standing.le_iff, ← UInt32.toNat_inj]
      show (0 : UInt32).toNat < incarnation.toNat ∨ (0 : UInt32).toNat = incarnation.toNat ∧ _
      rcases Nat.eq_zero_or_pos incarnation.toNat with hzero | hpos
      · exact .inr ⟨hzero.symm, le_rfl⟩
      · exact .inl hpos
    show ((Member.updateState ⟨id, addr, .alive, 0⟩ .alive incarnation).1.standing :
      WithBot Standing) = max ⊥ _
    rw [Member.standing_updateState, max_eq_right hle, max_bot_left]

variable {p : Protocol} {id : Str}

theorem standing_handle {msg : Message} {state : MemberState}
    (habout : msg.about = some (id, state)) (hid : id ≠ p.localID) (addr : Str) (now : ℤ) :
    (p.handle resolve msg addr now).1.standing id = absorb (p.standing id) msg.offer := by
  have hsaid : msg.said = ⟨msg.incarnation, state⟩ := by rw [Message.said, habout]; rfl
  rw [Message.offer, hsaid]
  unfold Message.about at habout
  unfold handle standing
  split at habout <;> cases habout
  · next htype =>
    rw [htype]
    show known (((p.handleSuspect resolve msg now).1.members.lookup msg.targetID).map _) = _
    rw [lookup_handleSuspect, if_pos ⟨rfl, hid⟩]
    exact known_map_updateState _ .suspect msg.incarnation
  · next htype =>
    rw [htype]
    show known (((p.handleAlive msg addr).members.lookup msg.sourceID).map _) = _
    rw [lookup_handleAlive, if_pos rfl]
    exact known_getD_updateState _ msg.sourceID addr msg.incarnation
  · next htype =>
    rw [htype]
    show known (((p.handleDead resolve msg now).1.members.lookup msg.targetID).map _) = _
    rw [lookup_handleDead, if_pos ⟨rfl, hid⟩]
    exact known_map_updateState _ .dead msg.incarnation
  · next htype =>
    rw [htype]
    show known (((p.handleLeave msg now).members.lookup msg.sourceID).map _) = _
    rw [lookup_handleLeave, if_pos rfl]
    exact known_map_updateState _ .left msg.incarnation

/-- The messages are about the member. -/
def About (id : Str) (msgs : List Message) : Prop :=
  ∀ msg ∈ msgs, ∃ state, msg.about = some (id, state)

theorem standing_receiveAll (hid : id ≠ p.localID) {received : List Received}
    (habout : About id (received.map Received.msg)) : (p.receiveAll resolve received).standing id =
      ((received.map Received.msg).map Message.offer).foldl absorb (p.standing id) := by
  induction received generalizing p with
  | nil => rfl
  | cons r received ih =>
    obtain ⟨⟨state, hstate⟩, hrest⟩ := forall_mem_cons.mp habout
    have hlocal := (p.frame_step resolve (.receive r.msg r.addr r.now)).localID
    have hnext : id ≠ (p.handle resolve r.msg r.addr r.now).1.localID := hlocal.symm ▸ hid
    rw [map_cons, map_cons, foldl_cons, ← standing_handle resolve hstate hid r.addr r.now]
    exact ih hnext hrest

/-- The member is in the table, or an `Alive` message is the largest of the messages. -/
def Created (p : Protocol) (id : Str) (msgs : List Message) : Prop :=
  p.standing id ≠ ⊥ ∨ msgs = [] ∨
    ∃ msg ∈ msgs, msg.type = .alive ∧ ∀ other ∈ msgs, other.said ≤ msg.said

/-- All orders of the messages end with the maximum of the entry and the messages. -/
def Converges (p : Protocol) (id : Str) (msgs : List Message) : Prop :=
  ∀ received : List Received, (received.map Received.msg).Perm msgs →
    (p.receiveAll resolve received).standing id =
      max (p.standing id) (msgs.map Message.said).maximum

theorem map_snd_offer (msgs : List Message) :
    (msgs.map Message.offer).map Prod.snd = msgs.map Message.said := by
  rw [map_map]
  rfl

theorem converges_of_created (hid : id ≠ p.localID) {msgs : List Message} (habout : About id msgs)
    (h : p.Created id msgs) : p.Converges resolve id msgs := by
  intro received hperm
  rw [standing_receiveAll resolve hid fun msg hmsg => habout msg (hperm.mem_iff.mp hmsg),
    ← (hperm.map Message.said).maximum_eq, ← map_snd_offer]
  refine foldl_absorb_eq ?_
  rcases h with hstanding | rfl | ⟨msg, hmsg, htype, hmax⟩
  · exact .inl hstanding
  · rw [hperm.eq_nil]
    exact .inr (.inl rfl)
  refine .inr (.inr ⟨msg.said, ?_, fun x hx => ?_⟩)
  · refine mem_map.mpr ⟨msg, hperm.mem_iff.mpr hmsg, ?_⟩
    rw [Message.offer, htype]
    rfl
  · obtain ⟨other, hother, rfl⟩ := mem_map.mp hx
    exact hmax other (hperm.mem_iff.mp hother)

theorem created_of_converges (hid : id ≠ p.localID) {msgs : List Message} (habout : About id msgs)
    (h : p.Converges resolve id msgs) : p.Created id msgs := by
  by_cases hbot : p.standing id = ⊥
  · by_cases hnil : msgs = []
    · exact .inr (.inl hnil)
    · let order := (msgs.filter fun msg => !msg.offer.1) ++ msgs.filter fun msg => msg.offer.1
      have horder : order.Perm msgs :=
        perm_append_comm.trans (filter_append_perm (fun msg => msg.offer.1) msgs)
      have hreceived : (order.map fun msg => Received.mk msg [] 0).map Received.msg = order := by
        rw [map_map]
        exact map_id order
      have hend := h (order.map fun msg => Received.mk msg [] 0) (by rw [hreceived]; exact horder)
      rw [standing_receiveAll resolve hid (by
          rw [hreceived]
          exact fun msg hmsg => habout msg (horder.mem_iff.mp hmsg)),
        hreceived, hbot, max_bot_left, ← map_snd_offer] at hend
      obtain ⟨a, ha, hmax⟩ := exists_creating_of_foldl_absorb
        (mt map_eq_nil_iff.mp hnil) (by
          rw [← hend, filter_map, filter_map, ← map_append]
          rfl)
      obtain ⟨msg, hmsg, heq⟩ := mem_map.mp ha
      obtain ⟨htype, rfl⟩ := Prod.mk.inj heq
      exact .inr (.inr ⟨msg, hmsg, of_decide_eq_true htype, fun other hother =>
        hmax other.offer (mem_map_of_mem hother)⟩)
  · exact .inl hbot

end Protocol

variable {A : Type} (resolve : Str → Option A)

/-- Two nodes end with the maximum in all orders exactly if the member is known, or an `Alive`
message is largest. -/
theorem views_converge_iff {p q : Protocol} {id : Str} (hp : id ≠ p.localID)
    (hq : id ≠ q.localID) (hsame : ∀ i, q.members.lookup i = p.members.lookup i)
    {msgs : List Message} (habout : Protocol.About id msgs) :
    (∀ received received' : List Received, (received.map Received.msg).Perm msgs →
        (received'.map Received.msg).Perm msgs → (p.receiveAll resolve received).standing id =
            max (p.standing id) (msgs.map Message.said).maximum ∧
          (q.receiveAll resolve received').standing id =
            max (p.standing id) (msgs.map Message.said).maximum) ↔ p.Created id msgs := by
  have hstanding : q.standing id = p.standing id := by
    rw [Protocol.standing, hsame, Protocol.standing]
  constructor
  · intro h
    exact Protocol.created_of_converges resolve hp habout fun received hperm =>
      (h received received hperm hperm).1
  intro h received received' hperm hperm'
  have hother : q.Created id msgs := by
    unfold Protocol.Created at *
    rwa [hstanding]
  refine ⟨Protocol.converges_of_created resolve hp habout h received hperm, ?_⟩
  rw [Protocol.converges_of_created resolve hq habout hother received' hperm', hstanding]

/-- A suspicion of a peer. -/
def suspicion : Message := ⟨.suspect, [99], [98], 5, []⟩

/-- An older sign of life of the peer. -/
def signOfLife : Message := ⟨.alive, [98], [], 3, []⟩

/-- A node that knows the peer takes it for suspected in both orders. -/
theorem known_peer_converges :
    (((Protocol.initial [97] [1]).put ⟨[98], [2], .alive, 0⟩).receiveAll some
        [⟨suspicion, [3], 0⟩, ⟨signOfLife, [2], 1⟩]).standing [98] =
        ((⟨5, .suspect⟩ : Standing) : WithBot Standing) ∧
      (((Protocol.initial [97] [1]).put ⟨[98], [2], .alive, 0⟩).receiveAll some
        [⟨signOfLife, [2], 0⟩, ⟨suspicion, [3], 1⟩]).standing [98] =
        ((⟨5, .suspect⟩ : Standing) : WithBot Standing) := by
  have hlocal : ([98] : Str) ≠
      ((Protocol.initial [97] [1]).put ⟨[98], [2], .alive, 0⟩).localID := by decide
  have habout : Protocol.About [98] [suspicion, signOfLife] := by
    refine forall_mem_cons.mpr ⟨⟨.suspect, rfl⟩, ?_⟩
    exact forall_mem_cons.mpr ⟨⟨.alive, rfl⟩, by simp⟩
  have hcreated : ((Protocol.initial [97] [1]).put ⟨[98], [2], .alive, 0⟩).Created [98]
      [suspicion, signOfLife] := .inl (by decide)
  exact (views_converge_iff some hlocal hlocal (fun _ => rfl) habout).mpr hcreated _ _
    (List.Perm.refl _) (List.Perm.swap _ _ _)

/-- A node that does not know the peer misses the suspicion if it comes first. -/
theorem unknown_peer_diverges : ((Protocol.initial [97] [1]).receiveAll some
        [⟨suspicion, [3], 0⟩, ⟨signOfLife, [2], 1⟩]).standing [98] =
        ((⟨3, .alive⟩ : Standing) : WithBot Standing) ∧ ((Protocol.initial [97] [1]).receiveAll some
        [⟨signOfLife, [2], 0⟩, ⟨suspicion, [3], 1⟩]).standing [98] =
        ((⟨5, .suspect⟩ : Standing) : WithBot Standing) := by
  decide

end HelixCluster.Swim
