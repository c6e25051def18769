import HelixCluster.Hlc.Clock
import HelixCluster.Lib.GoString
import HelixCluster.Lib.MessagePassing
import HelixCluster.Pair

/-!
# Causality of the hybrid logical clock

Processes stamp their local and send events with `Now` and their receive events with `Update`, at
arbitrary readings of the physical clocks.
-/

namespace HelixCluster.Hlc

open MessagePassing

variable {ι : Type} [DecidableEq ι]

/-- The clock protocol. Each event consults a reading of the physical clock. -/
def hlcObject : ClockObject ι Int64 Clock Timestamp where
  tick _ phys c := c.now phys
  absorb _ phys c remote := c.update phys remote

omit [DecidableEq ι] in
theorem hlcObject_rules : Rules (hlcObject (ι := ι)) (fun c => c.maxDrift < 0) Clock.last
    fun _ t => t ≠ .saturated where
  inv_tick _ _ _ := id
  last_tick _ _ _ := rfl
  le_tick _ phys c _ := (c.now_spec phys).le
  lt_tick _ phys c _ := (c.now_spec phys).lt
  inv_absorb _ _ _ _ := id
  last_absorb _ _ _ _ := rfl
  le_absorb _ phys c remote _ := (c.update_spec phys remote).1.le
  lt_absorb _ phys c remote hdrift hgood := by
    obtain ⟨hlast, hremote, -⟩ := c.update_spec phys remote
    rw [Clock.clamped, Clock.remotePhys, if_neg (Int64.lt_asymm hdrift)] at hremote
    exact ⟨hlast.lt hgood, hremote.lt hgood⟩

/-- Without the drift clamp, timestamps increase along happens-before as long as none is saturated.
-/
theorem timestamps_follow_causality {maxDrift : ι → Int64} (hdrift : ∀ i, maxDrift i < 0)
    {w : World ι Clock Timestamp}
    (hw : Reachable hlcObject (fun i => newWithMaxDrift (maxDrift i)) w) :
    ((∀ x ∈ w.events, x.stamp ≠ .saturated) → ∀ e f a b, HappensBefore w.events e f →
        w.events[e]? = some a → w.events[f]? = some b → a.stamp < b.stamp) ∧
      w.events.Pairwise fun a b => a.process = b.process → a.stamp ≤ b.stamp := by
  have hinit : ∀ i, (newWithMaxDrift (maxDrift i)).maxDrift < 0 := by
    intro i
    have hne : maxDrift i ≠ 0 := fun heq => absurd (heq ▸ hdrift i) (by decide)
    rw [newWithMaxDrift, if_neg hne]
    exact hdrift i
  refine ⟨fun hgood e f a b h ha hb => ?_, hlcObject_rules.stamp_le hinit hw⟩
  exact hlcObject_rules.stamp_lt hinit hw hgood h ha hb

/-- Clock `a` reads `5` and sends. -/
def sendStamp : Timestamp := ((newWithMaxDrift (-1)).now 5).2

/-- Clock `b` is behind and reads `3` when it receives. -/
def receiveStamp : Timestamp := ((newWithMaxDrift (-1)).update 3 sendStamp).2

/-- The run of these two events. -/
def laggingReceiver : World Site Clock Timestamp :=
  ((World.start fun _ => newWithMaxDrift (-1)).emit .a .send
    ((newWithMaxDrift (-1)).now 5)).emit .b (.receive 0)
      ((newWithMaxDrift (-1)).update 3 sendStamp)

/-- The receive event is stamped later than the send event. -/
theorem laggingReceiver_follows :
    sendStamp = ⟨5, 0⟩ ∧ receiveStamp = ⟨5, 1⟩ ∧ sendStamp < receiveStamp := by
  have hw : Reachable hlcObject (fun _ => newWithMaxDrift (-1)) laggingReceiver :=
    .emit Site.b (.emit Site.a .start (.send 5)) (.receive 3 (s := ⟨.a, .send, sendStamp⟩) rfl rfl)
  have hgood : ∀ x ∈ laggingReceiver.events, x.stamp ≠ .saturated := by
    simp only [laggingReceiver, World.start, World.emit_events, List.nil_append,
      List.cons_append, List.forall_mem_cons]
    decide
  have hbefore : HappensBefore laggingReceiver.events 0 1 := .single ⟨_, _, rfl, rfl, .inr rfl⟩
  have hlt := (timestamps_follow_causality (fun _ => by decide) hw).1 hgood 0 1
    ⟨.a, .send, sendStamp⟩ ⟨.b, .receive 0, receiveStamp⟩ hbefore rfl rfl
  exact ⟨by decide, by decide, hlt⟩

end HelixCluster.Hlc
