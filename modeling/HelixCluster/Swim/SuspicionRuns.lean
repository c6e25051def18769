import HelixCluster.Lib.Runs
import HelixCluster.Swim.SuspicionInvariant

/-!
# Runs of the suspicion manager

A timer callback finds its suspicion by the identifier of the member, so that it confirms its own
one as long as no other is accepted meanwhile (`confirmed_by_own_timeout`).
-/

namespace HelixCluster.Swim

namespace Manager

variable {M : Type} {w : Manager M}

namespace Sound

variable {c : Callback M} {n confirmed : ℕ}

section

variable (h : w.Sound)

include h

theorem readRecord (cfg : SuspicionConfig M) (hc : w.callbacks n = some c)
    (hc' : c.phase ≠ .finished) : (w.readRecord cfg n c.memberID).Sound := by
  unfold Manager.readRecord
  split
  · exact h.advance hc hc' fun _ _ => trivial
  · next cur entry hcurrent =>
    split
    · exact h.advance hc hc' fun _ _ => trivial
    refine h.advance hc hc' fun s hs => ?_
    obtain rfl := h.current_own hc hc' hcurrent
    obtain rfl := Option.some.inj (hs.symm.trans (h.of_current hcurrent).1)
    rfl

variable {member : M}

theorem clearRecord (hc : w.callbacks n = some c)
    (hphase : c.phase = .reachable member) : (w.clearRecord n c.memberID member).Sound := by
  have hc' : c.phase ≠ .finished := by simp [hphase]
  obtain ⟨s, hs, hid, hfired, _, hfollows⟩ := h.callback n c hc hc'
  rw [hphase] at hfollows
  unfold Manager.clearRecord
  cases hcurrent : w.current c.memberID with
  | none =>
    refine h.advance hc hc' fun t ht => ?_
    cases hs.symm.trans ht
    exact ⟨hfollows, h.not_active_of_current_none hcurrent hs hid⟩
  | some found =>
    obtain ⟨cur, entry⟩ := found
    obtain ⟨hentry, _, hactive⟩ := h.of_current hcurrent
    obtain rfl := h.current_own hc hc' hcurrent
    cases hs.symm.trans hentry
    have hdrop : (w.drop c.memberID cur s .cleared s.timer).Sound :=
      h.drop hcurrent (by decide) (by simp [hfired]) id
    dsimp only
    rw [if_neg (by simp [hactive])]
    refine hdrop.advance hc hc' fun t ht => ?_
    rcases update_eq_some.mp ht with ⟨_, rfl⟩ | ⟨hne, _⟩
    · exact ⟨hfollows, Fate.noConfusion⟩
    · exact absurd rfl hne

theorem confirmRecord (hc : w.callbacks n = some c)
    (hphase : c.phase = .unreachable member) : (w.confirmRecord n c.memberID member).Sound := by
  have hc' : c.phase ≠ .finished := by simp [hphase]
  obtain ⟨s, hs, hid, hfired, _, hfollows⟩ := h.callback n c hc hc'
  rw [hphase] at hfollows
  unfold Manager.confirmRecord
  split
  · exact h.advance hc hc' fun _ _ => trivial
  · next cur entry hcurrent =>
    split
    · exact h.advance hc hc' fun _ _ => trivial
    obtain ⟨hentry, _, hactive⟩ := h.of_current hcurrent
    obtain rfl := h.current_own hc hc' hcurrent
    cases hs.symm.trans hentry
    have hdrop : (w.drop c.memberID cur s .dead s.timer).Sound :=
      h.drop hcurrent (by decide) (by simp [hfired]) id
    refine hdrop.advance hc hc' fun t ht => ?_
    rcases update_eq_some.mp ht with ⟨_, rfl⟩ | ⟨hne, _⟩
    · refine ⟨hfollows, rfl, rfl, ?_⟩
      rw [show member = s.member from hfollows]
      exact (h.active cur s hs hactive).2
    · exact absurd rfl hne

theorem onDead (hc : w.callbacks n = some c)
    (hphase : c.phase = .announcing member confirmed) :
    (w.onDead n c.memberID member confirmed).Sound := by
  have hc' : c.phase ≠ .finished := by simp [hphase]
  obtain ⟨s, hs, hid, hfired, _, hfollows⟩ := h.callback n c hc hc'
  rw [hphase] at hfollows
  obtain ⟨_, hconfirmed, hdead, hstate⟩ := hfollows
  have hfinished : (w.goTo n c.memberID .finished).Sound := h.advance hc hc' fun _ _ => trivial
  refine { hfinished with deaths := fun d hd => ?_ }
  rcases List.mem_cons.mp hd with rfl | hd
  · exact ⟨hconfirmed, hstate, s, hs, hid, hfired, hdead⟩
  · exact h.deaths d hd

variable [DecidableEq M]

theorem refute (memberID : Str) (incarnation : UInt32) :
    (w.refute memberID incarnation).Sound := by
  unfold Manager.refute
  split
  · exact h
  · next n s hcurrent =>
    split
    · exact h
    obtain ⟨hs, hid, hactive⟩ := h.of_current hcurrent
    have hname : (w.members s.member).id = memberID := (h.named n s hs).trans hid
    have hdrop : (w.drop memberID n s .refuted s.timer.stop).Sound :=
      h.drop_stop hcurrent (by decide)
    refine hdrop.updateMember .alive incarnation ?_ fun k d t hd hd' heq ht => ?_
    · show (w.records.erase memberID).lookup (w.members s.member).id = none
      rw [GoMap.lookup_erase_if, if_pos hname]
    -- a callback for the member is the one of the refuted suspicion
    have hk : n = k := by
      obtain ⟨_, _, _, _, honly, _⟩ := h.callback k d hd hd'
      exact honly n s hs hactive (hid.trans (hname.symm.trans heq.symm))
    rcases update_eq_some.mp ht with ⟨_, rfl⟩ | ⟨hne, _⟩
    · exact Fate.noConfusion
    · exact absurd hk.symm hne

theorem suspectWithRelays (member : Option M) (incarnation : UInt32) (relays : List (Option M))
    (hidle : ∀ r, member = some r → ((w.members r).updateState .suspect incarnation).2 = true →
      ∀ n c, w.callbacks n = some c → c.phase ≠ .finished → c.memberID ≠ (w.members r).id) :
    (w.suspectWithRelays member incarnation relays).Sound := by
  unfold Manager.suspectWithRelays
  split
  · exact h
  · next r =>
    split
    · next haccept =>
      have hidle := hidle r rfl haccept
      generalize hid : (w.members r).id = id at *
      -- the old suspicion can as well be dropped before the change to the member
      have hcommute : (w.updateMember r .suspect incarnation).supersede id =
          (w.supersede id).updateMember r .suspect incarnation := by
        unfold Manager.supersede
        rw [show (w.updateMember r .suspect incarnation).current id = w.current id from rfl]
        cases w.current id <;> rfl
      obtain ⟨hsound, hnone, hmembers, hcallbacks⟩ := h.supersede id
      have hquiet : ∀ n c, (w.supersede id).callbacks n = some c → c.phase ≠ .finished →
          c.memberID ≠ id := by rwa [hcallbacks]
      have hname : ((w.supersede id).members r).id = id := by rw [hmembers, hid]
      have hupdated : ((w.supersede id).updateMember r .suspect incarnation).Sound :=
        hsound.updateMember .suspect incarnation (by rw [hname, hnone])
          fun n c s hc hc' heq => absurd (heq.trans hname) (hquiet n c hc hc')
      have hmember : ((w.supersede id).updateMember r .suspect incarnation).members r =
          ((w.members r).updateState .suspect incarnation).1 := by
        show Function.update (w.supersede id).members r _ r = _
        rw [Function.update_self, hmembers]
      dsimp only
      rw [hcommute]
      refine hupdated.raise hnone ?_ ?_ relays hquiet
      · rw [hmember, Member.updateState_id, hid]
      · rw [hmember, Member.standing_updateState,
          max_eq_right ((Member.updateState_accepts _ _ _).mp haccept)]
    · exact h

theorem setAlive (hc : w.callbacks n = some c)
    (hphase : c.phase = .recovering member) (incarnation : UInt32) :
    ((w.updateMember member .alive incarnation).goTo n c.memberID .finished).Sound := by
  have hc' : c.phase ≠ .finished := by simp [hphase]
  obtain ⟨s, hs, _, _, _, hfollows⟩ := h.callback n c hc hc'
  rw [hphase] at hfollows
  obtain ⟨rfl, hover⟩ := hfollows
  exact h.finish_updateMember hc hc' hs hover .alive incarnation

theorem setDead (hc : w.callbacks n = some c)
    {incarnation : UInt32} (hphase : c.phase = .marked member confirmed incarnation) :
    ((w.updateMember member .dead incarnation).goTo n c.memberID
      (.announcing member confirmed)).Sound := by
  have hc' : c.phase ≠ .finished := by simp [hphase]
  obtain ⟨s, hs, hid, hfired, honly, hfollows⟩ := h.callback n c hc hc'
  rw [hphase] at hfollows
  obtain ⟨rfl, rfl, hdead, hstanding⟩ := hfollows
  have hfinished := h.finish_updateMember hc hc' hs (by simp [hdead]) .dead incarnation
  have hstate : ((w.members s.member).updateState .dead incarnation).1.state = .dead := by
    have hle : (⟨incarnation, .suspect⟩ : Standing) ≤ ⟨incarnation, .dead⟩ :=
      Standing.le_iff.mpr (.inr ⟨rfl, show MemberState.suspect ≤ MemberState.dead by decide⟩)
    rw [Member.updateState_eq, hstanding, if_pos hle]
  have hgoTo : (((w.goTo confirmed c.memberID .finished).updateMember s.member .dead
      incarnation).goTo confirmed c.memberID (.announcing s.member confirmed)).Sound := by
    rw [← hid] at honly hfinished ⊢
    refine hfinished.goTo hs hfired fun _ => ⟨honly, fun k d hd hd' heq => ?_, ?_⟩
    · rcases update_eq_some.mp hd with ⟨hk, _⟩ | ⟨_, hd⟩
      · exact hk
      · exact h.single k confirmed d c hd hc hd' hc' (heq.trans hid)
    refine ⟨rfl, rfl, hdead, ?_⟩
    show (Function.update w.members s.member _ s.member).state = .dead
    rw [Function.update_self]
    exact hstate
  have heq : (w.updateMember s.member .dead incarnation).goTo confirmed c.memberID
      (.announcing s.member confirmed) =
      ((w.goTo confirmed c.memberID .finished).updateMember s.member .dead incarnation).goTo
        confirmed c.memberID (.announcing s.member confirmed) := by
    simp [Manager.goTo, Manager.updateMember, Function.update_idem]
  rw [heq]
  exact hgoTo

end

end Sound

/-- No suspicion of a member is accepted while a timer callback for it is under way. -/
def Admits (w : Manager M) (e : SuspicionEvent M) : Prop :=
  ∀ r incarnation relays, e = .suspectWithRelays (some r) incarnation relays →
    ((w.members r).updateState .suspect incarnation).2 = true →
      ∀ n c, w.callbacks n = some c → c.phase ≠ .finished → c.memberID ≠ (w.members r).id

theorem sound_step [DecidableEq M] (cfg : SuspicionConfig M) (h : w.Sound) {e : SuspicionEvent M}
    (hadmits : w.Admits e) : (w.step cfg e).Sound := by
  cases e with
  | suspectWithRelays member incarnation relays =>
    refine h.suspectWithRelays member incarnation relays fun r hr => ?_
    exact hadmits r incarnation relays (by rw [hr])
  | refute memberID incarnation => exact h.refute memberID incarnation
  | fire n =>
    dsimp only [step]
    split
    · next s hs =>
      split
      · next harmed => exact h.fire hs harmed
      · exact h
    · exact h
  | readRecord n =>
    dsimp only [step]
    split
    · next id hc => exact h.readRecord cfg hc (by simp)
    · exact h
  | probe n reachable =>
    dsimp only [step]
    split
    · next id member relays hc =>
      obtain ⟨s, hs, _, _, _, hfollows⟩ := h.callback n _ hc (by simp)
      have hown : ∀ t, w.suspicions n = some t → member = t.member := fun t ht => by
        cases hs.symm.trans ht
        exact hfollows
      unfold Manager.probe
      split
      · exact h.advance hc (by simp) hown
      · exact h.advance hc (by simp) hown
    · exact h
  | clearRecord n =>
    dsimp only [step]
    split
    · next id member hc => exact h.clearRecord hc rfl
    · exact h
  | setAlive n =>
    dsimp only [step]
    split
    · next id member hc => exact h.setAlive hc rfl _
    · exact h
  | confirmRecord n =>
    dsimp only [step]
    split
    · next id member hc => exact h.confirmRecord hc rfl
    · exact h
  | setDead n =>
    dsimp only [step]
    split
    · next id member confirmed incarnation hc => exact h.setDead hc rfl
    · exact h
  | onDead n =>
    dsimp only [step]
    split
    · next id member confirmed hc => exact h.onDead hc rfl
    · exact h

end Manager

/-- Each `OnDead` is of the suspicion of its member whose timer has fired, and the member is `Dead`,
if none is accepted during a callback. -/
theorem confirmed_by_own_timeout {M : Type} [DecidableEq M] (cfg : SuspicionConfig M)
    (members : M → Member) {events : List (SuspicionEvent M)}
    (hadmits : Along (Manager.step cfg) Manager.Admits (newSuspicionManager members) events) :
    ∀ w ∈ states (Manager.step cfg) (newSuspicionManager members) events, ∀ d ∈ w.deaths,
      d.confirmed = d.caller ∧ d.state = .dead ∧
        ∃ s, w.suspicions d.caller = some s ∧ s.id = d.memberID ∧ s.timer = .fired ∧
          s.fate = .dead := by
  intro w hw d hd
  have hsound : w.Sound :=
    forall_states_of_along (I := Manager.Sound) (fun _ _ h he => Manager.sound_step cfg h he)
      (Manager.sound_new members) hadmits w hw
  exact hsound.deaths d hd

/-- A manager without a prober and with one member. -/
def proberless : SuspicionConfig Unit := ⟨false, 3, by decide, []⟩

def peer : Unit → Member :=
  fun _ => ⟨[98], [2], .alive, 0⟩

/-- A suspicion, its timeout, and the whole of its timer callback. -/
def timeoutRun : List (SuspicionEvent Unit) :=
  [.suspectWithRelays (some ()) 1 [], .fire 0, .readRecord 0, .probe 0 false, .confirmRecord 0,
    .setDead 0, .onDead 0]

/-- The suspicion of the peer times out and is the one that is confirmed. -/
theorem timeoutRun_confirmed :
    (timeoutRun.foldl (Manager.step proberless) (newSuspicionManager peer)).deaths =
        [⟨[98], 0, 0, .dead⟩] ∧
      ∀ w ∈ states (Manager.step proberless) (newSuspicionManager peer) timeoutRun, ∀ d ∈ w.deaths,
        d.confirmed = d.caller ∧ d.state = .dead ∧
          ∃ s, w.suspicions d.caller = some s ∧ s.id = d.memberID ∧ s.timer = .fired ∧
            s.fate = .dead := by
  refine ⟨by decide, confirmed_by_own_timeout proberless peer ?_⟩
  have hfirst : (newSuspicionManager peer).Admits (.suspectWithRelays (some ()) 1 []) :=
    fun _ _ _ _ _ n c hc => nomatch hc
  exact ⟨hfirst, nofun, nofun, nofun, nofun, nofun, nofun, trivial⟩

/-- A newer suspicion that is raised during the indirect probe of an older one. -/
def probeOvertaken : List (SuspicionEvent Unit) :=
  [.suspectWithRelays (some ()) 1 [], .fire 0, .readRecord 0, .suspectWithRelays (some ()) 2 [],
    .probe 0 false, .confirmRecord 0, .setDead 0, .onDead 0]

/-- A newer suspicion that is raised between the second locked section and the change to `Dead`. -/
def deathOvertaken : List (SuspicionEvent Unit) :=
  [.suspectWithRelays (some ()) 1 [], .fire 0, .readRecord 0, .probe 0 false, .confirmRecord 0,
    .suspectWithRelays (some ()) 2 [], .setDead 0, .onDead 0]

/-- `OnDead` is invoked for the newer suspicion by the callback of the older one, or for a
`Suspect`. -/
theorem overtaken_confirmed_early :
    let early := probeOvertaken.foldl (Manager.step proberless) (newSuspicionManager peer)
    let late := deathOvertaken.foldl (Manager.step proberless) (newSuspicionManager peer)
    early.deaths = [⟨[98], 0, 1, .dead⟩] ∧
      (early.suspicions 0).map Suspicion.fate = some .superseded ∧
      (early.suspicions 1).map Suspicion.timer = some .armed ∧
      late.deaths = [⟨[98], 0, 0, .suspect⟩] := by
  decide

end HelixCluster.Swim
