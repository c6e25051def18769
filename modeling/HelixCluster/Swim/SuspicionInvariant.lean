import HelixCluster.Swim.Suspicion

/-!
# The invariant of the suspicion manager

`Sound` holds while no suspicion of a member is accepted during a timer callback for it.
-/

namespace HelixCluster.Swim

open Option

namespace Manager

variable {M : Type}

/-- What the timer callback of suspicion `n` knows in each phase. -/
def Follows (w : Manager M) (n : ℕ) (s : Suspicion M) : Phase M → Prop
  | .started => True
  | .probing member _ => member = s.member
  | .reachable member => member = s.member
  | .recovering member => member = s.member ∧ s.fate ≠ .active
  | .unreachable member => member = s.member
  | .marked member confirmed incarnation =>
    member = s.member ∧ confirmed = n ∧ s.fate = .dead ∧
      (w.members member).standing = ⟨incarnation, .suspect⟩
  | .announcing member confirmed =>
    member = s.member ∧ confirmed = n ∧ s.fate = .dead ∧ (w.members member).state = .dead
  | .finished => True

/-- The invariant of runs in which no suspicion is accepted during a callback for its member. -/
structure Sound (w : Manager M) : Prop where
  fresh : ∀ n, w.next ≤ n → w.suspicions n = none ∧ w.callbacks n = none
  recorded : ∀ id n, w.records.lookup id = some n →
    ∃ s, w.suspicions n = some s ∧ s.id = id ∧ s.fate = .active
  active : ∀ n s, w.suspicions n = some s → s.fate = .active → w.records.lookup s.id = some n ∧
      (w.members s.member).standing = ⟨s.incarnation, .suspect⟩
  named : ∀ n s, w.suspicions n = some s → (w.members s.member).id = s.id
  armed : ∀ n s, w.suspicions n = some s → s.timer = .armed →
    s.fate = .active ∧ w.callbacks n = none
  callback : ∀ n c, w.callbacks n = some c → c.phase ≠ .finished →
    ∃ s, w.suspicions n = some s ∧ s.id = c.memberID ∧ s.timer = .fired ∧
      (∀ k t, w.suspicions k = some t → t.fate = .active → t.id = c.memberID → k = n) ∧
      w.Follows n s c.phase
  single : ∀ n k c d, w.callbacks n = some c → w.callbacks k = some d → c.phase ≠ .finished →
    d.phase ≠ .finished → c.memberID = d.memberID → n = k
  deaths : ∀ d ∈ w.deaths, d.confirmed = d.caller ∧ d.state = .dead ∧
    ∃ s, w.suspicions d.caller = some s ∧ s.id = d.memberID ∧ s.timer = .fired ∧ s.fate = .dead

theorem sound_new (members : M → Member) : (newSuspicionManager members).Sound where
  fresh _ _ := ⟨rfl, rfl⟩
  recorded _ _ h := by cases h
  active _ _ h := by cases h
  named _ _ h := by cases h
  armed _ _ h := by cases h
  callback _ _ h := by cases h
  single _ _ _ _ h := by cases h
  deaths _ h := by cases h

variable {n : ℕ}

theorem update_eq_some {α : Type} {f : ℕ → Option α} {k : ℕ} {a b : α} :
    Function.update f n (some a) k = some b ↔ k = n ∧ b = a ∨ k ≠ n ∧ f k = some b := by
  rw [Function.update_apply]
  by_cases h : k = n
  · simp [h, eq_comm]
  · simp [h]

variable {w : Manager M}

variable {id : Str} {s : Suspicion M}

theorem current_eq_some :
    w.current id = some (n, s) ↔ w.records.lookup id = some n ∧ w.suspicions n = some s := by
  unfold current
  rw [bind_eq_some_iff]
  constructor
  · rintro ⟨k, hk, h⟩
    obtain ⟨t, ht, heq⟩ := map_eq_some_iff.mp h
    cases heq
    exact ⟨hk, ht⟩
  · rintro ⟨hn, hs⟩
    exact ⟨n, hn, map_eq_some_iff.mpr ⟨s, hs, rfl⟩⟩

namespace Sound

section

variable (h : w.Sound)

include h

theorem not_active_of_current_none (hnone : w.current id = none)
    (hs : w.suspicions n = some s) (hid : s.id = id) : s.fate ≠ .active := by
  intro hactive
  have hrecord := (h.active n s hs hactive).1
  rw [hid] at hrecord
  exact some_ne_none (n, s) ((current_eq_some.mpr ⟨hrecord, hs⟩).symm.trans hnone)

theorem of_current (hcurrent : w.current id = some (n, s)) :
    w.suspicions n = some s ∧ s.id = id ∧ s.fate = .active := by
  obtain ⟨hrecord, hs⟩ := current_eq_some.mp hcurrent
  obtain ⟨t, ht, hid, hactive⟩ := h.recorded id n hrecord
  cases hs.symm.trans ht
  exact ⟨hs, hid, hactive⟩

theorem active_unique {k : ℕ} {t : Suspicion M} (hs : w.suspicions n = some s)
    (ht : w.suspicions k = some t) (hsactive : s.fate = .active) (htactive : t.fate = .active)
    (hid : t.id = s.id) : k = n := by
  have hrecord := (h.active k t ht htactive).1
  rw [hid] at hrecord
  exact Option.some.inj (hrecord.symm.trans (h.active n s hs hsactive).1)

theorem lt_next (hs : w.suspicions n = some s) : n < w.next := by
  by_contra hle
  cases hs.symm.trans (h.fresh n (not_lt.mp hle)).1

/-- While a timer is armed, no callback for its member is under way, since it would be its own. -/
theorem idle_of_armed (hs : w.suspicions n = some s) (harmed : s.timer = .armed)
    {k : ℕ} {c : Callback M} (hc : w.callbacks k = some c) (hc' : c.phase ≠ .finished) :
    c.memberID ≠ s.id := by
  intro hid
  obtain ⟨_, _, _, _, honly, _⟩ := h.callback k c hc hc'
  obtain rfl := honly n s hs (h.armed n s hs harmed).1 hid.symm
  cases hc.symm.trans (h.armed n s hs harmed).2

theorem goTo (hs : w.suspicions n = some s) (hfired : s.timer = .fired)
    {phase : Phase M} (hphase : phase ≠ .finished →
      (∀ k t, w.suspicions k = some t → t.fate = .active → t.id = s.id → k = n) ∧
      (∀ k d, w.callbacks k = some d → d.phase ≠ .finished → d.memberID = s.id → k = n) ∧
      w.Follows n s phase) : (w.goTo n s.id phase).Sound := by
  have hcases {k : ℕ} {d : Callback M} (hd : (w.goTo n s.id phase).callbacks k = some d) :
      k = n ∧ d = ⟨s.id, phase⟩ ∨ k ≠ n ∧ w.callbacks k = some d :=
    update_eq_some.mp hd
  have hkept {k : ℕ} (hne : k ≠ n) (hk : w.callbacks k = none) :
      (w.goTo n s.id phase).callbacks k = none :=
    (Function.update_of_ne hne ..).trans hk
  exact
    { h with
      fresh := fun k hk => by
        obtain ⟨hsuspicion, hcallback⟩ := h.fresh k hk
        refine ⟨hsuspicion, hkept ?_ hcallback⟩
        rintro rfl
        cases hs.symm.trans hsuspicion
      armed := fun k t ht harmed => by
        obtain ⟨hactive, hcallback⟩ := h.armed k t ht harmed
        refine ⟨hactive, hkept ?_ hcallback⟩
        rintro rfl
        cases hs.symm.trans ht
        cases hfired.symm.trans harmed
      callback := fun k d hd hd' => by
        rcases hcases hd with ⟨rfl, rfl⟩ | ⟨_, hd⟩
        · obtain ⟨honly, _, hfollows⟩ := hphase hd'
          exact ⟨s, hs, rfl, hfired, honly, hfollows⟩
        · exact h.callback k d hd hd'
      single := fun k l d e hd he hd' he' heq => by
        rcases hcases hd with ⟨rfl, rfl⟩ | ⟨_, hold⟩ <;>
          rcases hcases he with ⟨rfl, rfl⟩ | ⟨_, hother⟩
        · rfl
        · exact ((hphase hd').2.1 l e hother he' heq.symm).symm
        · exact (hphase he').2.1 k d hold hd' heq
        · exact h.single k l d e hold hother hd' he' heq }

theorem advance {c : Callback M} (hc : w.callbacks n = some c)
    (hc' : c.phase ≠ .finished) {phase : Phase M}
    (hfollows : ∀ s, w.suspicions n = some s → w.Follows n s phase) :
    (w.goTo n c.memberID phase).Sound := by
  obtain ⟨s, hs, hid, hfired, honly, _⟩ := h.callback n c hc hc'
  rw [← hid] at honly ⊢
  refine h.goTo hs hfired fun _ => ⟨honly, fun k d hd hd' heq => ?_, hfollows s hs⟩
  exact h.single k n d c hd hc hd' hc' (heq.trans hid)

theorem current_own {c : Callback M} (hc : w.callbacks n = some c)
    (hc' : c.phase ≠ .finished) {cur : ℕ} {entry : Suspicion M}
    (hcurrent : w.current c.memberID = some (cur, entry)) : cur = n := by
  obtain ⟨_, _, _, _, honly, _⟩ := h.callback n c hc hc'
  obtain ⟨hentry, hid, hactive⟩ := h.of_current hcurrent
  exact honly cur entry hentry hactive hid

end

theorem follows_drop {phase : Phase M} (hfollows : w.Follows n s phase) (hactive : s.fate = .active)
    {fate : Fate} (hfate : fate ≠ .active) (timer : Timer) (id : Str) :
    (w.drop id n s fate timer).Follows n { s with fate, timer } phase := by
  cases phase with
  | marked member confirmed i => cases hactive.symm.trans hfollows.2.2.1
  | announcing member confirmed => cases hactive.symm.trans hfollows.2.2.1
  | recovering member => exact ⟨hfollows.1, hfate⟩
  | _ => exact hfollows

section

variable (h : w.Sound)

include h

/-- A suspicion is written, and the record of its member with it. -/
theorem replace {t : Suspicion M} {records : GoMap Str ℕ} {next : ℕ} (hnext : w.next ≤ next)
    (hn : n < next) (hid : ∀ u, w.suspicions n = some u → u.id = t.id)
    (hrecords : ∀ i, records.lookup i =
      if i = t.id then if t.fate = .active then some n else none else w.records.lookup i)
    (hstanding : t.fate = .active → (w.members t.member).standing = ⟨t.incarnation, .suspect⟩)
    (hnamed : (w.members t.member).id = t.id)
    (harmed : t.timer = .armed → t.fate = .active ∧ w.callbacks n = none)
    (hothers : ∀ k u, w.suspicions k = some u → u.fate = .active → u.id = t.id → k = n)
    (hcallback : ∀ c, w.callbacks n = some c → c.phase ≠ .finished →
      t.id = c.memberID ∧ t.timer = .fired ∧ w.Follows n t c.phase)
    (hidle : t.fate = .active → ∀ k c, w.callbacks k = some c → c.phase ≠ .finished →
      c.memberID = t.id → k = n)
    (hdead : ∀ u, w.suspicions n = some u → u.fate ≠ .dead) :
    Sound { w with suspicions := Function.update w.suspicions n (some t), records, next } := by
  have hcases {k : ℕ} {u : Suspicion M} (hu : Function.update w.suspicions n (some t) k = some u) :
      k = n ∧ u = t ∨ k ≠ n ∧ w.suspicions k = some u :=
    update_eq_some.mp hu
  have hother {k : ℕ} {u : Suspicion M} (hk : k ≠ n) (hu : w.suspicions k = some u) :
      Function.update w.suspicions n (some t) k = some u :=
    update_eq_some.mpr (.inr ⟨hk, hu⟩)
  have hself : Function.update w.suspicions n (some t) n = some t := Function.update_self ..
  exact
    { fresh := fun k hk => by
        obtain ⟨hsuspicion, hfresh⟩ := h.fresh k (hnext.trans hk)
        exact ⟨(Function.update_of_ne (hn.trans_le hk).ne' ..).trans hsuspicion, hfresh⟩
      recorded := fun i k hk => by
        rw [hrecords] at hk
        split_ifs at hk with hi hactive
        · cases hk
          exact ⟨t, hself, hi.symm, hactive⟩
        · obtain ⟨u, hu, hui, hua⟩ := h.recorded i k hk
          refine ⟨u, hother ?_ hu, hui, hua⟩
          rintro rfl
          exact hi (hui.symm.trans (hid u hu))
      active := fun k u hu hua => by
        rw [hrecords]
        rcases hcases hu with ⟨rfl, rfl⟩ | ⟨hne, hu⟩
        · exact ⟨by rw [if_pos rfl, if_pos hua], hstanding hua⟩
        · rw [if_neg fun heq => hne (hothers k u hu hua heq)]
          exact h.active k u hu hua
      named := fun k u hu => by
        rcases hcases hu with ⟨_, rfl⟩ | ⟨_, hu⟩
        · exact hnamed
        · exact h.named k u hu
      armed := fun k u hu huarmed => by
        rcases hcases hu with ⟨rfl, rfl⟩ | ⟨_, hu⟩
        · exact harmed huarmed
        · exact h.armed k u hu huarmed
      callback := fun k c hc hc' => by
        obtain ⟨u, hu, hname, hfired, honly, hfollows⟩ := h.callback k c hc hc'
        have honly' : ∀ j v, Function.update w.suspicions n (some t) j = some v →
            v.fate = .active → v.id = c.memberID → j = k := fun j v hv hva heq => by
          rcases hcases hv with ⟨rfl, rfl⟩ | ⟨_, hv⟩
          · exact (hidle hva k c hc hc' heq.symm).symm
          · exact honly j v hv hva heq
        rcases eq_or_ne k n with rfl | hk
        · obtain ⟨hmember, htimer, hphase⟩ := hcallback c hc hc'
          exact ⟨t, hself, hmember, htimer, honly', hphase⟩
        · exact ⟨u, hother hk hu, hname, hfired, honly', hfollows⟩
      single := h.single
      deaths := fun d hd => by
        obtain ⟨hconfirmed, hstate, u, hu, hname, hfired, hudead⟩ := h.deaths d hd
        exact ⟨hconfirmed, hstate, u, hother (fun heq => hdead u (heq ▸ hu) hudead) hu, hname,
          hfired, hudead⟩ }

theorem drop (hcurrent : w.current id = some (n, s)) {fate : Fate}
    (hfate : fate ≠ .active) {timer : Timer} (harmed : timer ≠ .armed)
    (hfired : s.timer = .fired → timer = .fired) : (w.drop id n s fate timer).Sound := by
  obtain ⟨hs, rfl, hactive⟩ := h.of_current hcurrent
  have hsame {u : Suspicion M} (hu : w.suspicions n = some u) : u = s :=
    Option.some.inj (hu.symm.trans hs)
  refine h.replace le_rfl (h.lt_next hs) (fun u hu => hsame hu ▸ rfl) (fun i => ?_)
    (fun heq => absurd heq hfate) (h.named n s hs) (fun heq => absurd heq harmed)
    (fun k u hu hua heq => h.active_unique hs hu hactive hua heq) (fun c hc hc' => ?_)
    (fun heq => absurd heq hfate) fun u hu => hsame hu ▸ hactive ▸ Fate.noConfusion
  · rw [if_neg hfate]
    exact GoMap.lookup_erase_if w.records s.id i
  · obtain ⟨u, hu, hname, hufired, _, hfollows⟩ := h.callback n c hc hc'
    obtain rfl := hsame hu
    exact ⟨hname, hfired hufired, follows_drop hfollows hactive hfate timer u.id⟩

theorem drop_stop (hcurrent : w.current id = some (n, s)) {fate : Fate}
    (hfate : fate ≠ .active) : (w.drop id n s fate s.timer.stop).Sound := by
  refine h.drop hcurrent hfate ?_ fun hfired => ?_
  · cases s.timer <;> decide
  · rw [hfired]
    rfl

theorem supersede (id : Str) :
    (w.supersede id).Sound ∧ (w.supersede id).records.lookup id = none ∧
      (w.supersede id).members = w.members ∧ (w.supersede id).callbacks = w.callbacks := by
  unfold Manager.supersede
  split
  · next old s hcurrent =>
    refine ⟨h.drop_stop hcurrent (by decide), ?_, rfl, rfl⟩
    show (w.records.erase id).lookup id = none
    rw [GoMap.lookup_erase_if, if_pos rfl]
  · next hcurrent =>
    refine ⟨h, ?_, rfl, rfl⟩
    rw [eq_none_iff_forall_ne_some]
    intro n hn
    obtain ⟨s, hs, _⟩ := h.recorded id n hn
    cases hcurrent.symm.trans (current_eq_some.mpr ⟨hn, hs⟩)

theorem raise (hnone : w.records.lookup id = none) {r : M}
    (hid : (w.members r).id = id) {incarnation : UInt32}
    (hstanding : (w.members r).standing = ⟨incarnation, .suspect⟩) (relays : List (Option M))
    (hidle : ∀ n c, w.callbacks n = some c → c.phase ≠ .finished → c.memberID ≠ id) :
    (w.raise id r incarnation relays).Sound := by
  obtain ⟨hfresh, hcallback⟩ := h.fresh w.next le_rfl
  refine h.replace (Nat.le_succ _) (Nat.lt_succ_self _) (fun u hu => ?_)
    (GoMap.lookup_insert_if w.records id · w.next) (fun _ => hstanding) hid
    (fun _ => ⟨rfl, hcallback⟩) (fun k u hu hua heq => ?_) (fun c hc => ?_)
    (fun _ k c hc hc' heq => absurd heq (hidle k c hc hc')) fun u hu => ?_
  · cases hfresh.symm.trans hu
  · have hrecord := (h.active k u hu hua).1
    rw [show u.id = id from heq, hnone] at hrecord
    cases hrecord
  · cases hcallback.symm.trans hc
  · cases hfresh.symm.trans hu

theorem fire (hs : w.suspicions n = some s) (harmed : s.timer = .armed) : (w.fire n s).Sound := by
  obtain ⟨hactive, hnone⟩ := h.armed n s hs harmed
  have hidle {k : ℕ} {c : Callback M} := h.idle_of_armed hs harmed (k := k) (c := c)
  have hsame {u : Suspicion M} (hu : w.suspicions n = some u) : u = s :=
    Option.some.inj (hu.symm.trans hs)
  have hfired : Sound { w with
      suspicions := Function.update w.suspicions n (some { s with timer := .fired }) } := by
    obtain ⟨hrecord, hstanding⟩ := h.active n s hs hactive
    refine h.replace le_rfl (h.lt_next hs) (fun u hu => hsame hu ▸ rfl) (fun i => ?_)
      (fun _ => hstanding) (h.named n s hs) Timer.noConfusion
      (fun k u hu hua heq => h.active_unique hs hu hactive hua heq) (fun c hc => ?_)
      (fun _ k c hc hc' heq => absurd heq (hidle hc hc'))
      fun u hu => hsame hu ▸ hactive ▸ Fate.noConfusion
    · rw [if_pos hactive]
      split
      · next hi => rw [hi, hrecord]
      · rfl
    · cases hnone.symm.trans hc
  have hs' : Function.update w.suspicions n (some { s with timer := .fired }) n =
      some { s with timer := .fired } :=
    Function.update_self ..
  refine hfired.goTo hs' rfl fun _ => ⟨fun k t ht hta hid => ?_, fun k d hd hd' hid => ?_, trivial⟩
  · exact hfired.active_unique hs' ht hactive hta hid
  · exact absurd hid (hidle hd hd')

variable [DecidableEq M]

theorem updateMember {r : M} (state : MemberState) (incarnation : UInt32)
    (hnone : w.records.lookup (w.members r).id = none)
    (hquiet : ∀ n c s, w.callbacks n = some c → c.phase ≠ .finished →
      c.memberID = (w.members r).id → w.suspicions n = some s → s.fate ≠ .dead) :
    (w.updateMember r state incarnation).Sound := by
  have hsame {x : M} (hx : x ≠ r) : (w.updateMember r state incarnation).members x = w.members x :=
    Function.update_of_ne hx ..
  have hid (x : M) : ((w.updateMember r state incarnation).members x).id = (w.members x).id := by
    rcases eq_or_ne x r with rfl | hx
    · show (Function.update w.members x _ x).id = _
      rw [Function.update_self, Member.updateState_id]
    · rw [hsame hx]
  refine ⟨h.fresh, h.recorded, fun n s hs hfate => ?active, fun n s hs => ?named, h.armed,
    fun n c hc hc' => ?callback, h.single, h.deaths⟩
  case active =>
    have hactive := h.active n s hs hfate
    have hne : s.member ≠ r := fun heq => by
      rw [← h.named n s hs, heq, hnone] at hactive
      cases hactive.1
    rw [hsame hne]
    exact hactive
  case named =>
    rw [hid]
    exact h.named n s hs
  case callback =>
    obtain ⟨s, hs, hname, hfired, honly, hfollows⟩ := h.callback n c hc hc'
    refine ⟨s, hs, hname, hfired, honly, ?_⟩
    have hne (hdead : s.fate = .dead) : s.member ≠ r := fun heq => by
      refine hquiet n c s hc hc' ?_ hs hdead
      rw [← hname, ← h.named n s hs, heq]
    generalize c.phase = phase at *
    -- only the phases after the mark look at the member
    cases phase with
    | marked member confirmed i =>
      obtain ⟨rfl, hconfirmed, hdead, hstanding⟩ := hfollows
      refine ⟨rfl, hconfirmed, hdead, ?_⟩
      rw [hsame (hne hdead)]
      exact hstanding
    | announcing member confirmed =>
      obtain ⟨rfl, hconfirmed, hdead, hstate⟩ := hfollows
      refine ⟨rfl, hconfirmed, hdead, ?_⟩
      rw [hsame (hne hdead)]
      exact hstate
    | _ => exact hfollows

theorem finish_updateMember {c : Callback M} (hc : w.callbacks n = some c)
    (hc' : c.phase ≠ .finished) (hs : w.suspicions n = some s) (hover : s.fate ≠ .active)
    (state : MemberState) (incarnation : UInt32) :
    ((w.goTo n c.memberID .finished).updateMember s.member state incarnation).Sound := by
  obtain ⟨s', hs', hid, _, honly, _⟩ := h.callback n c hc hc'
  cases hs.symm.trans hs'
  have hname : (w.members s.member).id = c.memberID := (h.named n s hs).trans hid
  have hfinished : (w.goTo n c.memberID .finished).Sound := h.advance hc hc' fun _ _ => trivial
  refine hfinished.updateMember state incarnation ?_ fun k d t hd hd' heq ht => ?_
  · show w.records.lookup (w.members s.member).id = none
    rw [hname, eq_none_iff_forall_ne_some]
    intro k hk
    obtain ⟨t, ht, htid, hta⟩ := h.recorded c.memberID k hk
    obtain rfl := honly k t ht hta htid
    cases hs.symm.trans ht
    exact hover hta
  rcases update_eq_some.mp hd with ⟨_, rfl⟩ | ⟨hne, hd⟩
  · exact absurd rfl hd'
  · exact absurd (h.single k n d c hd hc hd' hc' (heq.trans hname)) hne

end

end Sound

end Manager

end HelixCluster.Swim
