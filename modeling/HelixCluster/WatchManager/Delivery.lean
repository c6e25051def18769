import HelixCluster.Lib.Runs
import HelixCluster.WatchManager.Manager

/-!
# What a watcher receives

A run is any sequence of `Put`, `Watch`, `Sync` and of receives by the consumers.
-/

namespace HelixCluster.WatchManager

open GoMap List

/-- The events that a watch on a prefix from a revision is about. -/
def matching (start : ℤ) (keyPrefix : Str) (events : List Event) : List Event :=
  events.filter fun ev => start ≤ ev.revision ∧ keyPrefix <+: ev.key

/-- A call, or a receive from the channel of a watcher. -/
inductive Call where
  | put (key value : Str) (tick : ℤ)
  | watch (keyPrefix : Str) (fromRev bufSize : ℤ)
  | sync
  | receive (id : ℕ)

/-- The manager, with the prefix, the revision and the received events of each watcher. -/
structure World where
  manager : Manager
  asked : ℕ → Str × ℤ
  received : ℕ → List Event

namespace World

/-- A new manager. -/
def start : World := ⟨.new, fun _ => ([], 0), fun _ => []⟩

/-- The manager takes a call. -/
def step (w : World) : Call → World
  | .put key value tick => { w with manager := w.manager.put key value tick }
  | .watch keyPrefix fromRev bufSize =>
    let r := w.manager.watch keyPrefix fromRev bufSize
    { w with manager := r.1, asked := Function.update w.asked r.2 (keyPrefix, fromRev) }
  | .sync => { w with manager := w.manager.sync.1 }
  | .receive id =>
    let r := w.manager.receive id
    { w with
      manager := r.1
      received := Function.update w.received id (w.received id ++ r.2.toList) }

/-- The revision from which a watcher is to be served. -/
def startRev (w : World) (id : ℕ) : ℤ := max (w.asked id).2 1

/-- The events so far that a watcher is to receive. -/
def matching (w : World) (id : ℕ) : List Event :=
  WatchManager.matching (w.startRev id) (w.asked id).1 w.manager.store

/-- The events in the channel of a watcher. -/
def pending (w : World) (id : ℕ) : List Event := (w.manager.watchers.lookup id).elim [] Watcher.c

/-- A watcher sees exactly its events. -/
structure SeesItsEvents (w : World) (id : ℕ) : Prop where
  events : w.received id ++ w.pending id <+: w.matching id
  increasing : ((w.received id ++ w.pending id).map Event.revision).Pairwise (· < ·)
  one_group : ∃! group, id ∈ w.manager.members group
  drained : (w.step .sync).pending id = [] → (w.step .sync).received id = (w.step .sync).matching id

/-- No watcher asked for a later revision than that of the `Put`, with a prefix of its key. -/
def NotEarly (w : World) : Call → Prop
  | .put key _ _ => ∀ id ∈ w.manager.watchers,
      (w.asked id).1 <+: key → w.startRev id ≤ w.manager.currentRev + 1
  | _ => True

end World

/-! ### One watcher -/

variable {store front back evs : List Event} {currentRev start : ℤ} {received : List Event}
  {w : Watcher} {ev : Event}

theorem matching_append (start : ℤ) (keyPrefix : Str) (xs ys : List Event) :
    matching start keyPrefix (xs ++ ys) =
      matching start keyPrefix xs ++ matching start keyPrefix ys :=
  filter_append ..

theorem matching_eq_nil {keyPrefix : Str} (h : ∀ ev ∈ evs, ev.revision < start) :
    matching start keyPrefix evs = [] := by
  refine filter_eq_nil_iff.mpr fun ev hev => ?_
  have := h ev hev
  simp
  omega

/-- What a watcher has received and has in its channel, and where its cursor is. -/
structure Watcher.Sound (store : List Event) (currentRev start : ℤ) (received : List Event)
    (w : Watcher) : Prop where
  delivered : received ++ w.c =
    matching start w.keyPrefix (store.filter fun ev => ev.revision < w.nextRev)
  start_pos : 1 ≤ start
  bufSize_pos : 1 ≤ w.bufSize
  synced : w.group = .synced →
    w.nextRev = currentRev + 1 ∨ w.nextRev = start ∧ currentRev + 1 < start
  behind : w.group ≠ .synced → start ≤ currentRev ∧ start ≤ w.nextRev ∧ w.nextRev ≤ currentRev + 1

/-- The store has one event for each revision, in order. -/
structure Recorded (store : List Event) (currentRev : ℤ) : Prop where
  nonneg : 0 ≤ currentRev
  sorted : store.Pairwise fun a b => a.revision < b.revision
  bounded : ∀ ev ∈ store, ev.revision ≤ currentRev
  complete : ∀ r, 1 ≤ r → r ≤ currentRev → ∃ ev ∈ store, ev.revision = r

theorem Recorded.append (h : Recorded store currentRev) (hev : ev.revision = currentRev + 1) :
    Recorded (store ++ [ev]) (currentRev + 1) where
  nonneg := by have := h.nonneg; omega
  sorted := by
    refine pairwise_append.mpr ⟨h.sorted, pairwise_singleton _ _, fun a ha b hb => ?_⟩
    have := h.bounded a ha
    rw [mem_singleton.mp hb, hev]
    omega
  bounded := by
    intro a ha
    rcases mem_append.mp ha with ha | ha
    · have := h.bounded a ha
      omega
    · rw [mem_singleton.mp ha, hev]
  complete := by
    intro r hpos hle
    rcases Int.lt_or_eq_of_le hle with hlt | rfl
    · obtain ⟨a, ha, hr⟩ := h.complete r hpos (by omega)
      exact ⟨a, mem_append_left _ ha, hr⟩
    · exact ⟨ev, by simp, hev⟩

theorem filter_lt_eq_self {bound : ℤ} (h : ∀ ev ∈ evs, ev.revision < bound) :
    (evs.filter fun ev => ev.revision < bound) = evs :=
  filter_eq_self.mpr fun ev hev => decide_eq_true (h ev hev)

theorem filter_lt_eq_nil {bound : ℤ} (h : ∀ ev ∈ evs, bound ≤ ev.revision) :
    (evs.filter fun ev => ev.revision < bound) = [] :=
  filter_eq_nil_iff.mpr fun ev hev => by simpa using h ev hev

theorem Recorded.split (h : Recorded store currentRev) (rev : ℤ) :
    ∃ front, store = front ++ store.drop (indexAtOrAfter store rev) ∧
      (∀ ev ∈ front, ev.revision < rev) ∧
      ∀ ev ∈ store.drop (indexAtOrAfter store rev), rev ≤ ev.revision := by
  have hmono : store.Pairwise fun a b =>
      decide (b.revision < rev) = true → decide (a.revision < rev) = true :=
    h.sorted.imp fun hlt hb => by
      simp only [decide_eq_true_eq] at hb ⊢
      omega
  obtain ⟨front, back, hsplit, hlength, hfront, hback⟩ := searchSlice_split hmono
  have hdrop : store.drop (indexAtOrAfter store rev) = back := by
    unfold indexAtOrAfter
    rw [← hlength, hsplit, drop_left]
  rw [hdrop]
  exact ⟨front, hsplit, fun ev hev => by simpa using hfront ev hev,
    fun ev hev => by simpa using hback ev hev⟩

theorem Recorded.filter_lt_isPrefix (h : Recorded store currentRev) (rev : ℤ) :
    (store.filter fun ev => ev.revision < rev) <+: store := by
  obtain ⟨front, hsplit, hfront, hback⟩ := h.split rev
  have heq : (store.filter fun ev => ev.revision < rev) = front := by
    nth_rewrite 1 [hsplit]
    rw [filter_append, filter_lt_eq_self hfront, filter_lt_eq_nil hback, append_nil]
  exact ⟨_, (heq ▸ hsplit).symm⟩

theorem Watcher.offer_of_not_matching (hkey : ¬ w.keyPrefix <+: ev.key) :
    w.offer ev = { w with nextRev := ev.revision + 1 } := by
  rw [Watcher.offer, if_pos hkey]

theorem Watcher.offer_of_room (hkey : w.keyPrefix <+: ev.key)
    (hroom : (w.c.length : ℤ) < w.bufSize) :
    w.offer ev = { w with c := w.c ++ [ev], nextRev := ev.revision + 1 } := by
  rw [Watcher.offer, if_neg (not_not.mpr hkey), Watcher.trySend, if_pos hroom]

theorem Watcher.offer_of_full (hkey : w.keyPrefix <+: ev.key)
    (hfull : ¬ (w.c.length : ℤ) < w.bufSize) : w.offer ev = { w with group := .unsynced } := by
  rw [Watcher.offer, if_neg (not_not.mpr hkey), Watcher.trySend, if_neg hfull]

theorem Watcher.offer_keyPrefix (w : Watcher) (ev : Event) :
    (w.offer ev).keyPrefix = w.keyPrefix := by
  by_cases hkey : w.keyPrefix <+: ev.key
  · by_cases hroom : (w.c.length : ℤ) < w.bufSize
    · rw [offer_of_room hkey hroom]
    · rw [offer_of_full hkey hroom]
  · rw [offer_of_not_matching hkey]

namespace Watcher.Sound

section

variable (h : w.Sound store currentRev start received)

include h

theorem lt_nextRev (hstore : Recorded store currentRev)
    (hsynced : w.group = .synced) : ∀ ev ∈ store, ev.revision < w.nextRev := by
  intro ev hev
  have := hstore.bounded ev hev
  have := h.synced hsynced
  omega

theorem caught_up (hstore : Recorded store currentRev)
    (hsynced : w.group = .synced) : received ++ w.c = matching start w.keyPrefix store := by
  rw [h.delivered, filter_lt_eq_self (h.lt_nextRev hstore hsynced)]

theorem append (hbehind : w.group ≠ .synced) (hev : ev.revision = currentRev + 1) :
    w.Sound (store ++ [ev]) (currentRev + 1) start received where
  delivered := by
    obtain ⟨_, _, hnext⟩ := h.behind hbehind
    have hlater : ([ev].filter fun ev => ev.revision < w.nextRev) = [] :=
      filter_lt_eq_nil fun a ha => by rw [mem_singleton.mp ha]; omega
    rw [filter_append, hlater, append_nil, h.delivered]
  start_pos := h.start_pos
  bufSize_pos := h.bufSize_pos
  synced hsynced := absurd hsynced hbehind
  behind _ := by
    have := h.behind hbehind
    omega

theorem offer (hstore : Recorded store currentRev)
    (hsynced : w.group = .synced) (hev : ev.revision = currentRev + 1)
    (hearly : w.keyPrefix <+: ev.key → start ≤ ev.revision) :
    (w.offer ev).Sound (store ++ [ev]) (currentRev + 1) start received := by
  have hall : ∀ a ∈ store ++ [ev], a.revision < ev.revision + 1 := by
    intro a ha
    have := (hstore.append hev).bounded a ha
    omega
  have hcaught := h.caught_up hstore hsynced
  by_cases hkey : w.keyPrefix <+: ev.key
  · by_cases hroom : (w.c.length : ℤ) < w.bufSize
    · rw [offer_of_room hkey hroom]
      refine ⟨?_, h.start_pos, h.bufSize_pos, fun _ => .inl (by rw [hev]), fun hne => absurd hsynced hne⟩
      rw [filter_lt_eq_self hall, matching_append, ← hcaught, ← append_assoc]
      simp [matching, hkey, hearly hkey]
    · -- The channel is full: the cursor stays at this event.
      have hstart := hearly hkey
      have hnext : w.nextRev = currentRev + 1 := by
        have := h.synced hsynced
        omega
      have hlater : ([ev].filter fun ev => ev.revision < w.nextRev) = [] :=
        filter_lt_eq_nil fun a ha => by rw [mem_singleton.mp ha]; omega
      rw [offer_of_full hkey hroom]
      refine ⟨?_, h.start_pos, h.bufSize_pos, fun hgroup => (by cases hgroup), fun _ => ?_⟩
      · show received ++ w.c = matching start w.keyPrefix _
        rw [filter_append, hlater, append_nil, h.delivered]
      · show start ≤ _ ∧ start ≤ w.nextRev ∧ w.nextRev ≤ _
        omega
  · rw [offer_of_not_matching hkey]
    refine ⟨?_, h.start_pos, h.bufSize_pos, fun _ => .inl (by rw [hev]), fun hne => absurd hsynced hne⟩
    rw [filter_lt_eq_self hall, matching_append, ← hcaught]
    simp [matching, hkey]

theorem of_early (hstore : Recorded store currentRev)
    (hstart : currentRev < start) : w.group = .synced ∧ received ++ w.c = [] := by
  have hsynced : w.group = .synced := by
    by_contra hbehind
    have := h.behind hbehind
    omega
  refine ⟨hsynced, ?_⟩
  rw [h.caught_up hstore hsynced]
  refine matching_eq_nil fun ev hev => ?_
  have := hstore.bounded ev hev
  omega

end

end Watcher.Sound

/-! ### A replay -/

/-- Where a replay is: everything in `front` is served, and nothing in `back`. -/
structure Reached (currentRev start : ℤ) (received front back : List Event) (w : Watcher) : Prop where
  served : ∀ ev ∈ front, ev.revision < w.nextRev
  ahead : ∀ ev ∈ back, w.nextRev ≤ ev.revision
  delivered : received ++ w.c = matching start w.keyPrefix front
  bufSize_pos : 1 ≤ w.bufSize
  start_le : start ≤ w.nextRev
  nextRev_le : w.nextRev ≤ currentRev + 1

namespace Reached

theorem advance (h : Reached currentRev start received front (ev :: back) w)
    (hstore : Recorded (front ++ ev :: back) currentRev) {c : List Event}
    (hc : c = w.c ++ matching start w.keyPrefix [ev]) :
    Reached currentRev start received (front ++ [ev]) back
      { w with c := c, nextRev := ev.revision + 1 } where
  served := by
    intro a ha
    show a.revision < ev.revision + 1
    rcases mem_append.mp ha with ha | ha
    · have := h.served a ha
      have := h.ahead ev mem_cons_self
      omega
    · rw [mem_singleton.mp ha]
      omega
  ahead := by
    intro a ha
    have hlt := (pairwise_cons.mp (pairwise_append.mp hstore.sorted).2.1).1 a ha
    show ev.revision + 1 ≤ a.revision
    omega
  delivered := by
    show received ++ c = matching start w.keyPrefix (front ++ [ev])
    rw [matching_append, ← h.delivered, hc, append_assoc]
  bufSize_pos := h.bufSize_pos
  start_le := by
    have := h.start_le
    have := h.ahead ev mem_cons_self
    show start ≤ ev.revision + 1
    omega
  nextRev_le := by
    have := hstore.bounded ev (by simp)
    show ev.revision + 1 ≤ currentRev + 1
    omega

theorem replay (h : Reached currentRev start received front back w)
    (hstore : Recorded (front ++ back) currentRev) (n : ℕ) :
    ∃ front' back', front' ++ back' = front ++ back ∧
      Reached currentRev start received front' back' (replay back w n).watcher ∧
      (replay back w n).watcher.keyPrefix = w.keyPrefix ∧
      ((replay back w n).overflowed = false → back' = []) ∧
      ((replay back w n).overflowed = true → (replay back w n).watcher.c ≠ []) := by
  induction back generalizing front w n with
  | nil => exact ⟨front, [], rfl, h, rfl, fun _ => rfl, fun hover => (by cases hover)⟩
  | cons ev back ih =>
    have hsplit : front ++ ev :: back = (front ++ [ev]) ++ back := by simp
    unfold WatchManager.replay
    by_cases hkey : w.keyPrefix <+: ev.key
    · rw [if_neg (not_not.mpr hkey)]
      unfold Watcher.trySend
      by_cases hroom : (w.c.length : ℤ) < w.bufSize
      · have hstart : start ≤ ev.revision := h.start_le.trans (h.ahead ev mem_cons_self)
        have hnext := h.advance hstore (c := w.c ++ [ev]) (by simp [matching, hkey, hstart])
        rw [if_pos hroom, hsplit]
        exact ih hnext (hsplit ▸ hstore) (n + 1)
      rw [if_neg hroom]
      refine ⟨front, ev :: back, rfl, h, rfl, fun hover => (by cases hover), fun _ hnil => hroom ?_⟩
      have := h.bufSize_pos
      have hnil : w.c = [] := hnil
      rw [hnil]
      show (0 : ℤ) < _
      omega
    · have hnext := h.advance hstore (c := w.c) (by simp [matching, hkey])
      rw [if_pos hkey, hsplit]
      exact ih hnext (hsplit ▸ hstore) n

end Reached

namespace Watcher.Sound

section

variable (h : w.Sound store currentRev start received) (hstore : Recorded store currentRev) (hbehind : w.group ≠ .synced)

include h hstore hbehind

theorem reached : ∃ front, store = front ++ store.drop (indexAtOrAfter store w.nextRev) ∧
      Reached currentRev start received front (store.drop (indexAtOrAfter store w.nextRev)) w := by
  obtain ⟨front, hsplit, hserved, hahead⟩ := hstore.split w.nextRev
  obtain ⟨_, hstart, hnext⟩ := h.behind hbehind
  refine ⟨front, hsplit, hserved, hahead, ?_, h.bufSize_pos, hstart, hnext⟩
  rw [h.delivered]
  nth_rewrite 1 [hsplit]
  rw [filter_append, filter_lt_eq_self hserved, filter_lt_eq_nil hahead, append_nil]

theorem catchUp : (w.catchUp store currentRev).Sound store currentRev start received ∧
      (w.catchUp store currentRev).keyPrefix = w.keyPrefix ∧
      ((w.catchUp store currentRev).group = .synced ∨ (w.catchUp store currentRev).c ≠ []) := by
  obtain ⟨front, hsplit, hreached⟩ := h.reached hstore hbehind
  obtain ⟨front', back', hsplit', hend, hinitial, hdone, hfull⟩ := hreached.replay (hsplit ▸ hstore) 0
  rw [← hsplit] at hsplit'
  unfold Watcher.catchUp
  generalize replay (store.drop (indexAtOrAfter store w.nextRev)) w 0 = r at *
  have hstart := (h.behind hbehind).1
  have hstart' := hend.start_le
  have hnext := hend.nextRev_le
  have hdelivered : received ++ r.watcher.c = matching start r.watcher.keyPrefix
      (store.filter fun ev => ev.revision < r.watcher.nextRev) := by
    rw [hend.delivered, ← hsplit', filter_append, filter_lt_eq_self hend.served,
      filter_lt_eq_nil hend.ahead, append_nil]
  -- Without an overflow the cursor is past all events, and the `default` case does not come up.
  have hgroup : r.group currentRev = .synced ∧ currentRev < r.watcher.nextRev ∨
      r.group currentRev = .victim ∧ r.watcher.c ≠ [] := by
    unfold Replay.group
    cases hover : r.overflowed with
    | true => exact .inr ⟨rfl, hfull hover⟩
    | false =>
      have hpast : currentRev < r.watcher.nextRev := by
        by_contra hle
        have hpos := h.start_pos
        obtain ⟨ev, hev, hrev⟩ := hstore.complete r.watcher.nextRev (by omega) (by omega)
        rw [← hsplit', hdone hover, append_nil] at hev
        have := hend.served ev hev
        omega
      exact .inl ⟨if_pos hpast, hpast⟩
  refine ⟨⟨hdelivered, h.start_pos, hend.bufSize_pos, fun hsynced => ?_,
    fun _ => ⟨hstart, hstart', hnext⟩⟩, hinitial, ?_⟩
  · rcases hgroup with ⟨_, hpast⟩ | ⟨hvictim, _⟩
    · exact .inl (show r.watcher.nextRev = currentRev + 1 by omega)
    · exact absurd (hvictim.symm.trans hsynced) (by simp)
  · exact hgroup.imp And.left And.right

end

theorem new (currentRev : ℤ) (store : List Event) (keyPrefix : Str) (fromRev bufSize : ℤ) :
    (Watcher.new currentRev keyPrefix fromRev bufSize).Sound store currentRev (max fromRev 1) [] := by
  have hnext : (Watcher.new currentRev keyPrefix fromRev bufSize).nextRev = max fromRev 1 := by
    unfold Watcher.new
    grind
  refine ⟨?_, by omega, ?_, ?_, ?_⟩
  · rw [hnext]
    exact (matching_eq_nil fun ev hev => by simpa using (mem_filter.mp hev).2).symm
  · unfold Watcher.new
    grind
  · intro hgroup
    unfold Watcher.new at *
    grind
  intro hgroup
  unfold Watcher.new at *
  grind

theorem receive {c : List Event} (h : w.Sound store currentRev start received)
    (hc : w.c = ev :: c) :
    Watcher.Sound store currentRev start (received ++ [ev]) { w with c := c } := by
  refine ⟨?_, h.start_pos, h.bufSize_pos, h.synced, h.behind⟩
  rw [← h.delivered, hc, append_assoc]
  rfl

end Watcher.Sound

/-! ### Runs -/

namespace World

variable {w : World} {id : ℕ} {watcher : Watcher}

/-- The maps are in order, the store is complete, and all watchers are where they should be. -/
structure Linked (w : World) : Prop where
  filed : w.manager.Filed
  known : ∀ id watcher, w.manager.watchers.lookup id = some watcher → id ≤ w.manager.nextWatcherID
  unread : ∀ id, w.manager.nextWatcherID < id → w.received id = []
  recorded : Recorded w.manager.store w.manager.currentRev
  keyPrefix : ∀ id watcher, w.manager.watchers.lookup id = some watcher →
    watcher.keyPrefix = (w.asked id).1
  sound : ∀ id watcher, w.manager.watchers.lookup id = some watcher →
    watcher.Sound w.manager.store w.manager.currentRev (w.startRev id) (w.received id)

theorem linked_start : World.start.Linked where
  filed _ := rfl
  known _ _ hlookup := by cases hlookup
  unread _ _ := rfl
  recorded := ⟨le_refl _, List.Pairwise.nil, fun _ hev => (by cases hev), fun r hpos hle => by
    have hle : r ≤ 0 := hle
    omega⟩
  keyPrefix _ _ hlookup := by cases hlookup
  sound _ _ hlookup := by cases hlookup

theorem Linked.update (h : w.Linked) {m : Manager} (hfiled : m.Filed)
    (hrecorded : Recorded m.store m.currentRev)
    (hnext : m.nextWatcherID = w.manager.nextWatcherID)
    (hold : ∀ id watcher', m.watchers.lookup id = some watcher' →
      ∃ watcher, w.manager.watchers.lookup id = some watcher ∧
        watcher'.Sound m.store m.currentRev (w.startRev id) (w.received id) ∧
        watcher'.keyPrefix = watcher.keyPrefix) : Linked { w with manager := m } where
  filed := hfiled
  known id watcher' hlookup := by
    obtain ⟨watcher, hwatcher, _⟩ := hold id watcher' hlookup
    exact hnext ▸ h.known id watcher hwatcher
  unread id hid := h.unread id (hnext ▸ hid)
  recorded := hrecorded
  keyPrefix id watcher' hlookup := by
    obtain ⟨watcher, hwatcher, _, hinitial⟩ := hold id watcher' hlookup
    exact hinitial.trans (h.keyPrefix id watcher hwatcher)
  sound id watcher' hlookup := by
    obtain ⟨_, _, hsound, _⟩ := hold id watcher' hlookup
    exact hsound

theorem Linked.put (h : w.Linked) (key value : Str) (tick : ℤ)
    (hearly : w.NotEarly (.put key value tick)) : (w.step (.put key value tick)).Linked := by
  obtain ⟨hstore, hrev, hnext⟩ := w.manager.put_frame key value tick
  refine h.update (h.filed.put key value tick) ?_ hnext ?_
  · rw [hstore, hrev]
    exact h.recorded.append rfl
  intro id watcher' hlookup
  rw [Manager.lookup_put h.filed] at hlookup
  obtain ⟨watcher, hwatcher, rfl⟩ := Option.map_eq_some_iff.mp hlookup
  have hsound := h.sound id watcher hwatcher
  refine ⟨watcher, hwatcher, ?_⟩
  rw [hstore, hrev]
  split_ifs with hsynced
  · refine ⟨hsound.offer h.recorded hsynced rfl fun hkey => ?_, watcher.offer_keyPrefix _⟩
    have hmem : id ∈ w.manager.watchers := mem_of_lookup hwatcher
    exact hearly id hmem (h.keyPrefix id watcher hwatcher ▸ hkey)
  · exact ⟨hsound.append hsynced rfl, rfl⟩

theorem Linked.sync_done (h : w.Linked) {watcher' : Watcher}
    (hlookup : w.manager.sync.1.watchers.lookup id = some watcher') :
    ∃ watcher, w.manager.watchers.lookup id = some watcher ∧
      watcher'.Sound w.manager.store w.manager.currentRev (w.startRev id) (w.received id) ∧
      watcher'.keyPrefix = watcher.keyPrefix ∧ (watcher'.group = .synced ∨ watcher'.c ≠ []) := by
  rw [Manager.lookup_sync h.filed] at hlookup
  obtain ⟨watcher, hwatcher, rfl⟩ := Option.map_eq_some_iff.mp hlookup
  have hsound := h.sound id watcher hwatcher
  refine ⟨watcher, hwatcher, ?_⟩
  split_ifs with hsynced
  · exact ⟨hsound, rfl, .inl hsynced⟩
  · exact hsound.catchUp h.recorded hsynced

theorem Linked.sync (h : w.Linked) : (w.step .sync).Linked := by
  obtain ⟨hstore, hrev, hnext⟩ := w.manager.sync_frame
  refine h.update h.filed.sync ?_ hnext ?_
  · rw [hstore, hrev]
    exact h.recorded
  intro id watcher' hlookup
  obtain ⟨watcher, hwatcher, hsound, hinitial, _⟩ := h.sync_done hlookup
  rw [hstore, hrev]
  exact ⟨watcher, hwatcher, hsound, hinitial⟩

theorem Linked.watch (h : w.Linked) (keyPrefix : Str) (fromRev bufSize : ℤ) :
    (w.step (.watch keyPrefix fromRev bufSize)).Linked := by
  obtain ⟨hstore, hrev, hnext⟩ := w.manager.watch_frame keyPrefix fromRev bufSize
  have hfresh : w.manager.watchers.lookup (w.manager.nextWatcherID + 1) = none := by
    by_contra hne
    obtain ⟨watcher, hwatcher⟩ := Option.ne_none_iff_exists'.mp hne
    have := h.known _ watcher hwatcher
    omega
  have hold : ∀ id watcher', (w.manager.watch keyPrefix fromRev bufSize).1.watchers.lookup id =
      some watcher' → id = w.manager.nextWatcherID + 1 ∧
        watcher' = .new w.manager.currentRev keyPrefix fromRev bufSize ∨
      id ≠ w.manager.nextWatcherID + 1 ∧ w.manager.watchers.lookup id = some watcher' := by
    intro id watcher' hlookup
    rw [Manager.lookup_watch h.filed hfresh] at hlookup
    split_ifs at hlookup with hid
    · exact .inl ⟨hid, (Option.some.inj hlookup).symm⟩
    · exact .inr ⟨hid, hlookup⟩
  have hnew : (w.step (.watch keyPrefix fromRev bufSize)).asked (w.manager.nextWatcherID + 1) =
      (keyPrefix, fromRev) := Function.update_self ..
  have hother : ∀ id ≠ w.manager.nextWatcherID + 1,
      (w.step (.watch keyPrefix fromRev bufSize)).asked id = w.asked id :=
    fun id hid => Function.update_of_ne hid ..
  refine ⟨h.filed.watch hfresh keyPrefix fromRev bufSize, ?_, ?_, ?_, ?_, ?_⟩
  · intro id watcher' hlookup
    show id ≤ (w.manager.watch keyPrefix fromRev bufSize).1.nextWatcherID
    rw [hnext]
    rcases hold id watcher' hlookup with ⟨rfl, _⟩ | ⟨_, hwatcher⟩
    · exact Nat.le_refl _
    · exact (h.known id watcher' hwatcher).trans (Nat.le_succ _)
  · intro id hid
    have hid : (w.manager.watch keyPrefix fromRev bufSize).1.nextWatcherID < id := hid
    exact h.unread id (by omega)
  · show Recorded (w.manager.watch keyPrefix fromRev bufSize).1.store
      (w.manager.watch keyPrefix fromRev bufSize).1.currentRev
    rw [hstore, hrev]
    exact h.recorded
  · intro id watcher' hlookup
    rcases hold id watcher' hlookup with ⟨rfl, rfl⟩ | ⟨hid, hwatcher⟩
    · rw [hnew]
      rfl
    · rw [hother id hid]
      exact h.keyPrefix id watcher' hwatcher
  intro id watcher' hlookup
  show Watcher.Sound (w.manager.watch keyPrefix fromRev bufSize).1.store
    (w.manager.watch keyPrefix fromRev bufSize).1.currentRev (max (_ : Str × ℤ).2 1)
    (w.received id) watcher'
  rw [hstore, hrev]
  rcases hold id watcher' hlookup with ⟨rfl, rfl⟩ | ⟨hid, hwatcher⟩
  · rw [hnew, h.unread _ (Nat.lt_succ_self _)]
    exact .new ..
  · rw [hother id hid]
    exact h.sound id watcher' hwatcher

theorem receive_cases (m : Manager) (id : ℕ) :
    m.receive id = (m, none) ∨ ∃ watcher ev c, m.watchers.lookup id = some watcher ∧
      watcher.c = ev :: c ∧
      m.receive id = ({ m with watchers := m.watchers.insert id { watcher with c := c } }, some ev) := by
  unfold Manager.receive
  cases hlookup : m.watchers.lookup id with
  | none => exact .inl rfl
  | some watcher =>
    obtain ⟨p, n, b, c, g⟩ := watcher
    cases c with
    | nil => exact .inl rfl
    | cons ev c => exact .inr ⟨_, ev, c, rfl, rfl, rfl⟩

theorem Linked.receive (h : w.Linked) (id : ℕ) : (w.step (.receive id)).Linked := by
  have hfiled := h.filed.receive id
  rcases receive_cases w.manager id with hnone | ⟨watcher, ev, c, hwatcher, hc, heq⟩
  · have hsame : w.step (.receive id) = w := by
      simp [step, hnone]
    rw [hsame]
    exact h
  have hstep : w.step (.receive id) =
      { w with
        manager := { w.manager with
          watchers := w.manager.watchers.insert id { watcher with c := c } }
        received := Function.update w.received id (w.received id ++ [ev]) } := by
    simp [step, heq]
  rw [heq] at hfiled
  rw [hstep]
  refine ⟨hfiled, ?_, ?_, h.recorded, ?_, ?_⟩
  · intro j watcher' hlookup
    rw [lookup_insert_if] at hlookup
    split_ifs at hlookup with hj
    · exact hj ▸ h.known id watcher hwatcher
    · exact h.known j watcher' hlookup
  · intro j hj
    have hne : j ≠ id := by
      rintro rfl
      exact absurd (h.known j watcher hwatcher) (Nat.not_le.mpr hj)
    exact (Function.update_of_ne hne ..).trans (h.unread j hj)
  · intro j watcher' hlookup
    rw [lookup_insert_if] at hlookup
    split_ifs at hlookup with hj
    · cases hlookup
      exact hj ▸ h.keyPrefix id watcher hwatcher
    · exact h.keyPrefix j watcher' hlookup
  intro j watcher' hlookup
  rw [lookup_insert_if] at hlookup
  rcases eq_or_ne j id with rfl | hj
  · obtain rfl := Option.some.inj (if_pos rfl ▸ hlookup)
    show Watcher.Sound _ _ _ (Function.update w.received j _ j) _
    rw [Function.update_self]
    exact (h.sound j watcher hwatcher).receive hc
  rw [if_neg hj] at hlookup
  show Watcher.Sound _ _ _ (Function.update w.received id _ j) _
  rw [Function.update_of_ne hj]
  exact h.sound j watcher' hlookup

theorem Linked.step (h : w.Linked) (call : Call) (hearly : w.NotEarly call) :
    (w.step call).Linked := by
  cases call with
  | put key value tick => exact h.put key value tick hearly
  | watch keyPrefix fromRev bufSize => exact h.watch keyPrefix fromRev bufSize
  | sync => exact h.sync
  | receive id => exact h.receive id

theorem pending_eq (hwatcher : w.manager.watchers.lookup id = some watcher) :
    w.pending id = watcher.c := by
  unfold pending
  rw [hwatcher]
  rfl

theorem Linked.isPrefix_matching (h : w.Linked)
    (hwatcher : w.manager.watchers.lookup id = some watcher) :
    w.received id ++ w.pending id <+: w.matching id := by
  unfold matching
  rw [pending_eq hwatcher, (h.sound id watcher hwatcher).delivered, h.keyPrefix id watcher hwatcher]
  exact (h.recorded.filter_lt_isPrefix watcher.nextRev).filter _

theorem Linked.drained (h : w.Linked) (hmem : id ∈ w.manager.watchers)
    (hempty : (w.step .sync).pending id = []) :
    (w.step .sync).received id = (w.step .sync).matching id := by
  obtain ⟨watcher₀, hwatcher₀⟩ := exists_lookup_of_mem hmem
  obtain ⟨watcher, hwatcher⟩ : ∃ watcher, w.manager.sync.1.watchers.lookup id = some watcher := by
    rw [Manager.lookup_sync h.filed, hwatcher₀]
    exact ⟨_, rfl⟩
  have hafter : (w.step .sync).Linked := h.sync
  obtain ⟨_, _, _, _, hdone⟩ := h.sync_done hwatcher
  have hc : watcher.c = [] := (pending_eq (w := w.step .sync) hwatcher).symm.trans hempty
  have hsynced : watcher.group = .synced := hdone.resolve_right (not_not.mpr hc)
  have hall := (hafter.sound id watcher hwatcher).caught_up hafter.recorded hsynced
  rw [hc, append_nil, hafter.keyPrefix id watcher hwatcher] at hall
  exact hall

theorem Linked.seesItsEvents (h : w.Linked) (hmem : id ∈ w.manager.watchers) :
    w.SeesItsEvents id := by
  obtain ⟨watcher, hwatcher⟩ := exists_lookup_of_mem hmem
  have hinitial := h.isPrefix_matching hwatcher
  refine ⟨hinitial, ?_, ?_, h.drained hmem⟩
  · have hsorted : (w.matching id).Pairwise fun a b => a.revision < b.revision :=
      h.recorded.sorted.filter _
    exact pairwise_map.mpr (hsorted.sublist hinitial.sublist)
  · refine ⟨watcher.group, (h.filed.mem_members_iff hwatcher _).mpr rfl, fun group hgroup => ?_⟩
    exact ((h.filed.mem_members_iff hwatcher group).mp hgroup).symm

theorem Linked.notEarly (h : w.Linked) (call : Call)
    (hsees : ∀ id ∈ (w.step call).manager.watchers, (w.step call).SeesItsEvents id) :
    w.NotEarly call := by
  cases call with
  | watch | sync | receive => trivial
  | put key value tick =>
    intro id hmem hkey
    by_contra hearly
    obtain ⟨watcher, hwatcher⟩ := exists_lookup_of_mem hmem
    obtain ⟨hstore, _, _⟩ := w.manager.put_frame key value tick
    let ev : Event := ⟨w.manager.currentRev + 1, key, value, tick⟩
    have hsound := h.sound id watcher hwatcher
    obtain ⟨hsynced, hnone⟩ := hsound.of_early h.recorded (by omega)
    obtain ⟨hreceived, hc⟩ := append_eq_nil_iff.mp hnone
    have hroom : (watcher.c.length : ℤ) < watcher.bufSize := by
      have := hsound.bufSize_pos
      rw [hc]
      show (0 : ℤ) < _
      omega
    have hlookup : (w.step (.put key value tick)).manager.watchers.lookup id =
        some (watcher.offer ev) := by
      show (w.manager.put key value tick).watchers.lookup id = _
      rw [Manager.lookup_put h.filed, hwatcher, Option.map_some, if_pos hsynced]
    have hmem' : id ∈ (w.step (.put key value tick)).manager.watchers := mem_of_lookup hlookup
    have hevents := (hsees id hmem').events
    rw [pending_eq hlookup, Watcher.offer_of_room (h.keyPrefix id watcher hwatcher ▸ hkey) hroom,
      hc] at hevents
    have hev : ev ∈ (w.step (.put key value tick)).matching id :=
      hevents.subset (mem_append_right _ (mem_singleton_self ev))
    have hstart : w.startRev id ≤ ev.revision := by
      have := (mem_filter.mp hev).2
      simp only [decide_eq_true_eq] at this
      exact this.1
    exact hearly hstart

/-- All watchers see their events exactly if no `Put` comes too early for one with a prefix of its
key. -/
theorem watchers_see_their_events_iff (calls : List Call) :
    (∀ w ∈ states World.step World.start calls, ∀ id ∈ w.manager.watchers, w.SeesItsEvents id) ↔
      Along World.step World.NotEarly World.start calls := by
  refine forall_states_iff_along (I := Linked) (fun w call h => h.step call) (fun w call h => ?_)
    linked_start (fun id hmem => linked_start.seesItsEvents hmem) calls
  exact ⟨h.notEarly call, fun hearly id hmem => (h.step call hearly).seesItsEvents hmem⟩

/-- The watcher asked for revision 10, and receives revision 1. -/
theorem watcher_receives_earlier_event :
    let w := [.watch [] 10 1, .put [107] [118] 1, .receive 1].foldl World.step World.start
    1 ∈ w.manager.watchers ∧ w.asked 1 = ([], 10) ∧ w.received 1 = [⟨1, [107], [118], 1⟩] ∧
      ¬ w.SeesItsEvents 1 :=
  ⟨by decide, by decide, by decide, fun h => absurd h.events (by decide)⟩

end World

end HelixCluster.WatchManager
