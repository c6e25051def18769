import HelixCluster.FlowControl.Controller
import HelixCluster.Lib.RoundRobin

/-!
# Round robin between the flows

The requests of one flow start in the order in which they arrived.
-/

namespace HelixCluster.FlowControl

open AList List RoundRobin

variable {q : Queued} {l' : PriorityLevel} {flow : Str}

namespace PriorityLevel

variable {l : PriorityLevel}

/-- The requests of a flow that wait. -/
def waiting (l : PriorityLevel) (flow : Str) : List Queued := l.queues.read flow []

/-- The flows, the one whose turn is next first. -/
def ring (l : PriorityLevel) : List Str := l.rrOrder.rotate l.rrCursor

/-- The flows with a queue are listed in the order of their names. -/
structure Arranged (l : PriorityLevel) : Prop where
  sorted : l.rrOrder.Pairwise (· < ·)
  mem_queues : ∀ flow ∈ l.rrOrder, flow ∈ l.queues
  flow_eq : ∀ flow, ∀ q ∈ l.waiting flow, q.flow = flow
  cursor_le : l.rrCursor ≤ l.rrOrder.length

theorem mem_ring_of_waiting (h : l.waiting flow ≠ []) : flow ∈ l.ring := by
  rw [ring, mem_rotate]
  refine l.listed flow ?_
  by_contra hflow
  rw [waiting, GoMap.read, lookup_eq_none.mpr hflow] at h
  exact h rfl

theorem map_scanOrder (l : PriorityLevel) :
    l.scanOrder.map (fun idx => l.rrOrder.getD idx []) = l.ring := by
  refine ext_getElem (by simp [scanOrder, ring]) fun i hi _ => ?_
  have hpos : 0 < l.rrOrder.length := by
    simp only [scanOrder, length_map, length_range] at hi
    omega
  simp only [scanOrder, ring, map_map, getElem_map, getElem_range, Function.comp_apply,
    getElem_rotate]
  rw [getD_eq_getElem _ _ (Nat.mod_lt _ hpos)]
  simp only [Nat.add_comm]

theorem waiting_insert (l : PriorityLevel) (flow other : Str) (qs : List Queued) :
    GoMap.read (l.queues.insert flow qs) other [] = if other = flow then qs else l.waiting other :=
  GoMap.read_insert_if ..

theorem rotate_scanned {before after : List ℕ} {idx : ℕ} (h : l.scanOrder = before ++ idx :: after) :
    l.rrOrder.rotate ((idx + 1) % l.rrOrder.length) =
      after.map (fun idx => l.rrOrder.getD idx []) ++
        (before.map (fun idx => l.rrOrder.getD idx []) ++ [l.rrOrder.getD idx []]) := by
  have hlen : before.length < l.scanOrder.length := by
    rw [h, length_append, length_cons]
    omega
  have hidx : idx = (l.rrCursor + before.length) % l.rrOrder.length := by
    have hget : l.scanOrder[before.length] = idx := by
      simp only [h, getElem_append_right (Nat.le_refl _), Nat.sub_self, getElem_cons_zero]
    rw [← hget]
    simp [scanOrder]
  have hring : l.ring = (before.map (fun idx => l.rrOrder.getD idx []) ++ [l.rrOrder.getD idx []]) ++
      after.map fun idx => l.rrOrder.getD idx [] := by
    rw [← map_scanOrder, h, map_append, map_cons, append_assoc, singleton_append]
  calc l.rrOrder.rotate ((idx + 1) % l.rrOrder.length)
      = l.rrOrder.rotate ((l.rrCursor + before.length + 1) % l.rrOrder.length) := by
        rw [hidx, Nat.mod_add_mod]
    _ = l.ring.rotate (before.length + 1) := by
        rw [rotate_mod, ring, rotate_rotate, Nat.add_assoc]
    _ = _ := by
        rw [hring]
        convert rotate_append_length_eq _ _ using 2
        simp

theorem dispatchNext_spec (h : l.dispatchNext = some (q, l')) :
    ∃ flow rest, l.waiting flow = q :: rest ∧
      (∀ other, l'.waiting other = if other = flow then rest else l.waiting other) ∧
      l'.rrOrder = l.rrOrder ∧ l'.rrCursor ≤ l.rrOrder.length ∧
      (∀ other, other ∈ l.queues → other ∈ l'.queues) ∧
      Serves (fun flow => l.waiting flow ≠ []) l.ring flow l'.ring := by
  obtain ⟨idx, hfind, hpop⟩ := Option.bind_eq_some_iff.mp h
  obtain ⟨hidx, before, after, hscan, hempty⟩ := List.find?_eq_some_iff_append.mp hfind
  have hring : l.ring = before.map (fun idx => l.rrOrder.getD idx []) ++
      l.rrOrder.getD idx [] :: after.map fun idx => l.rrOrder.getD idx [] := by
    rw [← map_scanOrder, hscan, map_append, map_cons]
  unfold pop at hpop
  split at hpop
  · cases hpop
  · next head rest hhead =>
    cases hpop
    have hflow : l.rrOrder.getD idx [] ∈ l.rrOrder := l.listed _ (mem_of_queueAt hhead)
    refine ⟨l.rrOrder.getD idx [], rest, hhead, fun other => l.waiting_insert _ other rest, rfl,
      (Nat.mod_lt _ (length_pos_of_mem hflow)).le,
      fun other hother => (mem_insert _).mpr (.inr hother), ?_⟩
    show Serves _ l.ring _ (l.rrOrder.rotate ((idx + 1) % l.rrOrder.length))
    rw [rotate_scanned hscan, hring]
    refine .serve (fun flow hflow => ?_) (of_decide_eq_true hidx)
    obtain ⟨i, hi, rfl⟩ := mem_map.mp hflow
    have := hempty i hi
    simpa [queueAt, waiting] using this

theorem Arranged.dispatchNext (h : l.Arranged) (hnext : l.dispatchNext = some (q, l')) :
    l'.Arranged := by
  obtain ⟨flow, rest, hflow, hwaiting, horder, hcursor, hqueues, -⟩ := dispatchNext_spec hnext
  refine ⟨horder ▸ h.sorted, fun other hother => hqueues other (h.mem_queues other (horder ▸ hother)),
    fun other p hp => ?_, horder ▸ hcursor⟩
  rw [hwaiting] at hp
  split_ifs at hp with heq
  · rw [heq]
    exact h.flow_eq flow p (hflow ▸ mem_cons_of_mem q hp)
  · exact h.flow_eq other p hp

/-! ### Queueing up -/

/-- The flow of a request is known, or it sorts behind all flows before the cursor. -/
def KeepsTurns (l : PriorityLevel) (flow : Str) : Prop :=
  flow ∈ l.queues ∨ ∀ other ∈ l.rrOrder.take l.rrCursor, other < flow

instance decidableKeeps (l : PriorityLevel) (flow : Str) : Decidable (l.KeepsTurns flow) :=
  inferInstanceAs (Decidable (flow ∈ l.queues ∨ ∀ other ∈ l.rrOrder.take l.rrCursor, other < flow))

theorem waiting_enqueue (l : PriorityLevel) (q : Queued) (other : Str) :
    (l.enqueue q).waiting other =
      if other = q.flow then l.waiting q.flow ++ [q] else l.waiting other :=
  l.waiting_insert q.flow other _

theorem exists_split {xs : List Str} (h : xs.Pairwise (· < ·)) {x : Str} (hx : x ∉ xs) :
    ∃ lower upper, xs = lower ++ upper ∧ (∀ y ∈ lower, y < x) ∧ ∀ y ∈ upper, x < y := by
  induction xs with
  | nil => exact ⟨[], [], rfl, by simp, by simp⟩
  | cons y ys ih =>
    obtain ⟨hy, hys⟩ := pairwise_cons.mp h
    rcases lt_trichotomy y x with hlt | heq | hgt
    · obtain ⟨lower, upper, rfl, hlower, hupper⟩ := ih hys fun hmem => hx (mem_cons_of_mem y hmem)
      exact ⟨y :: lower, upper, rfl, forall_mem_cons.mpr ⟨hlt, hlower⟩, hupper⟩
    · exact absurd (heq ▸ mem_cons_self) hx
    · exact ⟨[], y :: ys, rfl, by simp, forall_mem_cons.mpr ⟨hgt, fun z hz => hgt.trans (hy z hz)⟩⟩

theorem Arranged.orderWith_eq (h : l.Arranged) (hnew : flow ∉ l.queues) :
    ∃ lower upper, l.rrOrder = lower ++ upper ∧ l.orderWith flow = lower ++ flow :: upper ∧
      (lower ++ flow :: upper).Pairwise (· < ·) := by
  obtain ⟨lower, upper, hsplit, hlower, hupper⟩ :=
    exists_split h.sorted fun hmem => hnew (h.mem_queues flow hmem)
  have hsorted : (lower ++ flow :: upper).Pairwise (· < ·) := by
    obtain ⟨hlo, hup, hcross⟩ := pairwise_append.mp (hsplit ▸ h.sorted)
    exact pairwise_append.mpr ⟨hlo, pairwise_cons.mpr ⟨hupper, hup⟩, fun other hother =>
      forall_mem_cons.mpr ⟨hlower other hother, hcross other hother⟩⟩
  refine ⟨lower, upper, hsplit, ?_, hsorted⟩
  rw [orderWith, if_neg hnew, hsplit, append_assoc]
  refine List.Perm.eq_of_pairwise' (pairwise_insertionSort (· ≤ ·) _) (hsorted.imp le_of_lt) ?_
  exact (perm_insertionSort (· ≤ ·) _).trans ((perm_append_singleton flow upper).append_left lower)

theorem Arranged.enqueue (h : l.Arranged) (q : Queued) : (l.enqueue q).Arranged := by
  have hflows : ∀ flow, ∀ p ∈ (l.enqueue q).waiting flow, p.flow = flow := by
    intro flow p hp
    rw [waiting_enqueue] at hp
    split_ifs at hp with heq
    · rcases mem_append.mp hp with hold | hnew
      · exact (h.flow_eq q.flow p hold).trans heq.symm
      · rw [mem_singleton.mp hnew, heq]
    · exact h.flow_eq flow p hp
  by_cases hknown : q.flow ∈ l.queues
  · have horder : (l.enqueue q).rrOrder = l.rrOrder := if_pos hknown
    refine ⟨horder ▸ h.sorted, fun flow hflow => (mem_insert _).mpr (.inr ?_), hflows, ?_⟩
    · exact h.mem_queues flow (horder ▸ hflow)
    · rw [horder]
      exact h.cursor_le
  obtain ⟨lower, upper, hsplit, horder, hsorted⟩ := h.orderWith_eq hknown
  have horder : (l.enqueue q).rrOrder = lower ++ q.flow :: upper := horder
  refine ⟨horder ▸ hsorted, fun flow hflow => (mem_insert _).mpr ?_, hflows, ?_⟩
  · rw [horder, mem_append, mem_cons] at hflow
    have hold : ∀ flow ∈ lower ++ upper, flow ∈ l.queues := hsplit ▸ h.mem_queues
    rcases hflow with hflow | heq | hflow
    · exact .inr (hold flow (mem_append_left _ hflow))
    · exact .inl heq
    · exact .inr (hold flow (mem_append_right _ hflow))
  have hlen := h.cursor_le
  show l.rrCursor ≤ _
  rw [horder, length_append, length_cons]
  rw [hsplit, length_append] at hlen
  omega

theorem Arranged.ring_enqueue (h : l.Arranged) (hturns : l.KeepsTurns q.flow) :
    (l.enqueue q).ring = l.ring ∨
      ∃ xs ys, l.ring = xs ++ ys ∧ (l.enqueue q).ring = xs ++ q.flow :: ys := by
  have hcursor := h.cursor_le
  by_cases hknown : q.flow ∈ l.queues
  · left
    have horder : (l.enqueue q).rrOrder = l.rrOrder := if_pos hknown
    rw [ring, ring, horder]
    rfl
  right
  obtain ⟨lower, upper, hsplit, horder, hsorted⟩ := h.orderWith_eq hknown
  have hupper := (pairwise_cons.mp (pairwise_append.mp hsorted).2.1).1
  have hlater := hturns.resolve_left hknown
  have hle : l.rrCursor ≤ lower.length := by
    by_contra hgt
    -- the first flow above the new one would stand before the cursor
    cases upper with
    | nil =>
      rw [hsplit, append_nil] at hcursor
      exact hgt hcursor
    | cons flow upper =>
      have hbefore : flow ∈ l.rrOrder.take l.rrCursor := by
        rw [hsplit, take_append, mem_append]
        refine .inr (mem_iff_getElem.mpr ⟨0, ?_, ?_⟩)
        · rw [length_take, length_cons]
          omega
        · simp
      exact absurd (hlater flow hbefore) (hupper flow mem_cons_self).not_gt
  have horder : (l.enqueue q).rrOrder = lower ++ q.flow :: upper := horder
  refine ⟨lower.drop l.rrCursor, upper ++ lower.take l.rrCursor, ?_, ?_⟩
  · rw [ring, rotate_eq_drop_append_take hcursor, hsplit, drop_append_of_le_length hle,
      take_append_of_le_length hle, append_assoc]
  have hlen : l.rrCursor ≤ (lower ++ q.flow :: upper).length := by
    rw [length_append]
    omega
  rw [ring, horder]
  show (lower ++ q.flow :: upper).rotate l.rrCursor = _
  rw [rotate_eq_drop_append_take hlen, drop_append_of_le_length hle,
    take_append_of_le_length hle, append_assoc, cons_append]

end PriorityLevel

/-! ### The log of a level -/

/-- What happens to a request in a level. -/
inductive Event where
  | arrived (r : Request) (flow : Str)
  | started (r : Request) (flow : Str)
  deriving DecidableEq

/-- The request, if the event is an arrival in the flow. -/
def Event.arrival (flow : Str) : Event → Option Request
  | .arrived r f => if f = flow then some r else none
  | .started .. => none

/-- The request, if the event is a start of the flow. -/
def Event.start (flow : Str) : Event → Option Request
  | .arrived .. => none
  | .started r f => if f = flow then some r else none

/-- The requests of every flow start in the order in which they arrived. -/
def InOrder (log : List Event) : Prop :=
  ∀ flow, log.filterMap (Event.start flow) <+: log.filterMap (Event.arrival flow)

/-- How many requests of a flow wait, and which flows were served since it was, or since it began to
wait. -/
structure Window where
  waiting : ℕ
  since : List Str

/-- The window of a flow after an event. -/
def Window.note (flow : Str) (w : Window) : Event → Window
  | .arrived _ f => if f = flow then { w with waiting := w.waiting + 1 } else w
  | .started _ f =>
    if f = flow then ⟨w.waiting - 1, []⟩
    else if 0 < w.waiting then { w with since := f :: w.since }
    else w

/-- While a flow waits, each other flow is served once at most before it is its turn. -/
def Fair (log : List Event) : Prop :=
  ∀ flow other, other ≠ flow → ∀ w ∈ states (Window.note flow) ⟨0, []⟩ log, w.since.count other ≤ 1

/-- The window of a flow at the end of the log. -/
def window (flow : Str) (log : List Event) : Window := log.foldl (Window.note flow) ⟨0, []⟩

theorem window_append (flow : Str) (log : List Event) (e : Event) :
    window flow (log ++ [e]) = (window flow log).note flow e := by
  simp [window]

theorem fair_append {log : List Event} {e : Event} (h : Fair log)
    (he : ∀ flow, ((window flow log).note flow e).since.Nodup) : Fair (log ++ [e]) := by
  intro flow other hne w hw
  rcases mem_states_append_singleton.mp hw with hold | rfl
  · exact h flow other hne w hold
  · exact nodup_iff_count_le_one.mp (he flow) other

namespace PriorityLevel

variable {l : PriorityLevel} {log : List Event}

/-- The log of a level: of each flow, what has started and what waits is what has arrived. -/
structure Logged (l : PriorityLevel) (log : List Event) : Prop where
  arranged : l.Arranged
  fifo : ∀ flow, log.filterMap (Event.start flow) ++ (l.waiting flow).map Queued.req =
    log.filterMap (Event.arrival flow)

/-- The window of a flow: the flows served since are behind it in the ring. -/
def Turn (ring : List Str) (flow : Str) (w : Window) : List Queued → Prop
  | [] => w = ⟨0, []⟩
  | _ :: qs => w.waiting = qs.length + 1 ∧ Behind ring flow w.since

theorem Turn.nodup {ring : List Str} {w : Window} :
    ∀ {qs : List Queued}, Turn ring flow w qs → w.since.Nodup
  | [], h => by
    rw [show w = ⟨0, []⟩ from h]
    exact nodup_nil
  | _ :: _, h => h.2.1

/-- The flows have taken turns. -/
structure Turns (l : PriorityLevel) (log : List Event) : Prop where
  fair : Fair log
  turn : ∀ flow, Turn l.ring flow (window flow log) (l.waiting flow)

theorem Turns.append (h : Fair log) {e : Event}
    (hturn : ∀ flow, Turn l.ring flow ((window flow log).note flow e) (l.waiting flow)) :
    l.Turns (log ++ [e]) :=
  ⟨fair_append h fun flow => (hturn flow).nodup, fun flow => window_append flow log e ▸ hturn flow⟩

theorem Logged.inOrder (h : l.Logged log) : InOrder log := fun flow => ⟨_, h.fifo flow⟩

/-! A request queues up. -/

theorem Logged.enqueue (h : l.Logged log) (q : Queued) :
    (l.enqueue q).Logged (log ++ [.arrived q.req q.flow]) := by
  refine ⟨h.arranged.enqueue q, fun flow => ?_⟩
  rw [waiting_enqueue, filterMap_append, filterMap_append, ← h.fifo flow]
  by_cases heq : flow = q.flow
  · subst heq
    simp [Event.start, Event.arrival]
  · simp [Event.start, Event.arrival, heq, Ne.symm heq]

theorem Turns.enqueue (h : l.Turns log) (hlogged : l.Logged log)
    (hturns : l.KeepsTurns q.flow) : (l.enqueue q).Turns (log ++ [.arrived q.req q.flow]) := by
  have hbehind : ∀ flow served, Behind l.ring flow served → Behind (l.enqueue q).ring flow served := by
    intro flow served hold
    rcases hlogged.arranged.ring_enqueue hturns with hsame | ⟨xs, ys, hring, hnext⟩
    · exact hsame ▸ hold
    · rw [hnext]
      exact (hring ▸ hold).insert q.flow
  refine .append h.fair fun flow => ?_
  have hturn := h.turn flow
  by_cases heq : q.flow = flow
  · have hwaiting : (l.enqueue q).waiting flow = l.waiting flow ++ [q] := by
      rw [waiting_enqueue, if_pos heq.symm, heq]
    have hring : flow ∈ (l.enqueue q).ring := mem_ring_of_waiting (by simp [hwaiting])
    rw [hwaiting, Window.note, if_pos heq]
    cases hqs : l.waiting flow with
    | nil =>
      rw [hqs] at hturn
      rw [show window flow log = _ from hturn]
      exact ⟨rfl, behind_nil hring⟩
    | cons p qs =>
      rw [hqs] at hturn
      exact ⟨by simp [hturn.1], hbehind flow _ hturn.2⟩
  rw [waiting_enqueue, if_neg (Ne.symm heq), Window.note, if_neg heq]
  cases hqs : l.waiting flow with
  | nil =>
    rw [hqs] at hturn
    exact hturn
  | cons p qs =>
    rw [hqs] at hturn
    exact ⟨hturn.1, hbehind flow _ hturn.2⟩

/-! A request is dispatched. -/

theorem Logged.dispatchNext (h : l.Logged log) (hnext : l.dispatchNext = some (q, l')) :
    l'.Logged (log ++ [.started q.req q.flow]) := by
  obtain ⟨served, rest, hserved, hwaiting, -⟩ := dispatchNext_spec hnext
  have hflow : q.flow = served := h.arranged.flow_eq served q (hserved ▸ mem_cons_self)
  refine ⟨h.arranged.dispatchNext hnext, fun flow => ?_⟩
  rw [hwaiting, hflow, filterMap_append, filterMap_append, ← h.fifo flow]
  by_cases heq : flow = served
  · subst heq
    simp [Event.start, Event.arrival, hserved]
  · simp [Event.start, Event.arrival, heq, Ne.symm heq]

theorem Turns.dispatchNext (h : l.Turns log) (hlogged : l.Logged log)
    (hnext : l.dispatchNext = some (q, l')) : l'.Turns (log ++ [.started q.req q.flow]) := by
  obtain ⟨served, rest, hserved, hwaiting, -, -, -, hserves⟩ := dispatchNext_spec hnext
  have hflow : q.flow = served := hlogged.arranged.flow_eq served q (hserved ▸ mem_cons_self)
  have hring : l.ring.Nodup := nodup_rotate.mpr (hlogged.arranged.sorted.imp fun hlt => hlt.ne)
  refine .append h.fair fun flow => ?_
  have hturn := h.turn flow
  rw [hflow, hwaiting, Window.note]
  by_cases heq : served = flow
  · subst heq
    rw [hserved] at hturn
    rw [if_pos rfl, if_pos rfl, hturn.1]
    cases rest with
    | nil => exact rfl
    | cons next rest => exact ⟨rfl, behind_nil hserves.mem_next⟩
  rw [if_neg heq, if_neg (Ne.symm heq)]
  cases hqs : l.waiting flow with
  | nil =>
    rw [hqs] at hturn
    rw [show window flow log = _ from hturn]
    exact rfl
  | cons p qs =>
    rw [hqs] at hturn
    rw [if_pos (by rw [hturn.1]; exact Nat.succ_pos _)]
    exact ⟨hturn.1, hturn.2.serve hring (by simp [hqs]) hserves heq⟩

/-! A request takes a seat at once. -/

theorem waiting_of_totalQueued (h : l.totalQueued = 0) (flow : Str) : l.waiting flow = [] := by
  simp only [totalQueued, sum_eq_zero_iff, forall_mem_map] at h
  cases hlookup : l.queues.lookup flow with
  | none => rw [waiting, GoMap.read, hlookup, Option.getD_none]
  | some qs =>
    rw [waiting, GoMap.read, hlookup, Option.getD_some]
    exact length_eq_zero_iff.mp (h _ (mem_lookup_iff.mp hlookup))

theorem Logged.admitted (h : l.Logged log) (hnone : l.totalQueued = 0) (r : Request) (flow : Str) :
    (l.start r flow).Logged (log ++ [.arrived r flow] ++ [.started r flow]) := by
  refine ⟨⟨h.arranged.sorted, h.arranged.mem_queues, h.arranged.flow_eq, h.arranged.cursor_le⟩,
    fun other => ?_⟩
  have hold := h.fifo other
  have hwaiting : (l.start r flow).waiting other = [] := waiting_of_totalQueued hnone other
  rw [waiting_of_totalQueued hnone] at hold
  rw [hwaiting]
  simp only [filterMap_append, ← hold]
  by_cases heq : flow = other
  · simp [filterMap_cons, Event.start, Event.arrival, heq]
  · simp [filterMap_cons, Event.start, Event.arrival, heq]

theorem Turns.admitted (h : l.Turns log) (hnone : l.totalQueued = 0) (r : Request) (flow : Str) :
    (l.start r flow).Turns (log ++ [.arrived r flow] ++ [.started r flow]) := by
  have hempty := waiting_of_totalQueued hnone
  have hold : ∀ other, window other log = ⟨0, []⟩ := by
    intro other
    have hturn := h.turn other
    rwa [hempty] at hturn
  have harrived : Fair (log ++ [.arrived r flow]) := by
    refine fair_append h.fair fun other => ?_
    rw [hold, Window.note]
    split <;> exact nodup_nil
  refine .append harrived fun other => ?_
  rw [window_append, hold, show (l.start r flow).waiting other = [] from hempty other]
  by_cases heq : flow = other <;> simp [Turn, Window.note, heq]

/-! A tick fills the level. -/

theorem fill_logged (h : l.Logged log) (fuel : ℕ) :
    (l.fill fuel).1.Logged (log ++ (l.fill fuel).2.map fun q => .started q.req q.flow) ∧
    (l.Turns log →
      (l.fill fuel).1.Turns (log ++ (l.fill fuel).2.map fun q => .started q.req q.flow)) := by
  induction fuel generalizing l log with
  | zero =>
    rw [fill, map_nil, append_nil]
    exact ⟨h, id⟩
  | succ fuel ih =>
    unfold fill
    split
    · split
      · rw [map_nil, append_nil]
        exact ⟨h, id⟩
      · next q l' hnext =>
        have hlogged := h.dispatchNext hnext
        have hstarted : (l'.start q.req q.flow).Logged (log ++ [.started q.req q.flow]) :=
          ⟨⟨hlogged.arranged.sorted, hlogged.arranged.mem_queues, hlogged.arranged.flow_eq,
            hlogged.arranged.cursor_le⟩, hlogged.fifo⟩
        obtain ⟨ihlogged, ihturns⟩ := ih hstarted
        rw [append_assoc, singleton_append] at ihlogged ihturns
        refine ⟨ihlogged, fun hturns => ihturns ?_⟩
        obtain ⟨hfair, hturn⟩ := hturns.dispatchNext h hnext
        exact ⟨hfair, hturn⟩
    · rw [map_nil, append_nil]
      exact ⟨h, id⟩

end PriorityLevel

/-! ### Runs of the controller -/

namespace Controller

variable {c : Controller}

/-- What a call does to the requests of a level. -/
def events (name : Str) (c : Controller) : Call → List Event
  | .offer r now =>
    match c.offer r now with
    | (_, cls, .decisionAdmit, _) =>
      if cls.level = name then [.arrived r cls.flow, .started r cls.flow] else []
    | (_, cls, .decisionEnqueue, _) => if cls.level = name then [.arrived r cls.flow] else []
    | (_, _, .decisionReject, _) => []
  | .tick =>
    ((c.tickLevels c.sortedLevelNames).2.filter fun started => started.1 = name).map fun started =>
      .started started.2.req started.2.flow
  | _ => []

theorem events_tick (name : Str) (c : Controller) :
    c.events name .tick = (c.startsIn name).map fun q => .started q.req q.flow := by
  have hspec := (tickLevels_spec c.nodup_sortedLevelNames fun _ => mem_sortedLevelNames.mp).2
  have hfilter : ∀ names : List Str, names.Nodup →
      ((names.flatMap fun other => (c.startsIn other).map (other, ·)).filter
        fun started => started.1 = name) = if name ∈ names then (c.startsIn name).map (name, ·) else [] := by
    intro names hnodup
    induction names with
    | nil => rfl
    | cons other names ih =>
      obtain ⟨hother, hnames⟩ := nodup_cons.mp hnodup
      rw [flatMap_cons, filter_append, ih hnames, filter_map]
      rcases eq_or_ne other name with rfl | heq
      · simp [hother, Function.comp_def]
      · simp [heq, Ne.symm heq, Function.comp_def]
  show ((c.tickLevels c.sortedLevelNames).2.filter _).map _ = _
  rw [hspec, hfilter _ c.nodup_sortedLevelNames]
  split_ifs with hname
  · rw [map_map]
    rfl
  · rw [mem_sortedLevelNames] at hname
    rw [startsIn, lookup_eq_none.mpr hname]
    rfl

end Controller

/-- The log of a level in a run. -/
def levelLog (name : Str) : World → List Call → List Event
  | _, [] => []
  | w, call :: calls => w.controller.events name call ++ levelLog name (w.step call) calls

/-- A request that is queued is of a known flow, or of one that does not sort before the cursor. An
`Offer` queues its request if the ID is not in flight, others wait or no seat is free, and the queue of
the flow has room. -/
def KeepsTurns (name : Str) (w : World) : Call → Prop
  | .offer r _ => w.controller.idInFlight r.id = false →
      ∀ cls ∈ w.controller.classify r, cls.level = name → ∀ lvl ∈ w.controller.levels.lookup name,
        ¬(lvl.inFlight < lvl.concurrency ∧ lvl.totalQueued = 0) →
        (lvl.queues.read cls.flow []).length < lvl.maxQueueLen → lvl.KeepsTurns cls.flow
  | _ => True

instance decidableKeepsTurns (name : Str) (w : World) : ∀ call, Decidable (KeepsTurns name w call)
  | .offer r _ =>
    inferInstanceAs (Decidable (w.controller.idInFlight r.id = false →
      ∀ cls ∈ w.controller.classify r, cls.level = name → ∀ lvl ∈ w.controller.levels.lookup name,
        ¬(lvl.inFlight < lvl.concurrency ∧ lvl.totalQueued = 0) →
        (lvl.queues.read cls.flow []).length < lvl.maxQueueLen → lvl.KeepsTurns cls.flow))
  | .registerPriorityLevel .. | .registerFlowSchema _ | .finish .. | .tick => isTrue trivial

/-- What a call can do to a level, with the events it logs there. -/
inductive LevelStep (turns : Prop) : Option PriorityLevel → List Event → Option PriorityLevel → Prop where
  | same {level : Option PriorityLevel} : LevelStep turns level [] level
  | registers {lvl : PriorityLevel} (hqueues : lvl.queues = ∅) (horder : lvl.rrOrder = [])
      (hcursor : lvl.rrCursor = 0) : LevelStep turns none [] (some lvl)
  | admits {lvl : PriorityLevel} {r : Request} {flow : Str} (hnone : lvl.totalQueued = 0) :
      LevelStep turns (some lvl) [.arrived r flow, .started r flow] (some (lvl.start r flow))
  | enqueues {lvl : PriorityLevel} {q : Queued} (hturns : turns → lvl.KeepsTurns q.flow) :
      LevelStep turns (some lvl) [.arrived q.req q.flow] (some (lvl.enqueue q))
  | releases {lvl : PriorityLevel} {id : Str} :
      LevelStep turns (some lvl) [] (some (lvl.release id))
  | fills {lvl : PriorityLevel} :
      LevelStep turns (some lvl) ((lvl.fill lvl.free).2.map fun q => .started q.req q.flow)
        (some (lvl.fill lvl.free).1)

section Steps

variable (name : Str) (w : World)

theorem levelStep_insert {turns : Prop} {levels : GoMap Str PriorityLevel} {other : Str}
    {next : PriorityLevel} {es : List Event}
    (hother : other = name → LevelStep turns (levels.lookup name) es (some next))
    (hempty : other ≠ name → es = []) :
    LevelStep turns (levels.lookup name) es ((levels.insert other next).lookup name) := by
  rw [GoMap.lookup_insert_if]
  split_ifs with heq
  · exact hother heq.symm
  · rw [hempty (Ne.symm heq)]
    exact .same

theorem levelStep_offer (r : Request) (now : Int64) :
    LevelStep (KeepsTurns name w (.offer r now)) (w.controller.levels.lookup name)
      (w.controller.events name (.offer r now))
      ((w.step (.offer r now)).controller.levels.lookup name) := by
  have heffect := w.controller.offerEffect r now
  dsimp only [World.step, Controller.events]
  generalize w.controller.offer r now = result at heffect
  cases heffect with
  | rejects => exact .same
  | admits hlookup _ hfree =>
    refine levelStep_insert name (fun heq => ?_) fun hne => if_neg hne
    dsimp only
    rw [if_pos heq, ← heq, hlookup]
    exact .admits hfree.2
  | @enqueues cls _ now seq hclassify hlookup hid hbusy hroom =>
    refine levelStep_insert name (fun heq => ?_) fun hne => if_neg hne
    dsimp only
    rw [if_pos heq, ← heq, hlookup]
    exact .enqueues (q := ⟨r, cls.flow, now, seq⟩) fun hturns =>
      hturns hid cls hclassify rfl _ hlookup hbusy hroom

theorem levelStep_registerPriorityLevel (other : Str) (concurrency maxQueueLen : ℤ) :
    LevelStep (KeepsTurns name w (.registerPriorityLevel other concurrency maxQueueLen))
      (w.controller.levels.lookup name)
      (w.controller.events name (.registerPriorityLevel other concurrency maxQueueLen))
      ((w.step (.registerPriorityLevel other concurrency maxQueueLen)).controller.levels.lookup name) := by
  show LevelStep _ _ [] ((w.controller.registerPriorityLevel other concurrency maxQueueLen).1.levels.lookup
    name)
  unfold Controller.registerPriorityLevel
  split
  · exact .same
  · next hnew =>
    split
    · exact .same
    split
    · exact .same
    refine levelStep_insert name (fun heq => ?_) fun _ => rfl
    rw [← heq, lookup_eq_none.mpr hnew]
    exact .registers rfl rfl rfl

theorem levelStep (call : Call) :
    LevelStep (KeepsTurns name w call) (w.controller.levels.lookup name)
      (w.controller.events name call) ((w.step call).controller.levels.lookup name) := by
  cases call with
  | registerPriorityLevel other concurrency maxQueueLen =>
    exact levelStep_registerPriorityLevel name w other concurrency maxQueueLen
  | registerFlowSchema fs =>
    show LevelStep _ _ [] ((w.controller.registerFlowSchema fs).1.levels.lookup name)
    unfold Controller.registerFlowSchema
    split
    · exact .same
    split
    · exact .same
    split <;> exact .same
  | offer r now => exact levelStep_offer name w r now
  | finish order id =>
    show LevelStep _ _ [] ((w.controller.finish order id).1.levels.lookup name)
    unfold Controller.finish
    cases hseat : w.controller.seatOf order id with
    | none => exact .same
    | some seat =>
      obtain ⟨hlookup, -⟩ := Controller.of_seatOf_some hseat
      refine levelStep_insert name (fun heq => ?_) fun _ => rfl
      rw [← heq, hlookup]
      exact .releases
  | tick =>
    show LevelStep _ _ _ (w.controller.tick.1.levels.lookup name)
    rw [Controller.events_tick, Controller.lookup_tick, Controller.startsIn]
    cases w.controller.levels.lookup name with
    | none => exact .same
    | some lvl => exact .fills

end Steps

/-- The log of a level that is registered; there is none before. -/
def Recorded : Option PriorityLevel → List Event → Prop
  | none, log => log = []
  | some lvl, log => lvl.Logged log

/-- The flows of a level have taken turns, if it is registered. -/
def TurnsTaken : Option PriorityLevel → List Event → Prop
  | none, _ => True
  | some lvl, log => lvl.Turns log

variable {turns : Prop} {level next : Option PriorityLevel} {log es : List Event}

theorem Recorded.step (h : Recorded level log) (hstep : LevelStep turns level es next) :
    Recorded next (log ++ es) := by
  cases hstep with
  | same => rwa [append_nil]
  | registers hqueues horder hcursor =>
    obtain rfl : log = [] := h
    refine ⟨⟨?_, ?_, ?_, ?_⟩, ?_⟩
    all_goals simp [PriorityLevel.waiting, hqueues, horder, hcursor]
  | admits hnone =>
    rw [append_cons]
    exact PriorityLevel.Logged.admitted h hnone ..
  | enqueues => exact PriorityLevel.Logged.enqueue h _
  | releases =>
    obtain ⟨harranged, hfifo⟩ : PriorityLevel.Logged _ log := h
    rw [append_nil]
    exact ⟨⟨harranged.sorted, harranged.mem_queues, harranged.flow_eq, harranged.cursor_le⟩, hfifo⟩
  | fills => exact (PriorityLevel.fill_logged h _).1

theorem TurnsTaken.step (h : TurnsTaken level log) (hrecorded : Recorded level log) (hturns : turns)
    (hstep : LevelStep turns level es next) : TurnsTaken next (log ++ es) := by
  cases hstep with
  | same => rwa [append_nil]
  | registers hqueues horder hcursor =>
    obtain rfl : log = [] := hrecorded
    exact ⟨by simp [Fair, states], fun flow => by simp [PriorityLevel.waiting, hqueues, PriorityLevel.Turn, window]⟩
  | admits hnone =>
    rw [append_cons]
    exact PriorityLevel.Turns.admitted h hnone ..
  | enqueues hkeeps => exact PriorityLevel.Turns.enqueue h hrecorded (hkeeps hturns)
  | releases =>
    obtain ⟨hfair, hturn⟩ : PriorityLevel.Turns _ log := h
    rw [append_nil]
    exact ⟨hfair, hturn⟩
  | fills => exact (PriorityLevel.fill_logged hrecorded _).2 h

theorem recorded_run (name : Str) (calls : List Call) {w : World} {past : List Event}
    (h : Recorded (w.controller.levels.lookup name) past) :
    InOrder (past ++ levelLog name w calls) ∧
    (TurnsTaken (w.controller.levels.lookup name) past → Along World.step (KeepsTurns name) w calls →
      Fair (past ++ levelLog name w calls)) := by
  induction calls generalizing w past with
  | nil =>
    rw [levelLog, append_nil]
    cases hlevel : w.controller.levels.lookup name with
    | none =>
      rw [hlevel] at h
      obtain rfl : past = [] := h
      exact ⟨fun flow => ⟨[], append_nil _⟩, fun _ _ => by simp [Fair, states]⟩
    | some lvl =>
      rw [hlevel] at h
      exact ⟨PriorityLevel.Logged.inOrder h, fun hturns _ => PriorityLevel.Turns.fair hturns⟩
  | cons call calls ih =>
    have hstep := levelStep name w call
    obtain ⟨hinOrder, hfair⟩ := ih (h.step hstep)
    rw [append_assoc] at hinOrder hfair
    exact ⟨hinOrder, fun hturns hcalls => hfair (hturns.step h hcalls.1 hstep) hcalls.2⟩

/-- Requests of a flow start in order, and flows take turns if none queues up anew before the
cursor. -/
theorem flows_take_turns (name : Str) (calls : List Call) :
    InOrder (levelLog name .start calls) ∧
    (Along World.step (KeepsTurns name) .start calls → Fair (levelLog name .start calls)) := by
  have hstart : World.start.controller.levels.lookup name = none := lookup_empty name
  have hnone : Recorded (World.start.controller.levels.lookup name) [] := by
    rw [hstart]
    exact rfl
  have hrun := recorded_run name calls hnone
  rw [hstart] at hrun
  exact ⟨hrun.1, hrun.2 trivial⟩

/-- A level with one seat, in which every request belongs to the flow that it names. -/
def oneSeat : List Call :=
  [.registerPriorityLevel [76] 1 10, .registerFlowSchema ⟨[115], [76], 0, some fun _ => true, none⟩]

/-- Flow `b` has the seat and two requests that wait, and flow `c` has one. -/
def twoFlowsWait : List Call :=
  oneSeat ++ [.offer ⟨[48], [98]⟩ 0, .offer ⟨[49], [98]⟩ 0, .offer ⟨[50], [98]⟩ 0,
    .offer ⟨[51], [99]⟩ 0, .finish [] [48], .tick]

/-- The two flows take turns if no flow joins them. -/
theorem served_in_turn :
    Along World.step (KeepsTurns [76]) .start (twoFlowsWait ++ [.finish [] [49], .tick]) ∧
    Fair (levelLog [76] .start (twoFlowsWait ++ [.finish [] [49], .tick])) :=
  have hturns : Along World.step (KeepsTurns [76]) .start (twoFlowsWait ++ [.finish [] [49], .tick]) := by
    decide
  ⟨hturns, (flows_take_turns [76] _).2 hturns⟩

/-- Flow `a` joins and sorts before the cursor. Flow `b` is served again, while `c` waits. -/
theorem served_twice_in_a_row : ¬Fair (levelLog [76] .start
      (twoFlowsWait ++ [.offer ⟨[52], [97]⟩ 0, .finish [] [49], .tick])) := by
  have hlog : levelLog [76] .start (twoFlowsWait ++ [.offer ⟨[52], [97]⟩ 0, .finish [] [49], .tick]) =
      [.arrived ⟨[48], [98]⟩ [98], .started ⟨[48], [98]⟩ [98], .arrived ⟨[49], [98]⟩ [98],
        .arrived ⟨[50], [98]⟩ [98], .arrived ⟨[51], [99]⟩ [99], .started ⟨[49], [98]⟩ [98],
        .arrived ⟨[52], [97]⟩ [97], .started ⟨[50], [98]⟩ [98]] := by
    decide
  intro hfair
  have hcount := hfair [99] [98] (by decide) _ (foldl_mem_states _ _)
  rw [hlog] at hcount
  exact absurd hcount (by decide)

end HelixCluster.FlowControl
