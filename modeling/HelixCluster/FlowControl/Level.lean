import HelixCluster.Lib.GoMap

/-!
# Priority levels

A `priorityLevel` of `pkg/flowcontrol`. Its counters never leave the range from zero to the
concurrency, so they are integers here.
-/

namespace HelixCluster.FlowControl

open AList List

structure Request where
  id : Str
  flowID : Str
  deriving DecidableEq

structure Queued where
  req : Request
  flow : Str
  arrival : Int64
  seq : UInt64
  deriving DecidableEq

/-- `priorityLevel`. Every flow that has a queue is in the order of the round robin. -/
structure PriorityLevel where
  name : Str
  concurrency : ℤ
  maxQueueLen : ℤ
  inFlight : ℤ
  queues : GoMap Str (List Queued)
  rrOrder : List Str
  rrCursor : ℕ
  seats : GoMap Str Str
  concurrency_pos : 1 ≤ concurrency
  maxQueueLen_pos : 1 ≤ maxQueueLen
  listed : ∀ flow ∈ queues, flow ∈ rrOrder

namespace PriorityLevel

def totalQueued (l : PriorityLevel) : ℕ := (l.queues.entries.map fun e => e.2.length).sum

/-- The order of the round robin once a flow is queued: sorted, with the flow in it. -/
def orderWith (l : PriorityLevel) (flow : Str) : List Str :=
  if flow ∈ l.queues then l.rrOrder else (l.rrOrder ++ [flow]).insertionSort (· ≤ ·)

theorem mem_orderWith {l : PriorityLevel} {flow other : Str}
    (h : other = flow ∨ other ∈ l.queues) : other ∈ l.orderWith flow := by
  unfold orderWith
  split_ifs with hflow
  · rcases h with rfl | hother
    · exact l.listed _ hflow
    · exact l.listed _ hother
  · rw [mem_insertionSort, mem_append, mem_singleton]
    exact h.elim .inr fun hother => .inl (l.listed _ hother)

def enqueue (l : PriorityLevel) (q : Queued) : PriorityLevel :=
  { l with
    queues := l.queues.insert q.flow (l.queues.read q.flow [] ++ [q])
    rrOrder := l.orderWith q.flow
    listed := fun _ hflow => mem_orderWith (mem_insert _ |>.mp hflow) }

/-- The indices of the round robin, from the cursor on. -/
def scanOrder (l : PriorityLevel) : List ℕ :=
  (List.range l.rrOrder.length).map fun i => (l.rrCursor + i) % l.rrOrder.length

/-- The queue of the flow at an index of the round robin. -/
def queueAt (l : PriorityLevel) (idx : ℕ) : List Queued := l.queues.read (l.rrOrder.getD idx []) []

theorem mem_of_queueAt {l : PriorityLevel} {idx : ℕ} {head : Queued} {rest : List Queued}
    (h : l.queueAt idx = head :: rest) : l.rrOrder.getD idx [] ∈ l.queues := by
  by_contra hnot
  rw [queueAt, GoMap.read, lookup_eq_none.mpr hnot] at h
  cases h

/-- Takes the head of the queue at an index, and moves the cursor past it. -/
def pop (l : PriorityLevel) (idx : ℕ) : Option (Queued × PriorityLevel) :=
  match h : l.queueAt idx with
  | [] => none
  | head :: rest =>
    some (head, { l with
      queues := l.queues.insert (l.rrOrder.getD idx []) rest
      rrCursor := (idx + 1) % l.rrOrder.length
      listed := by
        intro flow hflow
        rcases (mem_insert _).mp hflow with rfl | hflow
        · exact l.listed _ (mem_of_queueAt h)
        · exact l.listed _ hflow })

def dispatchNext (l : PriorityLevel) : Option (Queued × PriorityLevel) :=
  (l.scanOrder.find? fun idx => l.queueAt idx ≠ []).bind l.pop

/-- The first `n` requests that wait, in the order of the turns. -/
def inTurn (l : PriorityLevel) : ℕ → List Queued
  | 0 => []
  | n + 1 =>
    match l.dispatchNext with
    | none => []
    | some (q, l') => q :: l'.inTurn n

/-- What `start` does to the level. -/
def start (l : PriorityLevel) (r : Request) (flow : Str) : PriorityLevel :=
  { l with inFlight := l.inFlight + 1, seats := l.seats.insert r.id flow }

/-- What `Finish` does to the level whose seat it releases. -/
def release (l : PriorityLevel) (id : Str) : PriorityLevel :=
  { l with inFlight := l.inFlight - 1, seats := l.seats.erase id }

/-- The number of free seats. -/
def free (l : PriorityLevel) : ℕ := (l.concurrency - l.inFlight).toNat

/-- The loop of `Tick` on a level, with the requests it starts. -/
def fill (l : PriorityLevel) : ℕ → PriorityLevel × List Queued
  | 0 => (l, [])
  | fuel + 1 =>
    if l.inFlight < l.concurrency then
      match l.dispatchNext with
      | none => (l, [])
      | some (q, l') =>
        let rest := (l'.start q.req q.flow).fill fuel
        (rest.1, q :: rest.2)
    else (l, [])

/-- The in-flight count is the number of recorded seats, and within the concurrency. -/
def Conserved (l : PriorityLevel) : Prop := l.inFlight = l.seats.len ∧ l.inFlight ≤ l.concurrency

/-- There is a free seat and a request that waits. -/
def Idle (l : PriorityLevel) : Prop := l.inFlight < l.concurrency ∧ 0 < l.totalQueued

variable {l : PriorityLevel}

/-! ### Dispatching -/

theorem exists_scanOrder {flow : Str} (h : flow ∈ l.rrOrder) :
    ∃ idx ∈ l.scanOrder, l.rrOrder.getD idx [] = flow := by
  obtain ⟨idx, hidx, rfl⟩ := getElem_of_mem h
  set n := l.rrOrder.length
  have hpos : 0 < n := by omega
  refine ⟨idx, mem_map.mpr ⟨(idx + (n - l.rrCursor % n)) % n,
    mem_range.mpr (Nat.mod_lt _ hpos), ?_⟩, getD_eq_getElem _ _ hidx⟩
  have hdiv := Nat.div_add_mod l.rrCursor n
  have hmod := Nat.mod_lt l.rrCursor hpos
  calc (l.rrCursor + (idx + (n - l.rrCursor % n)) % n) % n
      = (l.rrCursor + (idx + (n - l.rrCursor % n))) % n := Nat.add_mod_mod ..
    _ = (idx + n * (l.rrCursor / n + 1)) % n := by
        congr 1
        rw [Nat.mul_succ]
        omega
    _ = idx := by rw [Nat.add_mul_mod_self_left, Nat.mod_eq_of_lt hidx]

theorem pop_ne_none {idx : ℕ} (h : l.queueAt idx ≠ []) : l.pop idx ≠ none := by
  unfold pop
  split
  · next hnil => exact absurd hnil h
  · exact Option.some_ne_none _

theorem totalQueued_of_dispatchNext_none (h : l.dispatchNext = none) : l.totalQueued = 0 := by
  have hscan : l.scanOrder.find? (fun idx => l.queueAt idx ≠ []) = none := by
    cases hfind : l.scanOrder.find? fun idx => l.queueAt idx ≠ [] with
    | none => rfl
    | some idx =>
      have hfound := List.find?_some hfind
      rw [dispatchNext, hfind] at h
      exact absurd h (pop_ne_none (of_decide_eq_true hfound))
  simp only [List.find?_eq_none, decide_eq_true_eq, not_not] at hscan
  simp only [totalQueued, sum_eq_zero_iff, forall_mem_map]
  intro e he
  have hlookup : l.queues.lookup e.1 = some e.2 := mem_lookup_iff.mpr he
  have hmem : e.1 ∈ l.queues := GoMap.mem_of_lookup hlookup
  obtain ⟨idx, hidx, hflow⟩ := exists_scanOrder (l.listed e.1 hmem)
  have hempty := hscan idx hidx
  rw [queueAt, hflow, GoMap.read, hlookup] at hempty
  exact length_eq_zero_iff.mpr hempty

theorem of_dispatchNext_some {q : Queued} {l' : PriorityLevel} (h : l.dispatchNext = some (q, l')) :
    l'.concurrency = l.concurrency ∧ l'.inFlight = l.inFlight ∧ l'.seats = l.seats := by
  obtain ⟨idx, _, hpop⟩ := Option.bind_eq_some_iff.mp h
  unfold pop at hpop
  split at hpop
  · cases hpop
  · obtain ⟨_, rfl⟩ := Prod.mk.inj (Option.some.inj hpop)
    exact ⟨rfl, rfl, rfl⟩

theorem dispatchNext_start (l : PriorityLevel) (r : Request) (flow : Str) :
    (l.start r flow).dispatchNext = l.dispatchNext.map (Prod.map id (·.start r flow)) := by
  have hpop : ∀ idx, (l.start r flow).pop idx = (l.pop idx).map (Prod.map id (·.start r flow)) := by
    intro idx
    unfold pop
    split
    · next hnil =>
      split
      · rfl
      · next hcons => cases hnil.symm.trans hcons
    · next hcons =>
      split
      · next hnil => cases hnil.symm.trans hcons
      · next hsame =>
        cases hcons.symm.trans hsame
        rfl
  have hscan : (l.start r flow).dispatchNext =
      (l.scanOrder.find? fun idx => l.queueAt idx ≠ []).bind (l.start r flow).pop := rfl
  rw [hscan, dispatchNext, Option.map_bind]
  exact congrArg _ (funext hpop)

theorem inTurn_start (l : PriorityLevel) (r : Request) (flow : Str) (n : ℕ) :
    (l.start r flow).inTurn n = l.inTurn n := by
  induction n generalizing l with
  | zero => rfl
  | succ n ih =>
    rw [inTurn, inTurn, dispatchNext_start]
    cases l.dispatchNext with
    | none => rfl
    | some next => exact congrArg (next.1 :: ·) (ih next.2)

/-! ### The loop of `Tick` -/

/-- The seats of a level after it has started the given requests. -/
def seated (seats : GoMap Str Str) (qs : List Queued) : GoMap Str Str :=
  qs.foldl (fun seats q => seats.insert q.req.id q.flow) seats

/-- The IDs are distinct, and none of them holds a seat. -/
def Fresh (seats : GoMap Str Str) (qs : List Queued) : Prop :=
  (qs.map fun q => q.req.id).Nodup ∧ ∀ q ∈ qs, q.req.id ∉ seats

theorem seated_cons (seats : GoMap Str Str) (q : Queued) (qs : List Queued) :
    seated seats (q :: qs) = seated (seats.insert q.req.id q.flow) qs := rfl

variable {seats : GoMap Str Str}

theorem fresh_cons {q : Queued} {qs : List Queued} :
    Fresh seats (q :: qs) ↔ q.req.id ∉ seats ∧ Fresh (seats.insert q.req.id q.flow) qs := by
  simp only [Fresh, map_cons, nodup_cons, forall_mem_cons, mem_insert, not_or,
    mem_map, not_exists, not_and]
  grind

theorem mem_seated {qs : List Queued} {id : Str} :
    id ∈ seated seats qs ↔ id ∈ seats ∨ ∃ q ∈ qs, q.req.id = id := by
  induction qs generalizing seats with
  | nil => simp [seated]
  | cons q qs ih =>
    rw [seated_cons, ih, mem_insert]
    simp only [exists_mem_cons_iff]
    grind

theorem len_seated_le (seats : GoMap Str Str) (qs : List Queued) :
    (seated seats qs).len ≤ seats.len + qs.length := by
  induction qs generalizing seats with
  | nil => exact le_refl _
  | cons q qs ih =>
    have hrest := ih (seats.insert q.req.id q.flow)
    rw [GoMap.len_insert] at hrest
    rw [seated_cons, length_cons]
    split at hrest <;> omega

theorem len_seated_iff (seats : GoMap Str Str) (qs : List Queued) :
    (seated seats qs).len = seats.len + qs.length ↔ Fresh seats qs := by
  induction qs generalizing seats with
  | nil => simp [seated, Fresh]
  | cons q qs ih =>
    have hrest := ih (seats.insert q.req.id q.flow)
    have hle := len_seated_le (seats.insert q.req.id q.flow) qs
    rw [GoMap.len_insert] at hrest hle
    rw [seated_cons, length_cons, fresh_cons]
    split_ifs at hrest with hheld
    · rw [if_pos hheld] at hle
      exact iff_of_false (by omega) fun h => h.1 hheld
    · rw [← hrest, and_iff_right hheld]
      omega

theorem fill_spec (l : PriorityLevel) (fuel : ℕ) : (l.fill fuel).1.concurrency = l.concurrency ∧
      (l.fill fuel).1.inFlight = l.inFlight + (l.fill fuel).2.length ∧
      (l.fill fuel).1.seats = seated l.seats (l.fill fuel).2 := by
  induction fuel generalizing l with
  | zero => simp [fill, seated]
  | succ fuel ih =>
    unfold fill
    split
    · split
      · simp [seated]
      · next q l' hnext =>
        obtain ⟨hconcurrency, hinFlight, hseats⟩ := of_dispatchNext_some hnext
        obtain ⟨ih1, ih2, ih3⟩ := ih (l'.start q.req q.flow)
        refine ⟨ih1.trans hconcurrency, ih2.trans ?_, ih3.trans ?_⟩
        · simp only [start, hinFlight, length_cons]
          push_cast
          ring
        · rw [seated_cons, ← hseats]
          rfl
    · simp [seated]

theorem fill_inFlight_le (h : l.inFlight ≤ l.concurrency) (fuel : ℕ) :
    (l.fill fuel).1.inFlight ≤ l.concurrency := by
  induction fuel generalizing l with
  | zero => exact h
  | succ fuel ih =>
    unfold fill
    split_ifs with hfree
    · split
      · exact h
      · next q l' hnext =>
        obtain ⟨hconcurrency, hinFlight, _⟩ := of_dispatchNext_some hnext
        rw [← hconcurrency]
        refine ih (l := l'.start q.req q.flow) ?_
        show l'.inFlight + 1 ≤ l'.concurrency
        omega
    · exact h

theorem fill_exhausts {fuel : ℕ} (hfuel : l.free ≤ fuel) : ¬ (l.fill fuel).1.Idle := by
  induction fuel generalizing l with
  | zero =>
    rintro ⟨hfree, _⟩
    unfold free at hfuel
    change l.inFlight < l.concurrency at hfree
    omega
  | succ fuel ih =>
    unfold fill
    split
    · next hfree =>
      split
      · next hnone =>
        rintro ⟨_, hwaiting⟩
        exact absurd (totalQueued_of_dispatchNext_none hnone) hwaiting.ne'
      · next q l' hnext =>
        obtain ⟨hconcurrency, hinFlight, _⟩ := of_dispatchNext_some hnext
        refine ih (l := l'.start q.req q.flow) ?_
        unfold free at hfuel
        show (l'.concurrency - (l'.inFlight + 1)).toNat ≤ fuel
        omega
    · next hfull => exact fun hidle => hfull hidle.1

theorem fill_inTurn {n : ℕ} (hn : n ≤ l.free) : (l.fill n).2 = l.inTurn n := by
  induction n generalizing l with
  | zero => rfl
  | succ n ih =>
    unfold free at hn
    rw [fill, if_pos (by omega), inTurn]
    cases hnext : l.dispatchNext with
    | none => rfl
    | some next =>
      obtain ⟨hconcurrency, hinFlight, _⟩ := of_dispatchNext_some hnext
      have hfree : n ≤ (next.2.start next.1.req next.1.flow).free := by
        show n ≤ (next.2.concurrency - (next.2.inFlight + 1)).toNat
        omega
      exact congrArg (next.1 :: ·) ((ih hfree).trans (inTurn_start ..))

theorem conserved_fill_iff (h : l.Conserved) (fuel : ℕ) :
    (l.fill fuel).1.Conserved ↔ Fresh l.seats (l.fill fuel).2 := by
  obtain ⟨hconcurrency, hinFlight, hseats⟩ := l.fill_spec fuel
  have hle := fill_inFlight_le h.2 fuel
  have hcount := h.1
  unfold Conserved
  rw [hconcurrency, and_iff_left hle, ← len_seated_iff, ← hseats]
  omega

end PriorityLevel

end HelixCluster.FlowControl
