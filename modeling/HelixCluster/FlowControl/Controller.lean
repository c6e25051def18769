import HelixCluster.FlowControl.Level
import HelixCluster.Lib.Runs

/-!
# Seat conservation

The `Controller` of `pkg/flowcontrol`. The tick that `Offer` reads is an argument, and so is the
order in which `Finish` ranges over the levels.
-/

namespace HelixCluster.FlowControl

open List

inductive AdmissionDecision where
  | decisionAdmit
  | decisionEnqueue
  | decisionReject
  deriving DecidableEq

/-- The errors of the controller. -/
inductive Error where
  | levelExists
  | unknownLevel
  | schemaExists
  | badConcurrency
  | badQueueLength
  | nilClassifier
  | noMatchingFlow
  | unknownRequest
  | duplicateID
  deriving DecidableEq

structure Classification where
  level : Str
  flow : Str
  deriving DecidableEq

/-- `FlowSchema`. A function that is nil is `none`. -/
structure FlowSchema where
  name : Str
  level : Str
  matchOrder : Int64
  matcher : Option (Request → Bool)
  distinguish : Option (Request → Str)

/-- The comparison that `RegisterFlowSchema` sorts by. -/
def FlowSchema.less (a b : FlowSchema) : Bool :=
  if a.matchOrder ≠ b.matchOrder then a.matchOrder < b.matchOrder else a.name < b.name

structure Controller where
  levels : GoMap Str PriorityLevel
  schemas : List FlowSchema
  seq : UInt64
  admitted : GoMap Str Int64
  maxInFlightSeen : GoMap Str ℤ

def newController : Controller := ⟨∅, [], 0, ∅, ∅⟩

namespace Controller

def registerPriorityLevel (c : Controller) (name : Str) (concurrency maxQueueLen : ℤ) :
    Controller × Option Error :=
  if name ∈ c.levels then (c, some .levelExists)
  else if hconcurrency : concurrency < 1 then (c, some .badConcurrency)
  else if hmaxQueueLen : maxQueueLen < 1 then (c, some .badQueueLength)
  else
    let level : PriorityLevel :=
      { name, concurrency, maxQueueLen, inFlight := 0, queues := ∅, rrOrder := [], rrCursor := 0,
        seats := ∅, concurrency_pos := not_lt.mp hconcurrency
        maxQueueLen_pos := not_lt.mp hmaxQueueLen
        listed := fun _ hflow => absurd hflow (AList.notMem_empty _) }
    ({ c with
        levels := c.levels.insert name level
        maxInFlightSeen := c.maxInFlightSeen.insert name 0 }, none)

def registerFlowSchema (c : Controller) (fs : FlowSchema) : Controller × Option Error :=
  if fs.level ∉ c.levels then (c, some .unknownLevel)
  else if fs.matcher.isNone then (c, some .nilClassifier)
  else if ∃ existing ∈ c.schemas, existing.name = fs.name then (c, some .schemaExists)
  else
    ({ c with schemas := (c.schemas ++ [fs]).insertionSort fun a b => b.less a = false }, none)

def classify (c : Controller) (r : Request) : Option Classification :=
  (c.schemas.find? fun fs => fs.matcher.any fun m => m r).map fun fs =>
    ⟨fs.level, fs.distinguish.elim r.flowID fun f => f r⟩

def idInFlight (c : Controller) (id : Str) : Bool :=
  c.levels.entries.any fun e => id ∈ e.2.seats

/-- `start`, on the level of the given name. -/
def start (c : Controller) (name : Str) (lvl : PriorityLevel) (r : Request) (flow : Str) :
    Controller :=
  let lvl := lvl.start r flow
  let key := lvl.name ++ [47] ++ flow
  { c with
    levels := c.levels.insert name lvl
    maxInFlightSeen := c.maxInFlightSeen.raise 0 lvl.name lvl.inFlight
    admitted := c.admitted.insert key (c.admitted.read key 0 + 1) }

def offer (c : Controller) (r : Request) (now : Int64) :
    Controller × Classification × AdmissionDecision × Option Error :=
  match c.classify r with
  | none => (c, ⟨[], []⟩, .decisionReject, some .noMatchingFlow)
  | some cls =>
    match c.levels.lookup cls.level with
    -- The level of a schema is registered, so this branch is not taken.
    | none => (c, cls, .decisionReject, none)
    | some lvl =>
      if c.idInFlight r.id then (c, cls, .decisionReject, some .duplicateID)
      else if lvl.inFlight < lvl.concurrency ∧ lvl.totalQueued = 0 then
        (c.start cls.level lvl r cls.flow, cls, .decisionAdmit, none)
      else if (lvl.queues.read cls.flow []).length ≥ lvl.maxQueueLen then
        (c, cls, .decisionReject, none)
      else
        ({ c with
            levels := c.levels.insert cls.level (lvl.enqueue ⟨r, cls.flow, now, c.seq + 1⟩)
            seq := c.seq + 1 }, cls, .decisionEnqueue, none)

/-- The first level with a seat for the ID, in an order of the map that starts as given. -/
def seatOf (c : Controller) (order : List Str) (id : Str) :
    Option (Str × PriorityLevel) :=
  (order ++ c.levels.keys).findSome? fun name =>
    ((c.levels.lookup name).filter fun lvl => id ∈ lvl.seats).map fun lvl => (name, lvl)

def finish (c : Controller) (order : List Str) (id : Str) : Controller × Option Error :=
  match c.seatOf order id with
  | none => (c, some .unknownRequest)
  | some (name, lvl) => ({ c with levels := c.levels.insert name (lvl.release id) }, none)

def sortedLevelNames (c : Controller) : List Str := c.levels.keys.insertionSort (· ≤ ·)

/-- The inner loop of `Tick`, with the requests it starts. -/
def tickLevel (c : Controller) (name : Str) : ℕ → Controller × List Queued
  | 0 => (c, [])
  | fuel + 1 =>
    match c.levels.lookup name with
    | none => (c, [])
    | some lvl =>
      if lvl.inFlight < lvl.concurrency then
        match lvl.dispatchNext with
        | none => (c, [])
        | some (q, lvl) =>
          let rest := (c.start name lvl q.req q.flow).tickLevel name fuel
          (rest.1, q :: rest.2)
      else (c, [])

/-- The outer loop of `Tick`, with what it starts. A level has as many rounds as free seats. -/
def tickLevels (c : Controller) : List Str → Controller × List (Str × Queued)
  | [] => (c, [])
  | name :: names =>
    let one := c.tickLevel name ((c.levels.lookup name).elim 0 PriorityLevel.free)
    let rest := one.1.tickLevels names
    (rest.1, one.2.map (name, ·) ++ rest.2)

def tick (c : Controller) : Controller × List Classification :=
  let done := c.tickLevels c.sortedLevelNames
  (done.1, done.2.map fun started => ⟨started.1, started.2.flow⟩)

/-- The level and ID of every request that a `Tick` starts. -/
def tickStarts (c : Controller) : List (Str × Str) :=
  (c.tickLevels c.sortedLevelNames).2.map fun started => (started.1, started.2.req.id)

variable {c : Controller} {name id : Str} {lvl : PriorityLevel} {order : List Str}

/-! ## What the calls do to the levels -/

theorem of_seatOf_some (h : c.seatOf order id = some (name, lvl)) :
    c.levels.lookup name = some lvl ∧ id ∈ lvl.seats := by
  obtain ⟨_, _, _, _, hfound, _⟩ := List.findSome?_eq_some_iff.mp h
  obtain ⟨found, hfilter, heq⟩ := Option.map_eq_some_iff.mp hfound
  cases heq
  obtain ⟨hlookup, hseat⟩ := Option.filter_eq_some_iff.mp hfilter
  exact ⟨hlookup, of_decide_eq_true hseat⟩

theorem of_seatOf_none (h : c.seatOf order id = none)
    (hlookup : c.levels.lookup name = some lvl) : id ∉ lvl.seats := by
  have hkey : name ∈ c.levels.keys := AList.mem_keys.mp (GoMap.mem_of_lookup hlookup)
  have hskip := List.findSome?_eq_none_iff.mp h name (mem_append_right _ hkey)
  simpa [hlookup, Option.filter] using hskip

theorem of_idInFlight_false (h : c.idInFlight id = false)
    (hlookup : c.levels.lookup name = some lvl) : id ∉ lvl.seats := by
  have hentry : ⟨name, lvl⟩ ∈ c.levels.entries := AList.mem_lookup_iff.mp hlookup
  simpa using any_eq_false.mp h _ hentry

/-- An offer is refused, takes a seat where nothing waits, or queues up. -/
inductive OfferEffect (c : Controller) (r : Request) :
    Controller × Classification × AdmissionDecision × Option Error → Prop where
  | rejects {cls : Classification} {err : Option Error} : OfferEffect c r (c, cls, .decisionReject, err)
  | admits {cls : Classification} {lvl : PriorityLevel}
      (hlookup : c.levels.lookup cls.level = some lvl) (hid : c.idInFlight r.id = false)
      (hfree : lvl.inFlight < lvl.concurrency ∧ lvl.totalQueued = 0) :
      OfferEffect c r (c.start cls.level lvl r cls.flow, cls, .decisionAdmit, none)
  | enqueues {cls : Classification} {lvl : PriorityLevel} {now : Int64} {seq : UInt64}
      (hclassify : c.classify r = some cls) (hlookup : c.levels.lookup cls.level = some lvl)
      (hid : c.idInFlight r.id = false)
      (hbusy : ¬(lvl.inFlight < lvl.concurrency ∧ lvl.totalQueued = 0))
      (hroom : (lvl.queues.read cls.flow []).length < lvl.maxQueueLen) :
      OfferEffect c r
        ({ c with levels := c.levels.insert cls.level (lvl.enqueue ⟨r, cls.flow, now, seq⟩), seq },
          cls, .decisionEnqueue, none)

theorem offerEffect (c : Controller) (r : Request) (now : Int64) :
    OfferEffect c r (c.offer r now) := by
  unfold offer
  split
  · exact .rejects
  · next cls hclassify =>
    split
    · exact .rejects
    · next lvl hlookup =>
      split
      · exact .rejects
      · next hid =>
        split
        · next hfree => exact .admits hlookup (Bool.eq_false_iff.mpr hid) hfree
        · next hbusy =>
          split
          · exact .rejects
          · next hroom =>
            exact .enqueues hclassify hlookup (Bool.eq_false_iff.mpr hid) hbusy (not_le.mp hroom)

theorem tickLevel_of_lookup (hlookup : c.levels.lookup name = some lvl) (fuel : ℕ) :
    (∀ other, (c.tickLevel name fuel).1.levels.lookup other =
        if other = name then some (lvl.fill fuel).1 else c.levels.lookup other) ∧
      (c.tickLevel name fuel).2 = (lvl.fill fuel).2 := by
  -- A round without a start leaves the controller as it is.
  have hstop : ∀ other, c.levels.lookup other =
      if other = name then some lvl else c.levels.lookup other := by
    intro other
    split
    · next h => rw [h, hlookup]
    · rfl
  induction fuel generalizing c lvl with
  | zero => exact ⟨hstop, rfl⟩
  | succ fuel ih =>
    unfold tickLevel PriorityLevel.fill
    rw [hlookup]
    dsimp only
    split
    · cases hnext : lvl.dispatchNext with
      | none => exact ⟨hstop, rfl⟩
      | some next =>
        obtain ⟨q, popped⟩ := next
        have hinsert : ∀ other, (c.start name popped q.req q.flow).levels.lookup other =
            if other = name then some (popped.start q.req q.flow)
            else c.levels.lookup other :=
          fun other => GoMap.lookup_insert_if ..
        obtain ⟨hlevels, hstarted⟩ := ih ((hinsert name).trans (if_pos rfl))
          (fun other => by rw [hinsert]; split <;> rfl)
        refine ⟨fun other => (hlevels other).trans ?_, congrArg (q :: ·) hstarted⟩
        split
        · rfl
        · next hother => rw [hinsert, if_neg hother]
    · exact ⟨hstop, rfl⟩

/-- The requests that a `Tick` starts in the level of the given name. -/
def startsIn (c : Controller) (name : Str) : List Queued :=
  (c.levels.lookup name).elim [] fun lvl => (lvl.fill lvl.free).2

theorem tickLevels_spec {names : List Str} (hnames : names.Nodup)
    (hregistered : ∀ name ∈ names, name ∈ c.levels) :
    (∀ other, (c.tickLevels names).1.levels.lookup other =
        if other ∈ names then (c.levels.lookup other).map fun lvl => (lvl.fill lvl.free).1
        else c.levels.lookup other) ∧
      (c.tickLevels names).2 = names.flatMap fun name => (c.startsIn name).map (name, ·) := by
  induction names generalizing c with
  | nil => simp [tickLevels]
  | cons name names ih =>
    obtain ⟨hname, hnames⟩ := nodup_cons.mp hnames
    obtain ⟨lvl, hlookup⟩ := Option.isSome_iff_exists.mp
      (AList.lookup_isSome.mpr (hregistered name mem_cons_self))
    obtain ⟨hlevels, hstarted⟩ := tickLevel_of_lookup hlookup lvl.free
    unfold tickLevels
    rw [hlookup]
    dsimp only [Option.elim_some]
    set one := c.tickLevel name lvl.free
    have hsame : ∀ other ∈ names, one.1.levels.lookup other = c.levels.lookup other := by
      intro other hother
      have hne : other ≠ name := ne_of_mem_of_not_mem hother hname
      rw [hlevels, if_neg hne]
    obtain ⟨ihlevels, ihstarted⟩ := ih (c := one.1) hnames fun other hother => by
      rw [← AList.lookup_isSome, hsame other hother, AList.lookup_isSome]
      exact hregistered other (mem_cons_of_mem _ hother)
    refine ⟨fun other => (ihlevels other).trans ?_, ?_⟩
    · by_cases hother : other ∈ names
      · rw [if_pos hother, if_pos (mem_cons_of_mem _ hother), hsame other hother]
      · rw [if_neg hother, hlevels]
        rcases eq_or_ne other name with rfl | heq
        · simp [hlookup]
        · rw [if_neg heq, if_neg (by simp [heq, hother])]
    have hrest : names.flatMap (fun other => (one.1.startsIn other).map (other, ·)) =
        names.flatMap fun other => (c.startsIn other).map (other, ·) := by
      refine flatMap_congr fun other hother => ?_
      rw [startsIn, hsame other hother]
      rfl
    rw [ihstarted, hrest, hstarted, flatMap_cons]
    simp [startsIn, hlookup]

theorem mem_sortedLevelNames : name ∈ c.sortedLevelNames ↔ name ∈ c.levels := by
  rw [sortedLevelNames, mem_insertionSort, ← AList.mem_keys]

theorem nodup_sortedLevelNames (c : Controller) : c.sortedLevelNames.Nodup :=
  (perm_insertionSort _ _).nodup_iff.mpr c.levels.keys_nodup

theorem tickStarts_eq (c : Controller) : c.tickStarts = c.sortedLevelNames.flatMap fun name =>
      (c.startsIn name).map fun q => (name, q.req.id) := by
  have hspec := tickLevels_spec c.nodup_sortedLevelNames fun _ => mem_sortedLevelNames.mp
  rw [tickStarts, hspec.2, map_flatMap]
  simp only [map_map]
  rfl

theorem mem_tickStarts : (name, id) ∈ c.tickStarts ↔ ∃ q ∈ c.startsIn name, q.req.id = id := by
  rw [tickStarts_eq, mem_flatMap]
  constructor
  · rintro ⟨other, _, hmem⟩
    obtain ⟨q, hq, heq⟩ := mem_map.mp hmem
    cases heq
    exact ⟨q, hq, rfl⟩
  rintro ⟨q, hq, rfl⟩
  refine ⟨name, mem_sortedLevelNames.mpr ?_, mem_map.mpr ⟨q, hq, rfl⟩⟩
  by_contra hname
  rw [startsIn, AList.lookup_eq_none.mpr hname] at hq
  cases hq

theorem nodup_tickStarts (h : ∀ name, ((c.startsIn name).map fun q => q.req.id).Nodup) :
    c.tickStarts.Nodup := by
  rw [tickStarts_eq, nodup_flatMap]
  constructor
  · intro name _
    have hpairs := (h name).map (Prod.mk_right_injective name)
    rwa [map_map] at hpairs
  refine c.nodup_sortedLevelNames.imp fun hne => ?_
  simp only [Function.onFun, disjoint_left, mem_map, not_exists, not_and]
  rintro _ ⟨q, _, rfl⟩ q' _ heq
  exact hne (Prod.mk.inj heq).1.symm

theorem lookup_tick (c : Controller) (name : Str) : c.tick.1.levels.lookup name =
      (c.levels.lookup name).map fun lvl => (lvl.fill lvl.free).1 := by
  refine ((tickLevels_spec c.nodup_sortedLevelNames
    fun _ => mem_sortedLevelNames.mp).1 name).trans ?_
  split_ifs with hname
  · rfl
  · rw [mem_sortedLevelNames] at hname
    rw [AList.lookup_eq_none.mpr hname]
    rfl

end Controller

/-- A call. -/
inductive Call where
  | registerPriorityLevel (name : Str) (concurrency maxQueueLen : ℤ)
  | registerFlowSchema (fs : FlowSchema)
  | offer (r : Request) (now : Int64)
  | finish (order : List Str) (id : Str)
  | tick

/-- A controller, with the level and ID of every request that runs. -/
structure World where
  controller : Controller
  running : List (Str × Str)

namespace World

/-- A new controller. -/
def start : World := ⟨newController, []⟩

def step (w : World) : Call → World
  | .registerPriorityLevel name concurrency maxQueueLen =>
    { w with controller := (w.controller.registerPriorityLevel name concurrency maxQueueLen).1 }
  | .registerFlowSchema fs => { w with controller := (w.controller.registerFlowSchema fs).1 }
  | .offer r now =>
    match w.controller.offer r now with
    | (c, cls, .decisionAdmit, _) => ⟨c, w.running ++ [(cls.level, r.id)]⟩
    | (c, _, _, _) => { w with controller := c }
  | .finish order id =>
    ⟨(w.controller.finish order id).1,
      (w.controller.seatOf order id).elim w.running fun seat => w.running.erase (seat.1, id)⟩
  | .tick =>
    ⟨w.controller.tick.1, w.running ++ w.controller.tickStarts⟩

/-- The requests with the given IDs are finished one after the other. -/
def finishAll (w : World) (calls : List (List Str × Str)) : World :=
  calls.foldl (fun w call => w.step (.finish call.1 call.2)) w

/-- The in-flight count is that of the recorded seats, a `Tick` leaves no free seat to a waiting
request, and finishing all brings the counts to zero. -/
structure Safe (w : World) : Prop where
  conserved : ∀ name lvl, w.controller.levels.lookup name = some lvl → lvl.Conserved
  busy : ∀ name lvl, (w.step .tick).controller.levels.lookup name = some lvl → ¬ lvl.Idle
  drains : ∀ calls : List (List Str × Str),
    (∀ id, (w.running.map Prod.snd).count id ≤ (calls.map Prod.snd).count id) →
      ∀ name lvl, (w.finishAll calls).controller.levels.lookup name = some lvl → lvl.inFlight = 0

/-- At a `Tick` the waiting requests of a level whose turn it is, as many as there are free seats,
have distinct IDs, none of which holds a seat in the level. -/
def StartsFresh (w : World) : Call → Prop
  | .tick => ∀ name lvl, w.controller.levels.lookup name = some lvl →
      PriorityLevel.Fresh lvl.seats (lvl.inTurn lvl.free)
  | _ => True

/-- The state of a run that conserves seats. The requests that run are those with a seat. -/
structure Linked (w : World) : Prop where
  conserved : ∀ name lvl, w.controller.levels.lookup name = some lvl → lvl.Conserved
  nodup : w.running.Nodup
  running : ∀ name id, (name, id) ∈ w.running ↔
    ∃ lvl, w.controller.levels.lookup name = some lvl ∧ id ∈ lvl.seats

variable {w : World}

theorem linked_start : start.Linked where
  conserved _ _ h := by cases h
  nodup := nodup_nil
  running _ _ := by simp [start, newController]

variable {lvl : PriorityLevel} {name : Str} {call : Call}

section

variable (h : w.Linked)

include h

theorem Linked.assign {c : Controller} {running : List (Str × Str)}
    (hlevels : c.levels = w.controller.levels.insert name lvl) (hlvl : lvl.Conserved)
    (hnodup : running.Nodup) (hhere : ∀ id, (name, id) ∈ running ↔ id ∈ lvl.seats)
    (hothers : ∀ other id, other ≠ name → ((other, id) ∈ running ↔ (other, id) ∈ w.running)) :
    Linked ⟨c, running⟩ where
  conserved other lvl' hlookup := by
    rw [hlevels, GoMap.lookup_insert_if] at hlookup
    split at hlookup
    · rwa [← Option.some.inj hlookup]
    · exact h.conserved other lvl' hlookup
  nodup := hnodup
  running other id := by
    rw [hlevels, GoMap.lookup_insert_if]
    split_ifs with heq
    · rw [heq, hhere]
      simp
    · rw [hothers other id heq, h.running]

theorem linked_registerFlowSchema (fs : FlowSchema) : (w.step (.registerFlowSchema fs)).Linked := by
  dsimp only [step]
  unfold Controller.registerFlowSchema
  split
  · exact h
  split
  · exact h
  split
  · exact h
  · exact ⟨h.conserved, h.nodup, h.running⟩

theorem linked_offer (r : Request) (now : Int64) : (w.step (.offer r now)).Linked := by
  have heffect := w.controller.offerEffect r now
  dsimp only [step]
  generalize w.controller.offer r now = result at heffect
  cases heffect with
  | rejects => exact h
  | @admits cls lvl hlookup hid hfree =>
    have hfresh : r.id ∉ lvl.seats := Controller.of_idInFlight_false hid hlookup
    obtain ⟨hcount, _⟩ := h.conserved _ _ hlookup
    have hnew : (cls.level, r.id) ∉ w.running := by
      rw [h.running]
      rintro ⟨lvl', hlookup', hseat⟩
      exact Controller.of_idInFlight_false hid hlookup' hseat
    refine h.assign rfl ⟨?_, ?_⟩ ?_ (fun id => ?_) fun other id hne => ?_
    · show lvl.inFlight + 1 = GoMap.len (lvl.seats.insert r.id cls.flow)
      rw [GoMap.len_insert, if_neg hfresh, hcount]
      rfl
    · show lvl.inFlight + 1 ≤ lvl.concurrency
      omega
    · exact nodup_append.mpr ⟨h.nodup, nodup_singleton _, by grind⟩
    · show _ ↔ id ∈ lvl.seats.insert r.id cls.flow
      rw [mem_append, h.running, hlookup, AList.mem_insert, mem_singleton]
      simp [or_comm]
    · simp [hne]
  | @enqueues cls lvl now seq _ hlookup =>
    refine h.assign rfl (h.conserved cls.level lvl hlookup :) h.nodup (fun id => ?_)
      fun _ _ _ => Iff.rfl
    rw [h.running, hlookup]
    simp [PriorityLevel.enqueue]

theorem linked_finish (order : List Str) (id : Str) :
    (w.step (.finish order id)).Linked := by
  dsimp only [step]
  unfold Controller.finish
  cases hseat : w.controller.seatOf order id with
  | none => exact h
  | some seat =>
    obtain ⟨name, lvl⟩ := seat
    obtain ⟨hlookup, hid⟩ := Controller.of_seatOf_some hseat
    obtain ⟨hcount, hle⟩ := h.conserved _ _ hlookup
    have hlen := GoMap.len_erase_of_mem hid
    refine h.assign rfl ⟨?_, ?_⟩ (h.nodup.erase _) (fun other => ?_) fun other id' hne => ?_
    · show lvl.inFlight - 1 = GoMap.len (lvl.seats.erase id)
      omega
    · show lvl.inFlight - 1 ≤ lvl.concurrency
      omega
    · show (name, other) ∈ w.running.erase (name, id) ↔ other ∈ lvl.seats.erase id
      rw [h.nodup.mem_erase_iff, h.running, hlookup, AList.mem_erase]
      simp
    show (other, id') ∈ w.running.erase (name, id) ↔ _
    rw [h.nodup.mem_erase_iff]
    simp [hne]

theorem linked_tick (hfresh : w.StartsFresh .tick) : (w.step .tick).Linked := by
  have hstarts : ∀ name, PriorityLevel.Fresh
      ((w.controller.levels.lookup name).elim ∅ fun lvl => lvl.seats)
      (w.controller.startsIn name) := by
    intro name
    unfold Controller.startsIn
    cases hlookup : w.controller.levels.lookup name with
    | none => exact ⟨nodup_nil, fun _ h => absurd h not_mem_nil⟩
    | some lvl =>
      rw [Option.elim_some, Option.elim_some, PriorityLevel.fill_inTurn le_rfl]
      exact hfresh name lvl hlookup
  refine ⟨fun name lvl hlookup => ?conserved, ?nodup, fun name id => ?running⟩
  case conserved =>
    obtain ⟨before, hbefore, rfl⟩ :=
      Option.map_eq_some_iff.mp ((w.controller.lookup_tick name).symm.trans hlookup)
    rw [PriorityLevel.conserved_fill_iff (h.conserved name before hbefore),
      PriorityLevel.fill_inTurn le_rfl]
    exact hfresh name before hbefore
  case nodup =>
    refine nodup_append.mpr
      ⟨h.nodup, Controller.nodup_tickStarts fun name => (hstarts name).1, ?_⟩
    rintro ⟨name, id⟩ hrunning _ hstart rfl
    obtain ⟨lvl, hlookup, hseat⟩ := (h.running name id).mp hrunning
    obtain ⟨q, hq, rfl⟩ := Controller.mem_tickStarts.mp hstart
    have hnone := (hstarts name).2 q hq
    rw [hlookup] at hnone
    exact hnone hseat
  case running =>
    show (name, id) ∈ w.running ++ w.controller.tickStarts ↔
      ∃ lvl, w.controller.tick.1.levels.lookup name = some lvl ∧ id ∈ lvl.seats
    rw [mem_append, h.running, Controller.mem_tickStarts, w.controller.lookup_tick,
      Controller.startsIn]
    cases w.controller.levels.lookup name with
    | none => simp
    | some lvl => simp [(lvl.fill_spec lvl.free).2.2, PriorityLevel.mem_seated]

theorem linked_step (hfresh : w.StartsFresh call) : (w.step call).Linked := by
  cases call with
  | registerPriorityLevel name concurrency maxQueueLen =>
    dsimp only [step]
    unfold Controller.registerPriorityLevel
    split
    · exact h
    split
    · exact h
    split
    · exact h
    · next hname hconcurrency _ =>
      refine h.assign rfl ⟨rfl, by simp; omega⟩ h.nodup (fun id => ?_) fun _ _ _ => Iff.rfl
      rw [h.running, AList.lookup_eq_none.mpr hname]
      simp
  | registerFlowSchema fs => exact linked_registerFlowSchema h fs
  | offer r now => exact linked_offer h r now
  | finish order id => exact linked_finish h order id
  | tick => exact linked_tick h hfresh

end

theorem inFlight_of_running_nil (h : w.Linked) (hnil : w.running = []) (hlookup : w.controller.levels.lookup name = some lvl) :
    lvl.inFlight = 0 := by
  have hempty : lvl.seats.keys = [] := by
    refine eq_nil_iff_forall_not_mem.mpr fun id hid => ?_
    have hrunning := (h.running name id).mpr ⟨lvl, hlookup, AList.mem_keys.mpr hid⟩
    rw [hnil] at hrunning
    cases hrunning
  rw [(h.conserved name lvl hlookup).1, GoMap.len, hempty]
  rfl

theorem count_running_finish (h : w.Linked) (order : List Str) (id other : Str) :
    ((w.step (.finish order id)).running.map Prod.snd).count other =
      (w.running.map Prod.snd).count other - if other = id then 1 else 0 := by
  dsimp only [step]
  cases hseat : w.controller.seatOf order id with
  | none =>
    simp only [Option.elim_none]
    split_ifs with heq
    · subst heq
      have hnone : other ∉ w.running.map Prod.snd := by
        rintro hmem
        obtain ⟨⟨name, _⟩, hrunning, rfl⟩ := mem_map.mp hmem
        obtain ⟨lvl, hlookup, hid⟩ := (h.running name _).mp hrunning
        exact Controller.of_seatOf_none hseat hlookup hid
      rw [count_eq_zero.mpr hnone]
    · rfl
  | some seat =>
    obtain ⟨name, lvl⟩ := seat
    obtain ⟨hlookup, hid⟩ := Controller.of_seatOf_some hseat
    have hrunning := (h.running name id).mpr ⟨lvl, hlookup, hid⟩
    have hcount := ((perm_cons_erase hrunning).map Prod.snd).count_eq other
    rw [map_cons, count_cons] at hcount
    simp only [Option.elim_some]
    rw [hcount]
    by_cases heq : other = id
    · simp [heq]
    · simp [heq, Ne.symm heq]

theorem drains_of_linked (h : w.Linked) (calls : List (List Str × Str))
    (hcalls : ∀ id, (w.running.map Prod.snd).count id ≤ (calls.map Prod.snd).count id)
    (hlookup : (w.finishAll calls).controller.levels.lookup name = some lvl) :
    lvl.inFlight = 0 := by
  induction calls generalizing w with
  | nil =>
    refine inFlight_of_running_nil h ?_ hlookup
    have hnone : w.running.map Prod.snd = [] :=
      eq_nil_iff_forall_not_mem.mpr fun id hid => by
        have hpos := count_pos_iff.mpr hid
        have hzero := hcalls id
        simp only [map_nil, count_nil] at hzero
        omega
    exact map_eq_nil_iff.mp hnone
  | cons call calls ih =>
    obtain ⟨order, id⟩ := call
    refine ih (linked_finish h order id) (fun other => ?_) hlookup
    have hother := hcalls other
    rw [count_running_finish h]
    rw [map_cons, count_cons] at hother
    grind

theorem safe_of_linked (h : w.Linked) : w.Safe where
  conserved := h.conserved
  busy name lvl hlookup := by
    obtain ⟨before, _, rfl⟩ :=
      Option.map_eq_some_iff.mp ((w.controller.lookup_tick name).symm.trans hlookup)
    exact PriorityLevel.fill_exhausts (le_refl _)
  drains calls hcalls _ _ := drains_of_linked h calls hcalls

theorem startsFresh_of_safe (h : w.Linked) (hsafe : (w.step call).Safe) :
    w.StartsFresh call := by
  cases call with
  | tick =>
    intro name lvl hlookup
    rw [← PriorityLevel.fill_inTurn le_rfl]
    refine (PriorityLevel.conserved_fill_iff (h.conserved name lvl hlookup) _).mp ?_
    refine hsafe.conserved name _ ((w.controller.lookup_tick name).trans ?_)
    rw [hlookup]
    rfl
  | _ => exact trivial

end World

/-- **Seat conservation**, exactly if at no `Tick` an ID is in turn that holds a seat or is in turn
twice. -/
theorem seats_conserved_iff (calls : List Call) :
    (∀ w ∈ states World.step .start calls, w.Safe) ↔
      Along World.step World.StartsFresh .start calls :=
  forall_states_iff_along (I := World.Linked) (fun _ _ h hfresh => World.linked_step h hfresh)
    (fun _ _ h => ⟨World.startsFresh_of_safe h,
      fun hfresh => World.safe_of_linked (World.linked_step h hfresh)⟩)
    World.linked_start (World.safe_of_linked World.linked_start) calls

/-- `x` is queued and started twice and recorded once. The second `Finish` fails and a seat stays
taken. -/
theorem queued_twice_leaks_seat :
    let w := [Call.registerPriorityLevel [108] 2 2,
      .registerFlowSchema ⟨[115], [108], 0, some fun _ => true, none⟩,
      .offer ⟨[97], [102]⟩ 0, .offer ⟨[98], [102]⟩ 1, .offer ⟨[120], [102]⟩ 2,
      .offer ⟨[120], [102]⟩ 3, .finish [] [97], .finish [] [98], .tick].foldl World.step .start
    let finished := w.step (.finish [] [120])
    (w.controller.levels.lookup [108]).map (fun lvl => (lvl.inFlight, lvl.seats.len)) =
        some (2, 1) ∧
      (finished.controller.finish [] [120]).2 = some .unknownRequest ∧
      ((finished.step (.finish [] [120])).controller.levels.lookup [108]).map
        (fun lvl => lvl.inFlight) = some 1 := by
  decide

end HelixCluster.FlowControl
