import HelixCluster.Lib.GoInt
import HelixCluster.Lib.Runs

/-!
# Metered billing

The `Controller` of `pkg/billingfsm`, with the clock as an argument. A load is a `float64` that is
only compared, so `F` is any type with a zero and an order.
-/

namespace HelixCluster.Billing

inductive State where
  | cold
  | hot
  deriving DecidableEq

structure Controller (F : Type) where
  scalingThreshold : F
  shutdownAfter : Int64
  state : State
  lastTick : ℤ
  lastRequest : ℤ
  billedNanos : Int64

variable {F : Type}

/-- `New`. -/
def newController (scalingThreshold : F) (shutdownAfter : Int64) (now : ℤ) : Controller F :=
  ⟨scalingThreshold, shutdownAfter, .cold, now, now, 0⟩

namespace Controller

def accrue (c : Controller F) (now : ℤ) : Controller F :=
  if now < c.lastTick then { c with lastTick := now }
  else
    { c with
      billedNanos := if c.state = .hot then c.billedNanos + timeSub now c.lastTick
        else c.billedNanos
      lastTick := now }

/-- The shutdown of a hot machine that is idle. -/
def shutdown (c : Controller F) (now : ℤ) : Controller F :=
  if timeSub now c.lastRequest ≥ c.shutdownAfter then { c with state := .cold } else c

def tick (c : Controller F) (now : ℤ) : Controller F :=
  let c := c.accrue now
  if c.state = .hot then c.shutdown now else c

def observeAt [Zero F] [LT F] [DecidableLT F] (c : Controller F) (now : ℤ) (load : F) :
    Controller F :=
  let c := c.accrue now
  let c := if load > 0 then { c with lastRequest := now } else c
  match c.state with
  | .cold => if load > c.scalingThreshold then { c with state := .hot } else c
  | .hot => c.shutdown now

end Controller

/-- A call. -/
inductive Call (F : Type) where
  | tick (now : ℤ)
  | observeAt (now : ℤ) (load : F)

def Call.time : Call F → ℤ
  | .tick now => now
  | .observeAt now _ => now

/-- A controller with its construction, the latest and the last timestamp, and the time in `Hot`. -/
structure Meter (F : Type) where
  controller : Controller F
  built : ℤ
  latest : ℤ
  last : ℤ
  hotTime : ℤ

namespace Meter

/-- A new controller. -/
def start (scalingThreshold : F) (shutdownAfter : Int64) (built : ℤ) : Meter F :=
  ⟨newController scalingThreshold shutdownAfter built, built, built, built, 0⟩

/-- The bill in nanoseconds. -/
def billed (m : Meter F) : ℤ := m.controller.billedNanos.toInt

variable [Zero F] [LT F] [DecidableLT F]

def step (m : Meter F) (call : Call F) : Meter F where
  controller :=
    match call with
    | .tick now => m.controller.tick now
    | .observeAt now load => m.controller.observeAt now load
  built := m.built
  latest := max m.latest call.time
  last := call.time
  hotTime := m.hotTime + if m.controller.state = .hot then call.time - m.last else 0

/-- The call is not before the last one, or not before the construction plus the bill. -/
def Forward (m : Meter F) (call : Call F) : Prop :=
  m.last ≤ call.time ∨ m.built + m.billed ≤ call.time

variable {m : Meter F} {call : Call F}

theorem step_accrues (m : Meter F) (call : Call F) :
    (m.step call).controller.lastTick = (m.controller.accrue call.time).lastTick ∧
      (m.step call).controller.billedNanos = (m.controller.accrue call.time).billedNanos := by
  cases call with
  | tick now =>
    dsimp only [step, Controller.tick, Controller.shutdown, Call.time]
    split
    · split <;> exact ⟨rfl, rfl⟩
    · exact ⟨rfl, rfl⟩
  | observeAt now load =>
    dsimp only [step, Controller.observeAt, Controller.shutdown, Call.time]
    split <;> split <;> split <;> exact ⟨rfl, rfl⟩

theorem lastTick_step (m : Meter F) (call : Call F) :
    (m.step call).controller.lastTick = call.time := by
  rw [(m.step_accrues call).1, Controller.accrue]
  split <;> rfl

theorem billed_step (hlast : m.controller.lastTick = m.last) :
    (m.step call).billed = if m.last ≤ call.time ∧ m.controller.state = .hot then
        (m.controller.billedNanos + timeSub call.time m.last).toInt else m.billed := by
  unfold billed
  rw [(m.step_accrues call).2, Controller.accrue, hlast]
  by_cases hback : call.time < m.last
  · rw [if_pos hback, if_neg fun h => not_lt.mpr h.1 hback]
  rw [if_neg hback]
  by_cases hhot : m.controller.state = .hot
  · rw [if_pos hhot, if_pos ⟨not_lt.mp hback, hhot⟩]
  · rw [if_neg hhot, if_neg fun h => hhot h.2]

/-! ## The bill is within the time since the construction -/

/-- The time up to the last call covers the bill. -/
structure Covered (m : Meter F) : Prop where
  lastTick : m.controller.lastTick = m.last
  latest : m.last ≤ m.latest
  billed : m.built + m.billed ≤ m.last

theorem covered_step (h : m.Covered) (hforward : m.Forward call) : (m.step call).Covered where
  lastTick := m.lastTick_step call
  latest := le_max_right _ _
  billed := by
    show m.built + (m.step call).billed ≤ call.time
    have hbilled := h.billed
    rw [billed_step h.lastTick]
    split
    · next hhot =>
      have hsub := toInt_timeSub hhot.1
      have hle := m.controller.billedNanos.le_toInt
      have hsum := toInt_add_le (a := m.controller.billedNanos) (b := timeSub call.time m.last)
        (by omega)
      unfold Meter.billed at hbilled
      omega
    -- Nothing is billed, and the call is late enough by one of the two conditions.
    rcases hforward with hlast | hbill
    · exact hbilled.trans hlast
    · exact hbill

/-! ## The bill is the time spent in `Hot` -/

/-- The bill is the time spent in `Hot` as long as that fits. -/
structure Metered (m : Meter F) : Prop where
  lastTick : m.controller.lastTick = m.last
  nonneg : 0 ≤ m.hotTime
  billed : m.hotTime < 2 ^ 63 → m.billed = m.hotTime

theorem metered_step (h : m.Metered) (horder : m.controller.state = .hot → m.last ≤ call.time) :
    (m.step call).Metered := by
  have hnonneg := h.nonneg
  by_cases hhot : m.controller.state = .hot
  · have hlast := horder hhot
    have hhotTime : (m.step call).hotTime = m.hotTime + (call.time - m.last) :=
      congrArg (m.hotTime + ·) (if_pos hhot)
    refine ⟨m.lastTick_step call, by omega, fun hfits => ?_⟩
    have hbilled : m.controller.billedNanos.toInt = m.hotTime := h.billed (by omega)
    have hsub : (timeSub call.time m.last).toInt = call.time - m.last := by
      rw [toInt_timeSub hlast]
      omega
    rw [billed_step h.lastTick, if_pos ⟨hlast, hhot⟩, hhotTime, ← hbilled, ← hsub]
    exact toInt_add_of_bounds (by omega) (by omega)
  have hhotTime : (m.step call).hotTime = m.hotTime :=
    (congrArg (m.hotTime + ·) (if_neg hhot)).trans (add_zero _)
  refine ⟨m.lastTick_step call, hhotTime ▸ hnonneg, fun hfits => ?_⟩
  rw [billed_step h.lastTick, if_neg fun hand => hhot hand.2, hhotTime]
  exact h.billed (hhotTime ▸ hfits)

theorem along_of_pairwise {calls : List (Call F)} (hcold : m.controller.state = .hot →
      ∀ call ∈ calls, m.last ≤ call.time) (horder : calls.Pairwise fun a b => a.time ≤ b.time) :
    Along step (fun m call => m.controller.state = .hot → m.last ≤ call.time) m calls := by
  induction calls generalizing m with
  | nil => trivial
  | cons call calls ih =>
    obtain ⟨hcall, hrest⟩ := List.pairwise_cons.mp horder
    exact ⟨fun hhot => hcold hhot call List.mem_cons_self, ih (fun _ => hcall) hrest⟩

end Meter

variable [Zero F] [LT F] [DecidableLT F]

/-- **No second is billed twice**, unless a call goes back behind the construction plus the bill. -/
theorem no_second_billed_twice (scalingThreshold : F) (shutdownAfter : Int64) (built : ℤ)
    (calls : List (Call F)) :
    (Along Meter.step Meter.Forward (.start scalingThreshold shutdownAfter built) calls →
      ∀ m ∈ states Meter.step (.start scalingThreshold shutdownAfter built) calls,
        m.billed ≤ m.latest - m.built) ∧ (calls.Pairwise (fun a b => a.time ≤ b.time) →
      ∀ m ∈ states Meter.step (.start scalingThreshold shutdownAfter built) calls,
        m.billed = m.hotTime ↔ m.hotTime < 2 ^ 63) := by
  constructor
  · intro hforward m hm
    have hcovered := forall_states_of_along (I := Meter.Covered)
      (fun _ _ h hforward => Meter.covered_step h hforward)
      ⟨rfl, le_refl _, by simp [Meter.start, Meter.billed, newController]⟩ hforward m hm
    have hlatest := hcovered.latest
    have hbilled := hcovered.billed
    omega
  intro horder m hm
  have hmetered := forall_states_of_along (I := Meter.Metered)
    (fun _ _ h horder => Meter.metered_step h horder)
    ⟨rfl, le_refl _, fun _ => by simp [Meter.start, Meter.billed, newController]⟩
    (Meter.along_of_pairwise (fun hhot => by cases hhot) horder) m hm
  have hlt := m.controller.billedNanos.toInt_lt
  exact ⟨fun heq => heq ▸ hlt, hmetered.billed⟩

/-- A machine that is hot for ten nanoseconds and then idle is billed for the ten. -/
theorem hot_once_billed_once :
    let calls := [Call.observeAt 5 1, .tick 15, .tick 20]
    let m := calls.foldl Meter.step (.start (0 : ℤ) 10 0)
    m.billed ≤ m.latest - m.built ∧ m.billed = m.hotTime ∧ m.billed = 10 := by
  intro calls m
  have hm : m ∈ states Meter.step (.start (0 : ℤ) 10 0) calls := foldl_mem_states _ _
  obtain ⟨hcovered, hmetered⟩ := no_second_billed_twice (0 : ℤ) 10 0 calls
  refine ⟨hcovered ⟨.inl (by decide), .inl (by decide), .inl (by decide), trivial⟩ m hm, ?_,
    by decide⟩
  exact (hmetered (by simp [calls, Call.time]) m hm).mpr (by decide)

/-- A call goes back to the start, and the next one bills ten nanoseconds once more. -/
theorem second_billed_twice :
    let m := [Call.observeAt 0 1, .tick 10, .tick 0, .tick 10].foldl Meter.step
      (.start (0 : ℤ) 100 0)
    m.billed = 20 ∧ m.latest - m.built = 10 ∧ ¬ m.billed ≤ m.latest - m.built := by
  decide

end HelixCluster.Billing
