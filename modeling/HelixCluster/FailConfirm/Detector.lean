import HelixCluster.Lib.GoInt
import HelixCluster.Lib.GoMap

/-!
# Failure confirmation

The `Detector` of `pkg/failconfirm`, which declares a target dead once a majority of the members
report it. The readings of the clock are arguments:
-/

namespace HelixCluster.FailConfirm

open GoMap

abbrev NodeID := Str

inductive State where
  | alive
  | suspect
  | dead
  deriving DecidableEq

/-- The errors of the package. -/
inductive Err where
  | tooFewMembers
  | unknownNode
  deriving DecidableEq

/-- The fields of `Detector` that `New` fixes. `clock` says whether there is a clock. -/
structure Config where
  members : GoMap NodeID Unit
  quorum : ℕ
  clock : Bool
  ttl : Int64

/-- The fields of `Detector` that change, and the calls of `onDead`. -/
structure Detector where
  susp : GoMap NodeID (GoMap NodeID Int64)
  dead : GoMap NodeID Unit
  fired : List NodeID

/-- The detector that `New` returns. -/
def Detector.new : Detector := ⟨∅, ∅, []⟩

/-- The reports that are stored for a target. -/
def Detector.reporters (d : Detector) (target : NodeID) : GoMap NodeID Int64 := d.susp.read target ∅

/-- `New`, with the clock and the TTL that its options set. -/
def newConfig (members : List NodeID) (clock : Bool) (ttl : Int64) : Except Err Config :=
  let set : GoMap NodeID Unit := members.foldl (fun set m => set.insert m ()) ∅
  if set.len = 0 then .error .tooFewMembers else .ok ⟨set, set.len / 2 + 1, clock, ttl⟩

/-- The body of the loop in `liveReporterCount`. -/
def expire (cutoff : Int64) (s : GoMap NodeID Int64) (r : NodeID) (tick : Int64) :
    GoMap NodeID Int64 :=
  if tick ≤ cutoff then s.erase r else s

def Detector.promote (d : Detector) (target : NodeID) : Detector :=
  if target ∈ d.dead then d
  else
    { susp := d.susp.erase target
      dead := d.dead.insert target ()
      fired := d.fired ++ [target] }

namespace Config

/-- `now`, with the reading of the clock. -/
def now (c : Config) (reading : Int64) : Int64 := if c.clock then reading else 0

def ttlActive (c : Config) : Bool := c.clock && decide (c.ttl > 0)

/-- The reports that are left after a look at them. -/
def pruned (c : Config) (reading : Int64) (s : GoMap NodeID Int64) : GoMap NodeID Int64 :=
  if c.ttlActive then s.foldl (expire (c.now reading - c.ttl)) s else s

/-- `liveReporterCount`, with the detector that it leaves. -/
def liveReporterCount (c : Config) (d : Detector) (target : NodeID) (reading : Int64) :
    Detector × ℕ :=
  match d.susp.lookup target with
  | none => (d, 0)
  | some s =>
    let s := c.pruned reading s
    ({ d with susp := d.susp.insert target s }, s.len)

/-- `ReportPFAIL`, with the two readings of the clock. -/
def reportPFAIL (c : Config) (d : Detector) (reporter target : NodeID) (reading reading' : Int64) :
    Except Err Unit × Detector :=
  if reporter ∉ c.members ∨ target ∉ c.members then (.error .unknownNode, d)
  else if target ∈ d.dead then (.ok (), d)
  else
    let s := (d.reporters target).insert reporter (c.now reading)
    let d := { d with susp := d.susp.insert target s }
    let live := c.liveReporterCount d target reading'
    if live.2 ≥ c.quorum then (.ok (), live.1.promote target) else (.ok (), live.1)

def clearPFAIL (c : Config) (d : Detector) (reporter target : NodeID) : Except Err Unit × Detector :=
  if reporter ∉ c.members ∨ target ∉ c.members then (.error .unknownNode, d)
  else if target ∈ d.dead then (.ok (), d)
  else
    match d.susp.lookup target with
    | none => (.ok (), d)
    | some s =>
      let s := s.erase reporter
      if GoMap.len s = 0 then (.ok (), { d with susp := d.susp.erase target })
      else (.ok (), { d with susp := d.susp.insert target s })

/-- `State`, with the detector that it leaves. -/
def state (c : Config) (d : Detector) (target : NodeID) (reading : Int64) : Detector × State :=
  if target ∈ d.dead then (d, .dead)
  else
    let live := c.liveReporterCount d target reading
    if live.2 > 0 then (live.1, .suspect) else (live.1, .alive)

/-- `ReporterCount`, with the detector that it leaves. -/
def reporterCount (c : Config) (d : Detector) (target : NodeID) (reading : Int64) : Detector × ℕ :=
  if target ∈ d.dead then (d, c.quorum) else c.liveReporterCount d target reading

end Config

/-! ### What is stored -/

variable {c : Config} {d : Detector} {target t r : NodeID} {reading : Int64}

@[simp] theorem reporters_insert (d : Detector) (target t : NodeID) (s : GoMap NodeID Int64) :
    Detector.reporters { d with susp := d.susp.insert target s } t =
      if t = target then s else d.reporters t :=
  read_insert_if ..

@[simp] theorem reporters_erase (d : Detector) (target t : NodeID) :
    Detector.reporters { d with susp := d.susp.erase target } t =
      if t = target then ∅ else d.reporters t :=
  read_erase_if ..

theorem expire_updates (cutoff : Int64) :
    GoMap.Updates (expire cutoff) fun tick old => if tick ≤ cutoff then none else old := by
  intro s r tick j
  unfold expire
  by_cases htick : tick ≤ cutoff
  · rw [if_pos htick, lookup_erase_if]
    simp [htick]
  · simp [htick]

theorem lookup_pruned (c : Config) (reading : Int64) (s : GoMap NodeID Int64) (r : NodeID) :
    (c.pruned reading s).lookup r =
      (s.lookup r).filter fun tick => !(c.ttlActive && decide (tick ≤ c.now reading - c.ttl)) := by
  unfold Config.pruned
  cases c.ttlActive with
  | false =>
    rw [if_neg Bool.false_ne_true]
    cases s.lookup r <;> rfl
  | true =>
    rw [if_pos rfl, lookup_foldl_update (expire_updates _)]
    cases hlookup : s.lookup r with
    | none => rfl
    | some tick =>
      by_cases htick : tick ≤ c.now reading - c.ttl <;> simp [Option.filter, htick]

theorem liveReporterCount_spec (c : Config) (d : Detector) (target : NodeID) (reading : Int64) :
    (c.liveReporterCount d target reading).1.dead = d.dead ∧
      (c.liveReporterCount d target reading).1.fired = d.fired ∧
      (∀ t, (c.liveReporterCount d target reading).1.reporters t =
        if t = target then c.pruned reading (d.reporters t) else d.reporters t) ∧
      (c.liveReporterCount d target reading).2 = (c.pruned reading (d.reporters target)).len := by
  unfold Config.liveReporterCount
  cases hlookup : d.susp.lookup target with
  | none =>
    have hempty : d.reporters target = ∅ := by
      simp [Detector.reporters, GoMap.read, hlookup]
    have hpruned : c.pruned reading ∅ = ∅ := by
      unfold Config.pruned
      split <;> rfl
    refine ⟨rfl, rfl, fun t => ?_, ?_⟩
    · show d.reporters t = _
      split
      · next ht => rw [ht, hempty, hpruned]
      · rfl
    · rw [hempty, hpruned]
      rfl
  | some s =>
    have hs : d.reporters target = s := by
      simp [Detector.reporters, GoMap.read, hlookup]
    refine ⟨rfl, rfl, fun t => ?_, by rw [hs]⟩
    rw [reporters_insert]
    split
    · next ht => rw [ht, hs]
    · rfl

theorem state_eq (c : Config) (d : Detector) (target : NodeID) (reading : Int64) :
    c.state d target reading = if target ∈ d.dead then (d, .dead) else
        ((c.liveReporterCount d target reading).1,
          if (c.liveReporterCount d target reading).2 > 0 then .suspect else .alive) := by
  unfold Config.state
  dsimp only
  split
  · rfl
  · split <;> rfl

theorem clearPFAIL_spec (hr : r ∈ c.members) (ht : t ∈ c.members) (hdead : t ∉ d.dead) :
    (c.clearPFAIL d r t).2.dead = d.dead ∧ (c.clearPFAIL d r t).2.fired = d.fired ∧
      ∀ r' t', ((c.clearPFAIL d r t).2.reporters t').lookup r' =
        if r = r' ∧ t = t' then none else (d.reporters t').lookup r' := by
  have hmembers : ¬ (r ∉ c.members ∨ t ∉ c.members) := by simp [hr, ht]
  rw [Config.clearPFAIL, if_neg hmembers, if_neg hdead]
  cases hsusp : d.susp.lookup t with
  | none =>
    have hempty : d.reporters t = ∅ := by simp [Detector.reporters, GoMap.read, hsusp]
    refine ⟨rfl, rfl, fun r' t' => ?_⟩
    show (d.reporters t').lookup r' = _
    split_ifs with heq
    · obtain ⟨rfl, rfl⟩ := heq
      rw [hempty]
      rfl
    · rfl
  | some s =>
    have hs : d.reporters t = s := by simp [Detector.reporters, GoMap.read, hsusp]
    have hlookup : ∀ r' t', AList.lookup r' (if t' = t then s.erase r else d.reporters t') =
        if r = r' ∧ t = t' then none else (d.reporters t').lookup r' := by
      intro r' t'
      by_cases ht' : t' = t
      · subst ht'
        rw [if_pos rfl, lookup_erase_if, hs]
        simp only [and_true, eq_comm]
      · rw [if_neg ht', if_neg (fun heq => ht' heq.2.symm)]
    by_cases hlen : GoMap.len (s.erase r) = 0
    · -- The entry of the target is removed together with its last report.
      have hempty : s.erase r = ∅ := by
        refine AList.ext (List.map_eq_nil_iff.mp (List.length_eq_zero_iff.mp hlen))
      simp only [hlen, if_true, true_and]
      intro r' t'
      rw [reporters_erase, ← hlookup, hempty]
    simp only [hlen, if_false, true_and]
    intro r' t'
    rw [reporters_insert, ← hlookup]

/-- The detector between the record of a report and the look at the target. -/
def Config.recorded (c : Config) (d : Detector) (r t : NodeID) (reading : Int64) : Detector :=
  { d with susp := d.susp.insert t ((d.reporters t).insert r (c.now reading)) }

theorem lookup_recorded (c : Config) (d : Detector) (r t : NodeID) (reading : Int64)
    (r' t' : NodeID) : ((c.recorded d r t reading).reporters t').lookup r' =
      if r = r' ∧ t = t' then some (c.now reading) else (d.reporters t').lookup r' := by
  rw [Config.recorded, reporters_insert]
  by_cases ht : t' = t
  · subst ht
    rw [if_pos rfl, lookup_insert_if]
    simp only [and_true, eq_comm]
  · rw [if_neg ht, if_neg (fun heq => ht heq.2.symm)]

theorem reportPFAIL_eq (hr : r ∈ c.members) (ht : t ∈ c.members) (hdead : t ∉ d.dead)
    (reading reading' : Int64) : (c.reportPFAIL d r t reading reading').2 =
      if (c.liveReporterCount (c.recorded d r t reading) t reading').2 ≥ c.quorum then
        (c.liveReporterCount (c.recorded d r t reading) t reading').1.promote t
      else (c.liveReporterCount (c.recorded d r t reading) t reading').1 := by
  have hmembers : ¬ (r ∉ c.members ∨ t ∉ c.members) := by simp [hr, ht]
  rw [Config.reportPFAIL, if_neg hmembers, if_neg hdead]
  dsimp only
  exact apply_ite Prod.snd ..

end HelixCluster.FailConfirm
