import HelixCluster.Lib.Order
import HelixCluster.Lib.Table

/-!
# The scheduler

The `Scheduler` of `pkg/scheduler`: nodes with available resources, the placements of running jobs,
and a version. Every call holds the lock, so it is one step.
-/

namespace HelixCluster.Omega

/-- The arithmetic of CPUs, which are `float64` in the source. A difference may be rounded, but not
below zero where the comparison says that it is not negative. -/
class Cpu (C : Type) extends Zero C, Add C, Sub C, LE C, LT C where
  /-- The conversion `int64(c * 100)`. -/
  hundredths : C → Int64
  sub_not_neg : ∀ a b : C, b ≤ a → ¬ a - b < 0

/-- Exact arithmetic. -/
instance : Cpu ℚ where
  hundredths c := .ofInt ⌊c * 100⌋
  sub_not_neg _ _ h := not_lt.mpr (sub_nonneg.mpr h)

structure Resources (C : Type) where
  cpu : C
  memory : UInt64
  gpu : Int64
  deriving DecidableEq

variable {C : Type}

namespace Resources

variable [Cpu C]

/-- The updates `+=` of the fields. -/
def add (a b : Resources C) : Resources C := ⟨a.cpu + b.cpu, a.memory + b.memory, a.gpu + b.gpu⟩

/-- The updates `-=` of the fields. -/
def sub (a b : Resources C) : Resources C := ⟨a.cpu - b.cpu, a.memory - b.memory, a.gpu - b.gpu⟩

/-- The comparisons `>=` of the fields. -/
def covers [DecidableLE C] (a b : Resources C) : Bool := a.cpu ≥ b.cpu ∧ a.memory ≥ b.memory ∧ a.gpu ≥ b.gpu

end Resources

structure Job (C : Type) where
  id : Str
  resources : Resources C
  priority : Int64
  labels : GoMap Str Str

structure Node (C : Type) where
  id : Str
  available : Resources C
  labels : GoMap Str Str

structure Placement (C : Type) where
  jobID : Str
  nodeID : Str
  priority : Int64
  resources : Resources C
  deriving DecidableEq

structure Plugin (C : Type) where
  filter : Job C → Node C → Bool
  score : Job C → Node C → Int64
  bind : Job C → Node C → Option (Resources C)

def nodeResourcesFit [Cpu C] [DecidableLE C] [DecidableLT C] : Plugin C where
  filter job node := node.available.covers job.resources
  score job node :=
    if node.available.covers job.resources then
      (if 0 < job.resources.cpu then
          Cpu.hundredths (node.available.cpu - job.resources.cpu) else 0) +
        (if 0 < job.resources.memory then
          ((node.available.memory - job.resources.memory) / 1024).toInt64 else 0) +
        if 0 < job.resources.gpu then (node.available.gpu - job.resources.gpu) * 1000 else 0
    else 0
  bind job node :=
    if node.available.covers job.resources then some (node.available.sub job.resources) else none

/-- The nodes by their IDs. -/
abbrev Nodes (C : Type) := Table (@Node.id C)

/-- The placements by the IDs of their jobs. -/
abbrev Placements (C : Type) := Table (@Placement.jobID C)

structure Scheduler (C : Type) where
  nodes : Nodes C
  placements : Placements C
  version : UInt64

def newScheduler : Scheduler C := ⟨.empty, .empty, 1⟩

/-- The errors of the scheduler. -/
inductive Error where
  | noNodeAvailable
  | bindingFailed (nodeID : Str)
  | conflict (expected got : UInt64)
  | gangEmpty
  | gangNotAllPlaced
  | noPreemptionCandidates
  | preemptionBindingFailed (nodeID : Str)
  deriving DecidableEq

/-- What a call returns. -/
inductive Reply where
  | done
  | released (found : Bool)
  | scheduled (assignedNode : Str)
  | gang (placements : List (Str × Str))
  | preempt (assignedNode : Str) (preempted : List Str)
  deriving DecidableEq

/-- The placement of a job on a node. -/
def placementOn (job : Job C) (nodeID : Str) : Placement C :=
  ⟨job.id, nodeID, job.priority, job.resources⟩

namespace Scheduler

def registerNode (s : Scheduler C) (n : Node C) : Scheduler C := { s with nodes := s.nodes.set n }

def unregisterNode (s : Scheduler C) (id : Str) : Scheduler C :=
  { s with nodes := s.nodes.erase id }

section Plugins

variable (plugins : List (Plugin C))

def runFilters (job : Job C) (node : Node C) : Bool := plugins.all fun p => p.filter job node

def runScorers (job : Job C) (node : Node C) : Int64 :=
  plugins.foldl (fun score p => score + p.score job node) 0

/-- `runBindLocked`, with the node that the plugins leave. -/
def runBind (job : Job C) (node : Node C) : Option (Node C) :=
  plugins.foldlM (fun node p => (p.bind job node).map fun r => { node with available := r }) node

/-- The body of the loop of `bestNodeAmong`. -/
def better (job : Job C) (nodes : Nodes C) (best : Option (Node C) × Int64) (id : Str) :
    Option (Node C) × Int64 :=
  match nodes.lookup id with
  | none => best
  | some node =>
    if runFilters plugins job node then
      let score := runScorers plugins job node
      if score > best.2 then (some node, score) else best
    else best

/-- `bestNodeAmong`. `Schedule` and `ScheduleOptimistic` have the same loop over the nodes. -/
def bestNodeAmong (job : Job C) (nodes : Nodes C) : Option (Node C) :=
  ((nodes.map.keys.insertionSort (· ≤ ·)).foldl (better plugins job nodes) (none, -1)).1

/-- The job is bound to the node, recorded and the version bumped. -/
def place (s : Scheduler C) (job : Job C) (node : Node C) : Option (Scheduler C) :=
  (runBind plugins job node).map fun bound =>
    { nodes := s.nodes.set bound
      placements := s.placements.set (placementOn job bound.id)
      version := s.version + 1 }

def schedule (s : Scheduler C) (job : Job C) : Scheduler C × Except Error Reply :=
  match bestNodeAmong plugins job s.nodes with
  | none => (s, .error .noNodeAvailable)
  | some best =>
    match s.place plugins job best with
    | none => (s, .error (.bindingFailed best.id))
    | some s' => (s', .ok (.scheduled best.id))

/-- The loop of `scheduleGangLocked` over the tasks, with the nodes it leaves and its plan. -/
def planGang (shadow : Nodes C) :
    List (Job C) → Option (Nodes C × List (Str × Str))
  | [] => some (shadow, [])
  | job :: jobs =>
    match bestNodeAmong plugins job shadow with
    | none => none
    | some best =>
      match runBind plugins job best with
      | none => none
      | some bound =>
        (planGang (shadow.set bound) jobs).map fun plan =>
          (plan.1, (job.id, best.id) :: plan.2)

/-- The placements that a gang records. -/
def gangPlacements (jobs : List (Job C)) (planned : List (Str × Str)) : List (Placement C) :=
  List.zipWith (fun job task => placementOn job task.2) jobs planned

/-- `scheduleGangLocked`. -/
def scheduleGang (s : Scheduler C) (jobs : List (Job C)) : Scheduler C × Except Error Reply :=
  if jobs = [] then (s, .error .gangEmpty)
  else
    match planGang plugins s.nodes jobs with
    | none => (s, .error .gangNotAllPlaced)
    | some (shadow, planned) =>
      ({ nodes := shadow
         placements := (gangPlacements jobs planned).foldl Table.set s.placements
         version := s.version + 1 }, .ok (.gang planned))

/-- The candidate victims on a node: of lower priority, the lowest first. -/
def candidates (s : Scheduler C) (job : Job C) (order : Shuffle (Placement C)) (nodeID : Str) :
    List (Placement C) :=
  ((order.run s.placements.values).filter fun p =>
    p.priority < job.priority ∧ p.nodeID = nodeID).insertionSort fun p q => p.priority ≤ q.priority

variable [Cpu C]

/-- Resources are given back to a node, if it is registered. -/
def credit (nodes : Nodes C) (nodeID : Str) (r : Resources C) : Nodes C :=
  match nodes.lookup nodeID with
  | none => nodes
  | some node => nodes.set { node with available := node.available.add r }

/-- A placement is removed and its resources are given back. -/
def evict (s : Scheduler C) (p : Placement C) : Scheduler C :=
  { s with nodes := credit s.nodes p.nodeID p.resources, placements := s.placements.erase p.jobID }

/-- `releasePlacementLocked`, which `Complete` and `Release` call. -/
def releasePlacement (s : Scheduler C) (jobID : Str) : Scheduler C × Reply :=
  match s.placements.lookup jobID with
  | none => (s, .released false)
  | some p =>
    ({ s with
        nodes := credit s.nodes p.nodeID p.resources
        placements := s.placements.erase jobID
        version := s.version + 1 }, .released true)

/-- The loop that reclaims the resources of victims until the job fits, with the node it leaves. -/
def simulate (job : Job C) (sim : Node C) : List (Placement C) → List (Placement C) × Node C
  | [] => ([], sim)
  | v :: vs =>
    if runFilters plugins job sim then ([], sim)
    else
      let rest := simulate job { sim with available := sim.available.add v.resources } vs
      (v :: rest.1, rest.2)

/-- The body of the loop of `schedulePreemptLocked` over the nodes. -/
def betterPlan (s : Scheduler C) (job : Job C) (order : Shuffle (Placement C))
    (best : Option (Str × List (Placement C))) (nodeID : Str) :
    Option (Str × List (Placement C)) :=
  match s.nodes.lookup nodeID with
  | none => best
  | some node =>
    let sim := simulate plugins job node (s.candidates job order nodeID)
    if runFilters plugins job sim.2 then
      match best with
      | none => some (nodeID, sim.1)
      | some plan => if sim.1.length < plan.2.length then some (nodeID, sim.1) else best
    else best

/-- The plan with the fewest victims. -/
def bestPlan (s : Scheduler C) (job : Job C) (order : Shuffle (Placement C)) :
    Option (Str × List (Placement C)) :=
  (s.nodes.map.keys.insertionSort (· ≤ ·)).foldl (s.betterPlan plugins job order) none

/-- The part of `schedulePreemptLocked` after a normal placement has failed. -/
def preemptVictims (s : Scheduler C) (job : Job C) (order : Shuffle (Placement C)) :
    Scheduler C × Except Error Reply :=
  match s.bestPlan plugins job order with
  | none => (s, .error .noPreemptionCandidates)
  | some (nodeID, victims) =>
    let evicted := victims.foldl evict s
    match evicted.nodes.lookup nodeID with
    -- The node of a plan is registered (`bestPlan_spec`).
    | none => (evicted, .error (.preemptionBindingFailed nodeID))
    | some node =>
      match evicted.place plugins job node with
      | none => (evicted, .error (.preemptionBindingFailed node.id))
      | some s' => (s', .ok (.preempt node.id (victims.map Placement.jobID)))

/-- `schedulePreemptLocked`. -/
def schedulePreempt (s : Scheduler C) (job : Job C) (order : Shuffle (Placement C)) :
    Scheduler C × Except Error Reply :=
  match bestNodeAmong plugins job s.nodes with
  | none => s.preemptVictims plugins job order
  | some best =>
    match s.place plugins job best with
    | none => s.preemptVictims plugins job order
    | some s' => (s', .ok (.preempt best.id []))

end Plugins

end Scheduler

/-- The calls that place jobs. -/
inductive Placing (C : Type) where
  | schedule (job : Job C)
  | gang (jobs : List (Job C))
  | preempt (job : Job C) (order : Shuffle (Placement C))

/-- A call. A call that places jobs may expect a version. -/
inductive Call (C : Type) where
  | registerNode (n : Node C)
  | unregisterNode (id : Str)
  | complete (jobID : Str)
  | release (jobID : Str)
  | place (what : Placing C) (expectedVersion : Option UInt64)

namespace Scheduler

variable [Cpu C]

/-- `Schedule`, `ScheduleGang` or `SchedulePreempt`. -/
def placing (plugins : List (Plugin C)) (s : Scheduler C) : Placing C → Scheduler C × Except Error Reply
  | .schedule job => s.schedule plugins job
  | .gang jobs => s.scheduleGang plugins jobs
  | .preempt job order => s.schedulePreempt plugins job order

/-- A call. The version check is that of the calls whose name ends in `Optimistic`. -/
def perform (plugins : List (Plugin C)) (s : Scheduler C) : Call C → Scheduler C × Except Error Reply
  | .registerNode n => (s.registerNode n, .ok .done)
  | .unregisterNode id => (s.unregisterNode id, .ok .done)
  | .complete jobID => let done := s.releasePlacement jobID; (done.1, .ok done.2)
  | .release jobID => let done := s.releasePlacement jobID; (done.1, .ok done.2)
  | .place what none => s.placing plugins what
  | .place what (some expected) =>
    if s.version ≠ expected then (s, .error (.conflict expected s.version))
    else s.placing plugins what

def step (plugins : List (Plugin C)) (s : Scheduler C) (call : Call C) : Scheduler C :=
  (s.perform plugins call).1

end Scheduler

end HelixCluster.Omega
