import HelixCluster.Lib.GoString

/-!
# The GPU manager

`Manager` of `internal/gpu/manager.go` and `checkGPU` of `internal/gpu/monitor.go`. The slice of
pointers is a list of devices with distinct IDs.
-/

namespace HelixCluster.Gpu

open List

inductive GPUStatus where
  | available
  | allocated
  | unhealthy
  | offline
  deriving DecidableEq

structure GPU (T : Type) where
  id : Str
  memoryMB : Int64
  utilizationPercent : T
  temperatureC : T
  allocatedTo : Str
  status : GPUStatus

/-- `Manager`, with distinct IDs. -/
structure Manager (T : Type) where
  gpus : List (GPU T)
  started : Bool
  nodup : (gpus.map GPU.id).Nodup

/-- The thresholds of a `Monitor`. -/
structure Monitor (T : Type) where
  tempThreshold : T
  utilThreshold : T

/-- The errors of the allocations. -/
inductive AllocError where
  | emptyJobID
  | notDetected
  | noneAvailable
  | holdsSmaller (jobID id : Str) (memoryMB minMemoryMB : Int64)
  | noneFitting (minMemoryMB : Int64)
  deriving DecidableEq

/-- The errors of `SetOffline` and `SetOnline`. -/
inductive MaintenanceError where
  | isAllocated (id allocatedTo : Str)
  | notFound (id : Str)
  deriving DecidableEq

variable {T : Type}

/-- What an allocation writes to the device. -/
def GPU.allocate (gpu : GPU T) (jobID : Str) : GPU T :=
  { gpu with status := .allocated, allocatedTo := jobID }

/-- What `ReleaseGPU` and `SetOnline` write to the device. -/
def GPU.free (gpu : GPU T) : GPU T := { gpu with status := .available, allocatedTo := [] }

/-- The function that `checkGPU` updates a device with. -/
def Monitor.check [LT T] [DecidableLT T] (m : Monitor T) (temp util : T) (gpu : GPU T) : GPU T :=
  if gpu.status = .offline then gpu
  else
    let gpu := { gpu with temperatureC := temp, utilizationPercent := util }
    -- If already allocated, keep allocated unless unhealthy
    if gpu.status = .allocated then
      if m.tempThreshold < temp ∨ m.utilThreshold < util then { gpu with status := .unhealthy } else gpu
    else if m.tempThreshold < temp ∨ m.utilThreshold < util then { gpu with status := .unhealthy }
    else if gpu.status = .unhealthy then { gpu with status := .available }
    else gpu

section Check

variable [LT T] [DecidableLT T] (m : Monitor T) (temp util : T) (gpu : GPU T)

theorem Monitor.check_id : (m.check temp util gpu).id = gpu.id := by
  unfold Monitor.check
  dsimp only
  split_ifs <;> rfl

theorem Monitor.check_allocatedTo : (m.check temp util gpu).allocatedTo = gpu.allocatedTo := by
  unfold Monitor.check
  dsimp only
  split_ifs <;> rfl

theorem Monitor.check_status (h : m.tempThreshold < temp ∨ m.utilThreshold < util) :
    (m.check temp util gpu).status = .unhealthy ∨ (m.check temp util gpu).status = .offline := by
  unfold Monitor.check
  dsimp only
  split_ifs with hoffline hallocated
  · exact .inr hoffline
  · exact .inl rfl
  · exact .inl rfl

end Check

namespace Manager

variable (m : Manager T)

/-- The write through the pointer to the device with the ID of `gpu`. -/
def put (gpu : GPU T) : Manager T where
  gpus := m.gpus.map fun g => if g.id = gpu.id then gpu else g
  started := m.started
  nodup := by
    have hids : (m.gpus.map fun g => if g.id = gpu.id then gpu else g).map GPU.id = m.gpus.map GPU.id := by
      rw [map_map]
      refine map_congr_left fun g _ => ?_
      show (if g.id = gpu.id then gpu else g).id = g.id
      split_ifs with h
      · exact h.symm
      · rfl
    rw [hids]
    exact m.nodup

/-- The first device that records the job. -/
def recording (jobID : Str) : Option (GPU T) := m.gpus.find? fun gpu => gpu.allocatedTo = jobID

/-- The first device that is `Available`. -/
def firstAvailable : Option (GPU T) := m.gpus.find? fun gpu => gpu.status = .available

def allocateGPU (jobID : Str) : Manager T × Except AllocError (GPU T) :=
  if jobID = [] then (m, .error .emptyJobID)
  else if m.started = false then (m, .error .notDetected)
  else
    match m.recording jobID with
    | some gpu => (m, .ok gpu)
    | none =>
      match m.firstAvailable with
      | some gpu => (m.put (gpu.allocate jobID), .ok (gpu.allocate jobID))
      | none => (m, .error .noneAvailable)

/-- A turn of the loop over the devices in `AllocateGPUByMemory`. -/
def better (minMemoryMB : Int64) (best : Option (GPU T)) (gpu : GPU T) : Option (GPU T) :=
  if gpu.status ≠ .available ∨ gpu.memoryMB < minMemoryMB then best
  else
    match best with
    | none => some gpu
    | some b => if gpu.memoryMB < b.memoryMB then some gpu else some b

/-- The best fit. -/
def bestFit (minMemoryMB : Int64) : Option (GPU T) := m.gpus.foldl (better minMemoryMB) none

def allocateGPUByMemory (jobID : Str) (minMemoryMB : Int64) : Manager T × Except AllocError (GPU T) :=
  if jobID = [] then (m, .error .emptyJobID)
  else if m.started = false then (m, .error .notDetected)
  else
    match m.recording jobID with
    | some gpu =>
      if gpu.memoryMB < minMemoryMB then
        (m, .error (.holdsSmaller jobID gpu.id gpu.memoryMB minMemoryMB))
      else (m, .ok gpu)
    | none =>
      match m.bestFit minMemoryMB with
      | some gpu => (m.put (gpu.allocate jobID), .ok (gpu.allocate jobID))
      | none => (m, .error (.noneFitting minMemoryMB))

def releaseGPU (jobID : Str) : Manager T := (m.recording jobID).elim m fun gpu => m.put gpu.free

def getGPUByID (id : Str) : Option (GPU T) := m.gpus.find? fun gpu => gpu.id = id

def updateGPU (id : Str) (updateFn : GPU T → GPU T) : Manager T :=
  (m.getGPUByID id).elim m fun gpu => m.put (updateFn gpu)

def setOffline (id : Str) : Manager T × Option MaintenanceError :=
  match m.getGPUByID id with
  | some gpu =>
    if gpu.status = .allocated then (m, some (.isAllocated id gpu.allocatedTo))
    else (m.put { gpu with status := .offline }, none)
  | none => (m, some (.notFound id))

def setOnline (id : Str) : Manager T × Option MaintenanceError :=
  match m.getGPUByID id with
  | some gpu => if gpu.status = .offline then (m.put gpu.free, none) else (m, none)
  | none => (m, some (.notFound id))

def checkGPU [LT T] [DecidableLT T] (monitor : Monitor T) (id : Str) (temp util : T) : Manager T :=
  m.updateGPU id (monitor.check temp util)

/-! ### The devices after a write -/

variable {m} {jobID : Str} {gpu : GPU T}

theorem mem_of_recording (h : m.recording jobID = some gpu) :
    gpu ∈ m.gpus ∧ gpu.allocatedTo = jobID :=
  ⟨mem_of_find?_eq_some h, by simpa using List.find?_some h⟩

variable {id : Str} {minMemoryMB : Int64}

theorem mem_of_getGPUByID (h : m.getGPUByID id = some gpu) :
    gpu ∈ m.gpus ∧ gpu.id = id :=
  ⟨mem_of_find?_eq_some h, by simpa using List.find?_some h⟩

theorem recording_eq_none_iff :
    m.recording jobID = none ↔ ∀ gpu ∈ m.gpus, gpu.allocatedTo ≠ jobID := by
  simp [recording]

theorem better_cases (minMemoryMB : Int64) (best : Option (GPU T)) (gpu : GPU T) :
    better minMemoryMB best gpu = best ∨
      better minMemoryMB best gpu = some gpu ∧ gpu.status = .available := by
  unfold better
  split_ifs with hskip
  · exact .inl rfl
  have havailable : gpu.status = .available := by
    by_contra hne
    exact hskip (.inl hne)
  cases best with
  | none => exact .inr ⟨rfl, havailable⟩
  | some b =>
    dsimp only
    split_ifs
    · exact .inr ⟨rfl, havailable⟩
    · exact .inl rfl

theorem mem_of_foldl_better {gpus : List (GPU T)} :
    ∀ {best : Option (GPU T)}, gpus.foldl (better minMemoryMB) best = some gpu →
      best = some gpu ∨ gpu ∈ gpus ∧ gpu.status = .available := by
  induction gpus with
  | nil => exact fun h => .inl h
  | cons g gpus ih =>
    intro best h
    obtain hbest | ⟨hmem, havailable⟩ := ih h
    · obtain hkept | ⟨hnew, havailable⟩ := better_cases minMemoryMB best g
      · exact .inl (hkept ▸ hbest)
      · obtain rfl : g = gpu := Option.some_inj.mp (hnew.symm.trans hbest)
        exact .inr ⟨mem_cons_self, havailable⟩
    · exact .inr ⟨mem_cons_of_mem _ hmem, havailable⟩

theorem mem_of_bestFit (h : m.bestFit minMemoryMB = some gpu) :
    gpu ∈ m.gpus ∧ gpu.status = .available := by
  obtain hnone | hmem := mem_of_foldl_better h
  · cases hnone
  · exact hmem

theorem eq_of_id_eq {g g' : GPU T} (hg : g ∈ m.gpus) (hg' : g' ∈ m.gpus) (h : g.id = g'.id) : g = g' :=
  inj_on_of_nodup_map m.nodup hg hg' h

variable {old : GPU T}

theorem mem_put (gpu : GPU T) {g : GPU T} (hold : old ∈ m.gpus) (hid : gpu.id = old.id) :
    g ∈ (m.put gpu).gpus ↔ g = gpu ∨ g ∈ m.gpus ∧ g.id ≠ gpu.id := by
  show g ∈ m.gpus.map _ ↔ _
  rw [mem_map]
  constructor
  · rintro ⟨g', hg', rfl⟩
    split_ifs with h
    · exact .inl rfl
    · exact .inr ⟨hg', h⟩
  rintro (rfl | ⟨hg, hne⟩)
  · exact ⟨old, hold, if_pos hid.symm⟩
  · exact ⟨g, hg, if_neg hne⟩

/-- A device with the ID records the job in `AllocatedTo`. -/
def Records (m : Manager T) (jobID id : Str) : Prop :=
  ∃ gpu ∈ m.gpus, gpu.id = id ∧ gpu.allocatedTo = jobID

theorem Records.unique {job job' : Str} (h : m.Records job id) (h' : m.Records job' id) :
    job = job' := by
  obtain ⟨g, hg, rfl, rfl⟩ := h
  obtain ⟨g', hg', hid, rfl⟩ := h'
  rw [eq_of_id_eq hg' hg hid]

theorem records_put (gpu : GPU T) (hold : old ∈ m.gpus)
    (hid : gpu.id = old.id) : (m.put gpu).Records jobID id ↔
      id = gpu.id ∧ gpu.allocatedTo = jobID ∨ id ≠ gpu.id ∧ m.Records jobID id := by
  constructor
  · rintro ⟨g, hg, rfl, rfl⟩
    obtain rfl | ⟨hg, hne⟩ := (mem_put gpu hold hid).mp hg
    · exact .inl ⟨rfl, rfl⟩
    · exact .inr ⟨hne, g, hg, rfl, rfl⟩
  rintro (⟨rfl, rfl⟩ | ⟨hne, g, hg, rfl, rfl⟩)
  · exact ⟨gpu, (mem_put gpu hold hid).mpr (.inl rfl), rfl, rfl⟩
  · exact ⟨g, (mem_put gpu hold hid).mpr (.inr ⟨hg, hne⟩), rfl, rfl⟩

theorem records_put_of_eq (gpu : GPU T) (hold : old ∈ m.gpus)
    (hid : gpu.id = old.id) (halloc : gpu.allocatedTo = old.allocatedTo) :
    (m.put gpu).Records jobID id ↔ m.Records jobID id := by
  have hrecorded : m.Records old.allocatedTo gpu.id := ⟨old, hold, hid.symm, rfl⟩
  rw [records_put gpu hold hid, halloc]
  constructor
  · rintro (⟨rfl, rfl⟩ | ⟨_, h⟩)
    · exact hrecorded
    · exact h
  intro h
  rcases eq_or_ne id gpu.id with rfl | hsame
  · exact .inl ⟨rfl, hrecorded.unique h⟩
  · exact .inr ⟨hsame, h⟩

/-! ### What an allocation does -/

/-- The job may ask and no device records it. -/
def Unserved (m : Manager T) (jobID : Str) : Prop :=
  jobID ≠ [] ∧ m.started = true ∧ ∀ gpu ∈ m.gpus, gpu.allocatedTo ≠ jobID

instance (m : Manager T) (jobID : Str) : Decidable (m.Unserved jobID) :=
  inferInstanceAs (Decidable (jobID ≠ [] ∧ m.started = true ∧ ∀ gpu ∈ m.gpus, gpu.allocatedTo ≠ jobID))

/-- The outcomes of an allocation that would take the device `pick` for a job that has none. -/
inductive Granted (m : Manager T) (jobID : Str) (pick : Option (GPU T)) :
    Manager T × Except AllocError (GPU T) → Prop
  | refused (e : AllocError) (h : m.Unserved jobID → pick = none) : Granted m jobID pick (m, .error e)
  | again (gpu : GPU T) (hjob : jobID ≠ []) (hmem : gpu ∈ m.gpus) (h : gpu.allocatedTo = jobID) :
      Granted m jobID pick (m, .ok gpu)
  | taken (gpu : GPU T) (hjob : m.Unserved jobID) (hpick : pick = some gpu) :
      Granted m jobID pick (m.put (gpu.allocate jobID), .ok (gpu.allocate jobID))

theorem allocateGPU_granted (m : Manager T) (jobID : Str) :
    m.Granted jobID m.firstAvailable (m.allocateGPU jobID) := by
  unfold allocateGPU
  split_ifs with hempty hstarted
  · exact .refused _ fun h => absurd hempty h.1
  · exact .refused _ fun h => Bool.false_ne_true (hstarted.symm.trans h.2.1) |>.elim
  cases hrecorded : m.recording jobID with
  | some gpu =>
    obtain ⟨hmem, halloc⟩ := mem_of_recording hrecorded
    exact .again gpu hempty hmem halloc
  | none =>
    have hnone := recording_eq_none_iff.mp hrecorded
    cases hpick : m.firstAvailable with
    | some gpu => exact .taken gpu ⟨hempty, Bool.eq_true_of_not_eq_false hstarted, hnone⟩ rfl
    | none => exact .refused _ fun _ => rfl

theorem allocateGPUByMemory_granted (m : Manager T) (jobID : Str) (minMemoryMB : Int64) :
    m.Granted jobID (m.bestFit minMemoryMB) (m.allocateGPUByMemory jobID minMemoryMB) := by
  unfold allocateGPUByMemory
  split_ifs with hempty hstarted
  · exact .refused _ fun h => absurd hempty h.1
  · exact .refused _ fun h => Bool.false_ne_true (hstarted.symm.trans h.2.1) |>.elim
  cases hrecorded : m.recording jobID with
  | some gpu =>
    obtain ⟨hmem, halloc⟩ := mem_of_recording hrecorded
    dsimp only
    split_ifs with hsmall
    · exact .refused _ fun h => absurd halloc (h.2.2 gpu hmem)
    · exact .again gpu hempty hmem halloc
  | none =>
    have hnone := recording_eq_none_iff.mp hrecorded
    cases hpick : m.bestFit minMemoryMB with
    | some gpu => exact .taken gpu ⟨hempty, Bool.eq_true_of_not_eq_false hstarted, hnone⟩ rfl
    | none => exact .refused _ fun _ => rfl

end Manager

end HelixCluster.Gpu
