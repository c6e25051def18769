import HelixCluster.Gpu.Manager
import HelixCluster.Lib.Runs

/-!
# Who holds a GPU

A job holds the device that an allocation returned to it until it calls `ReleaseGPU`. The code keeps
two records of that, `Status` and `AllocatedTo`.
-/

namespace HelixCluster.Gpu

open Option

variable {T : Type}

/-- The calls. -/
inductive ManagerCall (T : Type) where
  | allocateGPU (jobID : Str)
  | allocateGPUByMemory (jobID : Str) (minMemoryMB : Int64)
  | releaseGPU (jobID : Str)
  | setOffline (id : Str)
  | setOnline (id : Str)
  | checkGPU (id : Str) (temp util : T)

/-- The call is one that may return the device to the pool. -/
def ManagerCall.Restores [LT T] (monitor : Monitor T) (id : Str) : ManagerCall T → Prop
  | .setOnline id' => id' = id
  | .checkGPU id' temp util => id' = id ∧ ¬(monitor.tempThreshold < temp ∨ monitor.utilThreshold < util)
  | _ => False

/-- The device was taken offline or found unhealthy. -/
def GPU.Withdrawn (gpu : GPU T) : Prop := gpu.status = .unhealthy ∨ gpu.status = .offline

instance (gpu : GPU T) : Decidable gpu.Withdrawn :=
  inferInstanceAs (Decidable (gpu.status = .unhealthy ∨ gpu.status = .offline))

theorem GPU.Withdrawn.not_available {gpu : GPU T} (h : gpu.Withdrawn) : gpu.status ≠ .available := by
  intro havailable
  obtain h | h := h <;> exact absurd (havailable.symm.trans h) (by decide)

/-- The manager, with the jobs and the IDs of the devices that they hold. -/
structure Holders (T : Type) where
  manager : Manager T
  holds : List (Str × Str)

namespace Holders

/-- The job holds what an allocation returned. -/
def grant (w : Holders T) (jobID : Str) (result : Manager T × Except AllocError (GPU T)) : Holders T where
  manager := result.1
  holds :=
    match result.2 with
    | .ok gpu => w.holds.insert (jobID, gpu.id)
    | .error _ => w.holds

/-! ### What is to hold -/

/-- Each device is held by one job and each job holds one device, which records it. -/
structure Exclusive (w : Holders T) : Prop where
  one_job : ∀ job job' id, (job, id) ∈ w.holds → (job', id) ∈ w.holds → job = job'
  one_gpu : ∀ job id id', (job, id) ∈ w.holds → (job, id') ∈ w.holds → id = id'
  recorded : ∀ job id, (job, id) ∈ w.holds → w.manager.Records job id

variable {w : Holders T}

/-! ### The records -/

/-- A job holds the devices that record it, of which there is one. -/
structure Linked (w : Holders T) : Prop where
  holds_iff : ∀ job id, (job, id) ∈ w.holds ↔ job ≠ [] ∧ w.manager.Records job id
  once : ∀ job id id', job ≠ [] → w.manager.Records job id → w.manager.Records job id' → id = id'

section

variable (h : w.Linked)

include h

theorem Linked.exclusive : w.Exclusive where
  one_job job job' id hjob hjob' :=
    ((h.holds_iff job id).mp hjob).2.unique ((h.holds_iff job' id).mp hjob').2
  one_gpu job id id' hid hid' := by
    obtain ⟨hjob, hrecorded⟩ := (h.holds_iff job id).mp hid
    exact h.once job id id' hjob hrecorded ((h.holds_iff job id').mp hid').2
  recorded job id hid := ((h.holds_iff job id).mp hid).2

theorem Linked.congr {m : Manager T}
    (hm : ∀ job id, m.Records job id ↔ w.manager.Records job id) : Linked ⟨m, w.holds⟩ where
  holds_iff job id := (h.holds_iff job id).trans (and_congr_right fun _ => (hm job id).symm)
  once job id id' hjob hid hid' := h.once job id id' hjob ((hm job id).mp hid) ((hm job id').mp hid')

theorem Linked.put (gpu : GPU T) {old : GPU T} (hold : old ∈ w.manager.gpus)
    (hid : gpu.id = old.id) (halloc : gpu.allocatedTo = old.allocatedTo) : Linked ⟨w.manager.put gpu, w.holds⟩ :=
  h.congr fun _ _ => Manager.records_put_of_eq gpu hold hid halloc

/-! ### The allocations -/

variable {jobID : Str}

theorem Linked.grant_again {gpu : GPU T} (hjob : jobID ≠ [])
    (hmem : gpu ∈ w.manager.gpus) (halloc : gpu.allocatedTo = jobID) :
    w.grant jobID (w.manager, .ok gpu) = w := by
  have hheld : (jobID, gpu.id) ∈ w.holds := (h.holds_iff _ _).mpr ⟨hjob, gpu, hmem, rfl, halloc⟩
  show (⟨w.manager, w.holds.insert (jobID, gpu.id)⟩ : Holders T) = w
  rw [List.insert_of_mem hheld]

theorem Linked.grant_taken {gpu : GPU T} (hjob : w.manager.Unserved jobID)
    (hmem : gpu ∈ w.manager.gpus) (hfree : gpu.allocatedTo = []) :
    (w.grant jobID (w.manager.put (gpu.allocate jobID), .ok (gpu.allocate jobID))).Linked := by
  have hput : ∀ job id, (w.manager.put (gpu.allocate jobID)).Records job id ↔
      id = gpu.id ∧ jobID = job ∨ id ≠ gpu.id ∧ w.manager.Records job id :=
    fun job id => Manager.records_put (gpu.allocate jobID) hmem rfl
  have hnew : ∀ id, ¬w.manager.Records jobID id := by
    rintro id ⟨g, hg, -, halloc⟩
    exact hjob.2.2 g hg halloc
  have hold : ∀ job, job ≠ [] → ¬w.manager.Records job gpu.id := by
    intro job hne hrecorded
    exact hne (hrecorded.unique ⟨gpu, hmem, rfl, hfree⟩)
  constructor
  · intro job id
    show (job, id) ∈ w.holds.insert (jobID, gpu.id) ↔ job ≠ [] ∧ (w.manager.put _).Records job id
    rw [List.mem_insert_iff, h.holds_iff, hput, Prod.mk.injEq]
    constructor
    · rintro (⟨rfl, rfl⟩ | ⟨hne, hrecorded⟩)
      · exact ⟨hjob.1, .inl ⟨rfl, rfl⟩⟩
      · exact ⟨hne, .inr ⟨fun hid => hold job hne (hid ▸ hrecorded), hrecorded⟩⟩
    rintro ⟨hne, ⟨rfl, rfl⟩ | ⟨-, hrecorded⟩⟩
    · exact .inl ⟨rfl, rfl⟩
    · exact .inr ⟨hne, hrecorded⟩
  intro job id id' hne hid hid'
  obtain ⟨rfl, rfl⟩ | ⟨-, hid⟩ := (hput job id).mp hid
  · obtain ⟨rfl, -⟩ | ⟨-, hid'⟩ := (hput _ id').mp hid'
    · rfl
    · exact absurd hid' (hnew id')
  obtain ⟨-, rfl⟩ | ⟨-, hid'⟩ := (hput job id').mp hid'
  · exact absurd hid (hnew id)
  · exact h.once job id id' hne hid hid'

theorem Linked.free_of_taken {gpu : GPU T} (hjob : w.manager.Unserved jobID)
    (hmem : gpu ∈ w.manager.gpus)
    (hnext : (w.grant jobID (w.manager.put (gpu.allocate jobID), .ok (gpu.allocate jobID))).Exclusive) :
    gpu.allocatedTo = [] := by
  by_contra hne
  have hheld : (gpu.allocatedTo, gpu.id) ∈ w.holds := (h.holds_iff _ _).mpr ⟨hne, gpu, hmem, rfl, rfl⟩
  have hsame : gpu.allocatedTo = jobID :=
    hnext.one_job _ _ gpu.id (List.mem_insert_of_mem hheld) List.mem_insert_self
  exact hjob.2.2 gpu hmem hsame

variable {result : Manager T × Except AllocError (GPU T)}

theorem Linked.grant_iff {pick : Option (GPU T)}
    (hresult : w.manager.Granted jobID pick result) (hpick : ∀ gpu ∈ pick, gpu ∈ w.manager.gpus) :
    ((w.grant jobID result).Exclusive ↔
      (w.manager.Unserved jobID → ∀ gpu ∈ pick, gpu.allocatedTo = [])) ∧
    ((w.grant jobID result).Exclusive → (w.grant jobID result).Linked) := by
  cases hresult with
  | refused e hnone =>
    refine ⟨iff_of_true h.exclusive fun hjob gpu hgpu => ?_, fun _ => h⟩
    rw [hnone hjob] at hgpu
    cases hgpu
  | again gpu hjob hmem halloc =>
    rw [h.grant_again hjob hmem halloc]
    exact ⟨iff_of_true h.exclusive fun hnew => absurd halloc (hnew.2.2 gpu hmem), fun _ => h⟩
  | taken gpu hjob hgpu =>
    have hmem := hpick gpu hgpu
    constructor
    · constructor
      · intro hnext _ gpu' hgpu'
        obtain rfl : gpu' = gpu := some_inj.mp (hgpu'.symm.trans hgpu)
        exact h.free_of_taken hjob hmem hnext
      · intro hfree
        exact (h.grant_taken hjob hmem (hfree hjob gpu hgpu)).exclusive
    · intro hnext
      exact h.grant_taken hjob hmem (h.free_of_taken hjob hmem hnext)

end

/-! ### The steps -/

variable [LT T] [DecidableLT T] (monitor : Monitor T)

def step (w : Holders T) : ManagerCall T → Holders T
  | .allocateGPU jobID => w.grant jobID (w.manager.allocateGPU jobID)
  | .allocateGPUByMemory jobID minMemoryMB =>
    w.grant jobID (w.manager.allocateGPUByMemory jobID minMemoryMB)
  | .releaseGPU jobID => ⟨w.manager.releaseGPU jobID, w.holds.filter fun h => h.1 ≠ jobID⟩
  | .setOffline id => ⟨(w.manager.setOffline id).1, w.holds⟩
  | .setOnline id => ⟨(w.manager.setOnline id).1, w.holds⟩
  | .checkGPU id temp util => ⟨w.manager.checkGPU monitor id temp util, w.holds⟩

/-- A device that was withdrawn becomes `Available` by `SetOnline` or a healthy reading only. -/
def Withheld (w : Holders T) (call : ManagerCall T) : Prop :=
  ∀ gpu ∈ w.manager.gpus, gpu.Withdrawn → ∀ gpu' ∈ (w.step monitor call).manager.gpus,
    gpu'.id = gpu.id → gpu'.status = .available → call.Restores monitor gpu.id

/-- Where the call finds `Status` and `AllocatedTo` at odds, it does not rely on the first. -/
def Careful (w : Holders T) : ManagerCall T → Prop
  | .allocateGPU jobID =>
    w.manager.Unserved jobID → ∀ gpu ∈ w.manager.firstAvailable, gpu.allocatedTo = []
  | .allocateGPUByMemory jobID minMemoryMB =>
    w.manager.Unserved jobID → ∀ gpu ∈ w.manager.bestFit minMemoryMB, gpu.allocatedTo = []
  | .releaseGPU jobID => ∀ gpu ∈ w.manager.recording jobID, ¬gpu.Withdrawn
  | .setOnline id => ∀ gpu ∈ w.manager.getGPUByID id, gpu.status = .offline → gpu.allocatedTo = []
  | .setOffline _ => True
  | .checkGPU _ _ _ => True

instance (w : Holders T) : DecidablePred w.Careful
  | .allocateGPU jobID => inferInstanceAs (Decidable
      (w.manager.Unserved jobID → ∀ gpu ∈ w.manager.firstAvailable, gpu.allocatedTo = []))
  | .allocateGPUByMemory jobID minMemoryMB => inferInstanceAs (Decidable
      (w.manager.Unserved jobID → ∀ gpu ∈ w.manager.bestFit minMemoryMB, gpu.allocatedTo = []))
  | .releaseGPU jobID => inferInstanceAs (Decidable (∀ gpu ∈ w.manager.recording jobID, ¬gpu.Withdrawn))
  | .setOnline id => inferInstanceAs (Decidable
      (∀ gpu ∈ w.manager.getGPUByID id, gpu.status = .offline → gpu.allocatedTo = []))
  | .setOffline _ => .isTrue trivial
  | .checkGPU _ _ _ => .isTrue trivial

variable {monitor}

variable {call : ManagerCall T} {f : GPU T → GPU T} {o : Option (GPU T)}

/-- A call that writes at most one device withholds the others. -/
theorem withheld_elim
    (hmem : ∀ gpu ∈ o, gpu ∈ w.manager.gpus ∧ (f gpu).id = gpu.id)
    (hstep : (w.step monitor call).manager = o.elim w.manager fun gpu => w.manager.put (f gpu))
    (h : ∀ gpu ∈ o, gpu.Withdrawn → (f gpu).status = .available → call.Restores monitor gpu.id) :
    Withheld monitor w call := by
  intro g hg hwithdrawn g' hg' hsame havailable
  rw [hstep] at hg'
  have hkept (hmem : g' ∈ w.manager.gpus) : call.Restores monitor g.id := by
    obtain rfl := Manager.eq_of_id_eq hmem hg hsame
    exact absurd havailable hwithdrawn.not_available
  cases o with
  | none => exact hkept hg'
  | some old =>
    obtain ⟨hold, hid⟩ := hmem old rfl
    obtain rfl | ⟨hmem, -⟩ := (Manager.mem_put (f old) hold hid).mp hg'
    · obtain rfl := Manager.eq_of_id_eq hg hold (hsame.symm.trans hid)
      exact h g rfl hwithdrawn havailable
    · exact hkept hmem

theorem withheld_grant {pick : Option (GPU T)} (hresult : w.manager.Granted jobID pick result)
    (hpick : ∀ gpu ∈ pick, gpu ∈ w.manager.gpus) (hstep : (w.step monitor call).manager = result.1) :
    Withheld monitor w call := by
  cases hresult with
  | refused e hnone => exact withheld_elim (o := none) (f := id) (by simp) hstep (by simp)
  | again gpu hjob hmem halloc => exact withheld_elim (o := none) (f := id) (by simp) hstep (by simp)
  | taken gpu hjob hgpu =>
    exact withheld_elim (f := (·.allocate jobID)) (fun g hg => ⟨hpick g (hgpu.trans hg), rfl⟩) hstep
      fun _ _ _ havailable => absurd havailable (show GPUStatus.allocated ≠ .available by decide)

theorem Linked.release (h : w.Linked) (jobID : Str) :
    (w.step monitor (.releaseGPU jobID)).Linked := by
  have hfilter : ∀ job id, (job, id) ∈ w.holds.filter (fun h => h.1 ≠ jobID) ↔
      job ≠ [] ∧ w.manager.Records job id ∧ job ≠ jobID := by
    intro job id
    rw [List.mem_filter, h.holds_iff, decide_eq_true_iff, and_assoc]
  show Linked ⟨(w.manager.recording jobID).elim _ _, _⟩
  cases hgpu : w.manager.recording jobID with
  | none =>
    have hnone := Manager.recording_eq_none_iff.mp hgpu
    refine ⟨fun job id => (hfilter job id).trans (and_congr_right fun _ => ?_), h.once⟩
    refine and_iff_left_of_imp ?_
    rintro ⟨g, hg, -, rfl⟩
    exact hnone g hg
  | some gpu =>
    obtain ⟨hmem, halloc⟩ := Manager.mem_of_recording hgpu
    have hput : ∀ job id, job ≠ [] → ((w.manager.put gpu.free).Records job id ↔
        id ≠ gpu.id ∧ w.manager.Records job id) := by
      intro job id hne
      refine (Manager.records_put gpu.free hmem rfl).trans (or_iff_right ?_)
      rintro ⟨-, hempty⟩
      exact hne hempty.symm
    have hrecorded : w.manager.Records jobID gpu.id := ⟨gpu, hmem, rfl, halloc⟩
    constructor
    · intro job id
      refine (hfilter job id).trans (and_congr_right fun hne => ?_)
      rw [elim_some, hput job id hne, and_comm]
      refine and_congr_left fun hjob => not_congr ⟨?_, ?_⟩
      · rintro rfl
        exact h.once _ _ _ hne hjob hrecorded
      · rintro rfl
        exact hjob.unique hrecorded
    · intro job id id' hne hid hid'
      exact h.once job id id' hne ((hput job id hne).mp hid).2 ((hput job id' hne).mp hid').2

omit [LT T] [DecidableLT T] in
theorem Linked.elim (h : w.Linked)
    (hmem : ∀ gpu ∈ o, gpu ∈ w.manager.gpus ∧ (f gpu).id = gpu.id)
    (halloc : ∀ gpu ∈ o, (f gpu).allocatedTo = gpu.allocatedTo) :
    Linked ⟨o.elim w.manager fun gpu => w.manager.put (f gpu), w.holds⟩ := by
  cases o with
  | none => exact h
  | some gpu => exact h.put _ (hmem gpu rfl).1 (hmem gpu rfl).2 (halloc gpu rfl)

omit [LT T] [DecidableLT T] in
theorem setOffline_eq (m : Manager T) (id : Str) : (m.setOffline id).1 =
    ((m.getGPUByID id).filter (·.status ≠ .allocated)).elim m fun gpu =>
      m.put { gpu with status := .offline } := by
  unfold Manager.setOffline
  cases m.getGPUByID id with
  | none => rfl
  | some gpu => by_cases h : gpu.status = .allocated <;> simp [h, Option.filter]

omit [LT T] [DecidableLT T] in
theorem setOnline_eq (m : Manager T) (id : Str) : (m.setOnline id).1 =
    ((m.getGPUByID id).filter (·.status = .offline)).elim m fun gpu => m.put gpu.free := by
  unfold Manager.setOnline
  cases m.getGPUByID id with
  | none => rfl
  | some gpu => by_cases h : gpu.status = .offline <;> simp [h, Option.filter]

theorem Linked.setOnline_iff (h : w.Linked) (monitor : Monitor T) (id : Str) :
    ((w.step monitor (.setOnline id)).Exclusive ↔ w.Careful (.setOnline id)) ∧
      ((w.step monitor (.setOnline id)).Exclusive → (w.step monitor (.setOnline id)).Linked) := by
  have hcareful : w.Careful (.setOnline id) ↔
      ∀ gpu ∈ (w.manager.getGPUByID id).filter (·.status = .offline), gpu.allocatedTo = [] := by
    simp [Careful, and_imp]
  rw [hcareful, Holders.step, setOnline_eq]
  cases hgpu : (w.manager.getGPUByID id).filter (·.status = .offline) with
  | none => exact ⟨iff_of_true h.exclusive (by simp), fun _ => h⟩
  | some gpu =>
    have hmem := (Manager.mem_of_getGPUByID (filter_eq_some_iff.mp hgpu).1).1
    have hfree : Exclusive ⟨w.manager.put gpu.free, w.holds⟩ → gpu.allocatedTo = [] := by
      intro hnext
      by_contra hne
      have hheld : (gpu.allocatedTo, gpu.id) ∈ w.holds :=
        (h.holds_iff _ _).mpr ⟨hne, gpu, hmem, rfl, rfl⟩
      have hkept : (w.manager.put gpu.free).Records gpu.allocatedTo gpu.id := hnext.recorded _ _ hheld
      obtain ⟨-, hempty⟩ | ⟨hother, -⟩ := (Manager.records_put gpu.free hmem rfl).mp hkept
      · exact hne hempty.symm
      · exact hother rfl
    have hlinked : gpu.allocatedTo = [] → Linked ⟨w.manager.put gpu.free, w.holds⟩ :=
      fun hempty => h.put gpu.free hmem rfl hempty.symm
    refine ⟨⟨fun hnext g hg => ?_, fun hempty => (hlinked (hempty gpu rfl)).exclusive⟩,
      fun hnext => hlinked (hfree hnext)⟩
    cases hg
    exact hfree hnext

theorem withheld_setOnline (id : Str) : Withheld monitor w (.setOnline id) := by
  have hmem {gpu : GPU T} (hgpu : gpu ∈ (w.manager.getGPUByID id).filter (·.status = .offline)) :=
    Manager.mem_of_getGPUByID (filter_eq_some_iff.mp hgpu).1
  exact withheld_elim (f := GPU.free) (fun gpu hgpu => ⟨(hmem hgpu).1, rfl⟩)
    (setOnline_eq w.manager id) fun gpu hgpu _ _ => (hmem hgpu).2.symm

theorem Linked.setOffline (h : w.Linked) (monitor : Monitor T) (id : Str) :
    (w.step monitor (.setOffline id)).Linked ∧ Withheld monitor w (.setOffline id) := by
  have hmem : ∀ gpu ∈ (w.manager.getGPUByID id).filter (·.status ≠ .allocated), gpu ∈ w.manager.gpus ∧
      ({ gpu with status := .offline } : GPU T).id = gpu.id :=
    fun gpu hgpu => ⟨(Manager.mem_of_getGPUByID (filter_eq_some_iff.mp hgpu).1).1, rfl⟩
  refine ⟨?_, withheld_elim hmem (setOffline_eq w.manager id) fun _ _ _ havailable =>
    absurd havailable (show GPUStatus.offline ≠ .available by decide)⟩
  rw [Holders.step, setOffline_eq]
  exact h.elim hmem fun _ _ => rfl

theorem Linked.checkGPU (h : w.Linked) (monitor : Monitor T) (id : Str) (temp util : T) :
    (w.step monitor (.checkGPU id temp util)).Linked ∧
      Withheld monitor w (.checkGPU id temp util) := by
  have hmem : ∀ gpu ∈ w.manager.getGPUByID id, gpu ∈ w.manager.gpus ∧
      (monitor.check temp util gpu).id = gpu.id :=
    fun gpu hgpu => ⟨(Manager.mem_of_getGPUByID hgpu).1, monitor.check_id temp util gpu⟩
  refine ⟨h.elim hmem fun gpu _ => monitor.check_allocatedTo temp util gpu,
    withheld_elim hmem rfl fun gpu hgpu _ havailable => ⟨?_, fun hhot => ?_⟩⟩
  · exact (Manager.mem_of_getGPUByID hgpu).2.symm
  · exact GPU.Withdrawn.not_available (monitor.check_status temp util gpu hhot) havailable

theorem withheld_release_iff (jobID : Str) :
    Withheld monitor w (.releaseGPU jobID) ↔ w.Careful (.releaseGPU jobID) := by
  have hmem {gpu : GPU T} (hgpu : gpu ∈ w.manager.recording jobID) := (Manager.mem_of_recording hgpu).1
  constructor
  · intro hwithheld gpu hgpu hwithdrawn
    refine hwithheld gpu (hmem hgpu) hwithdrawn gpu.free ?_ rfl rfl
    show gpu.free ∈ ((w.manager.recording jobID).elim w.manager _).gpus
    rw [mem_def.mp hgpu]
    exact (Manager.mem_put gpu.free (hmem hgpu) rfl).mpr (.inl rfl)
  · exact fun hcareful => withheld_elim (f := GPU.free) (fun gpu hgpu => ⟨hmem hgpu, rfl⟩) rfl
      fun gpu hgpu hwithdrawn => absurd hwithdrawn (hcareful gpu hgpu)

/-! ### Runs -/

theorem Linked.step_iff (h : w.Linked) (call : ManagerCall T) :
    ((w.step monitor call).Exclusive ∧ Withheld monitor w call ↔ w.Careful call) ∧
      (w.Careful call → (w.step monitor call).Linked) := by
  cases call with
  | allocateGPU jobID =>
    have hgranted := w.manager.allocateGPU_granted jobID
    have hpick : ∀ gpu ∈ w.manager.firstAvailable, gpu ∈ w.manager.gpus :=
      fun gpu => List.mem_of_find?_eq_some
    obtain ⟨hiff, hlinked⟩ := h.grant_iff hgranted hpick
    exact ⟨(and_iff_left (withheld_grant hgranted hpick rfl)).trans hiff, fun hc => hlinked (hiff.mpr hc)⟩
  | allocateGPUByMemory jobID minMemoryMB =>
    have hgranted := w.manager.allocateGPUByMemory_granted jobID minMemoryMB
    have hpick : ∀ gpu ∈ w.manager.bestFit minMemoryMB, gpu ∈ w.manager.gpus :=
      fun gpu hgpu => (Manager.mem_of_bestFit hgpu).1
    obtain ⟨hiff, hlinked⟩ := h.grant_iff hgranted hpick
    exact ⟨(and_iff_left (withheld_grant hgranted hpick rfl)).trans hiff, fun hc => hlinked (hiff.mpr hc)⟩
  | releaseGPU jobID =>
    have hlinked : (w.step monitor (.releaseGPU jobID)).Linked := h.release jobID
    exact ⟨(and_iff_right hlinked.exclusive).trans (withheld_release_iff jobID), fun _ => hlinked⟩
  | setOffline id =>
    obtain ⟨hlinked, hwithheld⟩ := h.setOffline monitor id
    exact ⟨iff_of_true ⟨hlinked.exclusive, hwithheld⟩ trivial, fun _ => hlinked⟩
  | setOnline id =>
    obtain ⟨hiff, hlinked⟩ := h.setOnline_iff monitor id
    exact ⟨(and_iff_left (withheld_setOnline id)).trans hiff, fun hc => hlinked (hiff.mpr hc)⟩
  | checkGPU id temp util =>
    obtain ⟨hlinked, hwithheld⟩ := h.checkGPU monitor id temp util
    exact ⟨iff_of_true ⟨hlinked.exclusive, hwithheld⟩ trivial, fun _ => hlinked⟩

omit [LT T] [DecidableLT T] in
theorem linked_start {m : Manager T} (h : ∀ gpu ∈ m.gpus, gpu.allocatedTo = []) : Linked ⟨m, []⟩ := by
  have hnone : ∀ job id, job ≠ [] → ¬m.Records job id := by
    rintro job id hne ⟨gpu, hgpu, -, rfl⟩
    exact hne (h gpu hgpu)
  constructor
  · intro job id
    refine iff_of_false List.not_mem_nil ?_
    rintro ⟨hne, hrecorded⟩
    exact hnone job id hne hrecorded
  · intro job id id' hne hid
    exact absurd hid (hnone job id hne)

/-- A device is held once, and out of the pool while it is withdrawn, exactly in careful runs. -/
theorem held_once_iff (monitor : Monitor T) (m : Manager T) (hfresh : ∀ gpu ∈ m.gpus, gpu.allocatedTo = [])
    (calls : List (ManagerCall T)) : ((∀ w ∈ states (step monitor) ⟨m, []⟩ calls, w.Exclusive) ∧
        Along (step monitor) (Withheld monitor) ⟨m, []⟩ calls) ↔
      Along (step monitor) Careful ⟨m, []⟩ calls := by
  have hstart : Linked ⟨m, []⟩ := linked_start hfresh
  rw [forall_states_iff_next, and_assoc, and_iff_right hstart.exclusive, ← along_and]
  exact along_congr (I := Linked) (fun w call h => (h.step_iff call).2) (fun w call h => (h.step_iff call).1)
    hstart calls

/-- A device `g` with 80 GB. -/
def oneGpu : Manager ℕ where
  gpus := [⟨[103], 81920, 0, 0, [], .available⟩]
  started := true
  nodup := List.nodup_singleton _

/-- A device is released, taken offline, put online and allocated to another job. -/
theorem oneGpu_held_once : (∀ w ∈ states (step ⟨85, 95⟩) ⟨oneGpu, []⟩
        [.allocateGPU [97], .checkGPU [103] 60 50, .releaseGPU [97], .setOffline [103], .setOnline [103],
          .allocateGPUByMemory [98] 40960], w.Exclusive) ∧
      Along (step ⟨85, 95⟩) (Withheld ⟨85, 95⟩) ⟨oneGpu, []⟩
        [.allocateGPU [97], .checkGPU [103] 60 50, .releaseGPU [97], .setOffline [103], .setOnline [103],
          .allocateGPUByMemory [98] 40960] :=
  (held_once_iff ⟨85, 95⟩ oneGpu (by decide) _).mpr (by decide)

/-- A device that runs hot and cools down while `a` holds it is allocated to `b`. -/
theorem oneGpu_held_twice : ¬((∀ w ∈ states (step ⟨85, 95⟩) ⟨oneGpu, []⟩
        [.allocateGPU [97], .checkGPU [103] 90 50, .checkGPU [103] 60 50, .allocateGPU [98]], w.Exclusive) ∧
      Along (step ⟨85, 95⟩) (Withheld ⟨85, 95⟩) ⟨oneGpu, []⟩
        [.allocateGPU [97], .checkGPU [103] 90 50, .checkGPU [103] 60 50, .allocateGPU [98]]) := by
  rintro ⟨hexclusive, -⟩
  have hlast := hexclusive _ (foldl_mem_states _ _)
  exact absurd (hlast.one_job [97] [98] [103] (by decide) (by decide)) (by decide)

end Holders

end HelixCluster.Gpu
