import HelixCluster.Lib.GoInt
import HelixCluster.Omega.Fit

/-!
# Gang scheduling

`ScheduleGang` plans all jobs on copies of the nodes and commits the plan as a whole
(`gang_all_or_nothing`).
-/

namespace HelixCluster.Omega

open List Scheduler

variable {C : Type}

inductive JobStatus where
  | pending
  | scheduled
  | running
  | completed
  | failed

/-- The statuses of the jobs after `ScheduleGang`, which sets them where it commits the plan. -/
def gangStatuses (plugins : List (Plugin C)) (s : Scheduler C) (jobs : List (Job C))
    (statuses : List JobStatus) : List JobStatus :=
  match (s.scheduleGang plugins jobs).2 with
  | .error _ => statuses
  | .ok _ => statuses.map fun _ => .scheduled

/-- Requests have been taken from resources. The CPUs are the differences that `float64` has, one
request after the other, and neither they nor the GPUs get below zero. -/
structure Dropped [Cpu C] (a : Resources C) (rs : List (Resources C)) (b : Resources C) : Prop where
  cpu : b.cpu = rs.foldl (fun cpu r => cpu - r.cpu) a.cpu
  memory : b.memory.toNat + (rs.map fun r => r.memory.toNat).sum = a.memory.toNat
  gpu : b.gpu.toInt + (rs.map fun r => r.gpu.toInt).sum = a.gpu.toInt
  cpu_nonneg : ¬ a.cpu < 0 → ¬ b.cpu < 0
  gpu_nonneg : 0 ≤ a.gpu → 0 ≤ b.gpu

/-- From `s` to `s'` the gang is placed as planned. -/
structure PlacedAs [Cpu C] (s s' : Scheduler C) (jobs : List (Job C))
    (planned : List (Str × Str)) : Prop where
  ids : planned.map Prod.fst = jobs.map Job.id
  recorded : ∀ p ∈ gangPlacements jobs planned, s'.placements.lookup p.jobID = some p
  nodes : ∀ id, s'.nodes.lookup id = none ↔ s.nodes.lookup id = none
  available : ∀ id node', s'.nodes.lookup id = some node' → ∃ node, s.nodes.lookup id = some node ∧
    Dropped node.available (resourcesOn id (gangPlacements jobs planned)) node'.available
  version : s'.version = s.version + 1

theorem lookup_foldl_set {placements : Placements C} {ps : List (Placement C)}
    (hids : (ps.map Placement.jobID).Nodup) {p : Placement C} (hp : p ∈ ps) :
    (ps.foldl Table.set placements).lookup p.jobID = some p := by
  induction ps using reverseRecOn with
  | nil => cases hp
  | append_singleton ps q ih =>
    rw [map_append, nodup_append] at hids
    rw [foldl_append, foldl_cons, foldl_nil, Table.lookup_set]
    rcases mem_append.mp hp with hp | hp
    · rw [if_neg (hids.2.2 _ (mem_map_of_mem hp) _ mem_cons_self)]
      exact ih hids.1 hp
    · rw [mem_singleton.mp hp, if_pos rfl]

theorem map_jobID_gangPlacements {jobs : List (Job C)} {planned : List (Str × Str)}
    (h : planned.map Prod.fst = jobs.map Job.id) :
    (gangPlacements jobs planned).map Placement.jobID = jobs.map Job.id := by
  have hlength : jobs.length = planned.length := by simpa using (congrArg length h).symm
  rw [gangPlacements, ← map_uncurry_zip_eq_zipWith, map_map]
  refine Eq.trans ?_ (congrArg (map Job.id) (map_fst_zip hlength.le))
  rw [map_map]
  rfl

variable [Cpu C] [DecidableLE C]

theorem dropped_of_debits {a b : Resources C} {rs : List (Resources C)}
    (hrs : ∀ r ∈ rs, 0 ≤ r.gpu) (h : a.Debits rs b) : Dropped a rs b := by
  induction rs generalizing a with
  | nil =>
    obtain rfl := h
    exact ⟨rfl, rfl, by simp, id, id⟩
  | cons r rs ih =>
    obtain ⟨hr, hrs⟩ := forall_mem_cons.mp hrs
    obtain ⟨hcovers, hrest⟩ := h
    obtain ⟨hcpu, hmemory, hgpu⟩ := of_decide_eq_true hcovers
    obtain ⟨hcpus, hmemories, hgpus, hcpuLeft, hgpuLeft⟩ := ih hrs hrest
    have hmem : (a.sub r).memory.toNat = a.memory.toNat - r.memory.toNat :=
      UInt64.toNat_sub_of_le _ _ hmemory
    have hmemory := UInt64.le_iff_toNat_le.mp hmemory
    have hgpu := Int64.le_iff_toInt_le.mp hgpu
    have hr : 0 ≤ r.gpu.toInt := Int64.le_iff_toInt_le.mp hr
    have hlt := a.gpu.toInt_lt
    have hsub : (a.sub r).gpu.toInt = a.gpu.toInt - r.gpu.toInt :=
      toInt_sub_of_bounds (by omega) (by omega)
    refine ⟨hcpus, ?_, ?_, fun _ => hcpuLeft (Cpu.sub_not_neg _ _ hcpu), fun _ => hgpuLeft ?_⟩
    · rw [map_cons, sum_cons]
      omega
    · rw [map_cons, sum_cons]
      omega
    · rw [Int64.le_iff_toInt_le, hsub, Int64.toInt_zero]
      omega

/-- **A gang is placed as a whole or not at all**, if only `NodeResourcesFit` binds resources, no
request has a negative number of GPUs and the jobs have distinct IDs. -/
theorem gang_all_or_nothing [DecidableLT C] (s : Scheduler C) (jobs : List (Job C)) :
    (∀ plugins statuses err, (s.scheduleGang plugins jobs).2 = .error err →
      (s.scheduleGang plugins jobs).1 = s ∧ gangStatuses plugins s jobs statuses = statuses) ∧
    ∀ fit : FitOnly C, (∀ job ∈ jobs, 0 ≤ job.resources.gpu) → (jobs.map Job.id).Nodup →
      ∀ planned, (s.scheduleGang fit.plugins jobs).2 = .ok (.gang planned) →
        PlacedAs s (s.scheduleGang fit.plugins jobs).1 jobs planned := by
  refine ⟨fun plugins statuses err h => ⟨?_, by rw [gangStatuses, h]⟩,
    fun fit hjobs hdistinct planned h => ?_⟩
  · unfold scheduleGang at h ⊢
    split_ifs at h ⊢
    · rfl
    split at h
    · rfl
    · cases h
  unfold scheduleGang at h ⊢
  split_ifs at h ⊢
  split at h
  · cases h
  · next shadow _ hplan =>
    cases h
    obtain ⟨hbinds, hids⟩ := planGang_spec hplan
    refine ⟨hids, fun p => lookup_foldl_set (map_jobID_gangPlacements hids ▸ hdistinct),
      (domain_binds hbinds).1, fun id node' hnode' => ?_, rfl⟩
    obtain ⟨node, hnode, hdebits⟩ := debits_binds hbinds hnode'
    refine ⟨node, hnode, dropped_of_debits (fun r hr => ?_) hdebits⟩
    obtain ⟨p, hp, rfl⟩ := mem_map.mp hr
    obtain ⟨job, hjob, heq⟩ := mem_gangPlacements (mem_of_mem_filter hp)
    exact heq ▸ hjobs job hjob

/-- Two nodes, with four CPUs and with one. -/
def twoNodes : Scheduler ℚ :=
  (newScheduler.registerNode ⟨[97], ⟨4, 0, 0⟩, ∅⟩).registerNode ⟨[98], ⟨1, 0, 0⟩, ∅⟩

/-- A job that needs so many CPUs. -/
def cpuJob (id : Str) (cpu : ℚ) : Job ℚ := ⟨id, ⟨cpu, 0, 0⟩, 0, ∅⟩

/-- The second job goes to the same node as the first, and the third to the other one. -/
theorem three_job_gang :
    let jobs := [cpuJob [106] (5/2), cpuJob [107] 1, cpuJob [108] 1]
    PlacedAs twoNodes (twoNodes.scheduleGang [nodeResourcesFit] jobs).1 jobs
      [([106], [97]), ([107], [97]), ([108], [98])] :=
  (gang_all_or_nothing twoNodes _).2 ⟨[], [], by simp⟩ (by decide) (by decide) _ (by decide +kernel)

/-- Two plugins debit the CPU of a job twice. -/
theorem gang_debited_twice :
    let done := twoNodes.scheduleGang [nodeResourcesFit, nodeResourcesFit] [cpuJob [106] 1]
    done.2 = .ok (.gang [([106], [97])]) ∧
      (done.1.nodes.lookup [97]).map (fun node => node.available.cpu) = some 2 := by
  decide +kernel

end HelixCluster.Omega
