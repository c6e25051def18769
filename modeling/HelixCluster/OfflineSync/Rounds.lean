import HelixCluster.OfflineSync.Ledger
import HelixCluster.Pair

/-!
# Sync rounds of several devices

A round sends the records above the server's high-water mark.
-/

namespace HelixCluster.OfflineSync

open List

variable {ι : Type} [DecidableEq ι] {jobID : Str}

/-- The devices and their server. -/
structure World (ι : Type) where
  devices : ι → Device
  server : Server

/-- No device has recorded anything. -/
def World.start : World ι where
  devices _ := newDevice
  server := newServer

/-- A call of `RecordCompleted`, or a sync round
`server.Reconcile(d.BuildDelta(server.HighWaterMark()))`. -/
inductive Step (ι : Type) where
  | record (d : ι) (jobID : Str) (output : List UInt8) (completedAt : ℤ)
  | sync (d : ι)

namespace Step

/-- The device that records a job in a step, and the job. -/
def recorded : Step ι → Option (ι × Str)
  | record d jobID _ _ => some (d, jobID)
  | sync _ => none

end Step

namespace World

/-- One step. -/
def step (w : World ι) : Step ι → World ι
  | .record d jobID output completedAt =>
    { w with
      devices := Function.update w.devices d
        ((w.devices d).recordCompleted jobID output completedAt) }
  | .sync d =>
    { w with server := w.server.reconcile ((w.devices d).buildDelta w.server.highWaterMark) }

/-- A run. -/
def run (w : World ι) (steps : List (Step ι)) : World ι := steps.foldl step w

/-! ## What a step does -/

theorem mem_ledger_step {w : World ι} {s : Step ι} {d : ι} {job : CompletedJob} :
    job ∈ ((w.step s).devices d).ledger ↔ job ∈ (w.devices d).ledger ∨
        s = .record d job.jobID job.output job.completedAt ∧ job.seq = (w.devices d).nextSeq := by
  cases s with
  | sync e => simp [step]
  | record e jobID output completedAt =>
    by_cases h : d = e
    · subst h
      obtain ⟨jobID', output', completedAt', seq⟩ := job
      simp only [step, Function.update_self, Device.recordCompleted, mem_append,
        mem_singleton, CompletedJob.mk.injEq, Step.record.injEq, true_and]
      grind
    · simp [step, Function.update_of_ne h, Ne.symm h]

theorem hasJob_step {w : World ι} {s : Step ι} :
    (w.step s).server.hasJob jobID = true ↔ w.server.hasJob jobID = true ∨
        ∃ d, s = .sync d ∧ ∃ job ∈ (w.devices d).ledger,
          w.server.highWaterMark < job.seq ∧ job.jobID = jobID := by
  cases s with
  | record d jobID output completedAt => simp [step]
  | sync d =>
    refine (w.server.hasJob_reconcile _ jobID).trans (or_congr_right ?_)
    simp [Device.mem_buildDelta, and_assoc]

theorem hwm_le_step (w : World ι) (s : Step ι) :
    w.server.hwm.toNat ≤ (w.step s).server.hwm.toNat := by
  cases s with
  | record d jobID output completedAt => exact le_rfl
  | sync d => exact w.server.le_hwm_reconcile _

theorem run_hasJob {w : World ι} (h : w.server.hasJob jobID = true)
    (steps : List (Step ι)) : (w.run steps).server.hasJob jobID = true := by
  induction steps generalizing w with
  | nil => exact h
  | cons s steps ih => exact ih (hasJob_step.mpr (.inl h))

variable {steps : List (Step ι)}

theorem exists_mem_ledger_run {w : World ι} {d : ι} :
    (∃ job ∈ ((w.run steps).devices d).ledger, job.jobID = jobID) ↔
      (∃ job ∈ (w.devices d).ledger, job.jobID = jobID) ∨
        (d, jobID) ∈ steps.filterMap Step.recorded := by
  induction steps generalizing w with
  | nil => simp [run]
  | cons s steps ih =>
    rw [show w.run (s :: steps) = (w.step s).run steps from rfl, ih]
    cases s with
    | sync e => simp [step, Step.recorded]
    | record e jobID' output completedAt =>
      simp only [mem_ledger_step, Step.record.injEq, Step.recorded, filterMap_cons,
        mem_cons, Prod.mk.injEq]
      constructor
      · rintro (⟨job, hjob | ⟨⟨rfl, rfl, _⟩, _⟩, rfl⟩ | h)
        · exact .inl ⟨job, hjob, rfl⟩
        · exact .inr (.inl ⟨rfl, rfl⟩)
        · exact .inr (.inr h)
      rintro (⟨job, hjob, rfl⟩ | ⟨rfl, rfl⟩ | h)
      · exact .inl ⟨job, .inl hjob, rfl⟩
      · exact .inl ⟨⟨jobID, output, completedAt, (w.devices d).nextSeq⟩,
          .inr ⟨⟨rfl, rfl, rfl, rfl⟩, rfl⟩, rfl⟩
      · exact .inr h

/-! ## One device -/

/-- Only `d` records, in order, and the server has those up to its high-water mark. -/
structure Sequential (d : ι) (w : World ι) : Prop where
  others : ∀ e, e ≠ d → (w.devices e).ledger = []
  next : (w.devices d).nextSeq.toNat = ((w.devices d).ledger.length + 1) % 2 ^ 64
  seq_le : ∀ job ∈ (w.devices d).ledger, job.seq.toNat ≤ (w.devices d).ledger.length
  hwm_le : w.server.hwm.toNat ≤ (w.devices d).ledger.length
  acknowledged : ∀ job ∈ (w.devices d).ledger, job.seq.toNat ≤ w.server.hwm.toNat →
    w.server.hasJob job.jobID = true

omit [DecidableEq ι] in
theorem start_sequential (d : ι) : Sequential d start where
  others _ _ := rfl
  next := rfl
  seq_le _ hjob := absurd hjob not_mem_nil
  hwm_le := le_rfl
  acknowledged _ hjob := absurd hjob not_mem_nil

namespace Sequential

variable {d : ι} {w : World ι}

theorem record (h : Sequential d w) (jobID : Str) (output : List UInt8) (completedAt : ℤ)
    (hroom : (w.devices d).ledger.length + 1 < 2 ^ 64) :
    Sequential d (w.step (.record d jobID output completedAt)) := by
  have hnext := h.next
  rw [Nat.mod_eq_of_lt hroom] at hnext
  have hlength : ((w.step (.record d jobID output completedAt)).devices d).ledger.length =
      (w.devices d).ledger.length + 1 := by
    simp [step, Device.recordCompleted]
  refine ⟨fun e he => ?others, ?next, fun job hjob => ?seq_le, ?hwm_le,
    fun job hjob hmark => ?acknowledged⟩
  case others =>
    simp [step, Function.update_of_ne he, h.others e he]
  case next =>
    rw [hlength]
    simp [step, Device.recordCompleted, UInt64.toNat_add, hnext]
  case seq_le =>
    rw [hlength]
    rcases mem_ledger_step.mp hjob with hold | ⟨_, hseq⟩
    · exact (h.seq_le job hold).trans (Nat.le_succ _)
    · rw [hseq, hnext]
  case hwm_le =>
    rw [hlength]
    exact h.hwm_le.trans (Nat.le_succ _)
  case acknowledged =>
    rcases mem_ledger_step.mp hjob with hold | ⟨_, hseq⟩
    · exact h.acknowledged job hold hmark
    · rw [hseq, hnext] at hmark
      exact absurd (hmark.trans h.hwm_le) (Nat.not_succ_le_self _)

theorem sync_hasJob (h : Sequential d w) {job : CompletedJob}
    (hjob : job ∈ (w.devices d).ledger) : (w.step (.sync d)).server.hasJob job.jobID = true := by
  refine hasJob_step.mpr ?_
  by_cases hmark : job.seq.toNat ≤ w.server.hwm.toNat
  · exact .inl (h.acknowledged job hjob hmark)
  · exact .inr ⟨d, rfl, job, hjob, UInt64.lt_iff_toNat_lt.mpr (not_le.mp hmark), rfl⟩

theorem sync (h : Sequential d w) (e : ι) : Sequential d (w.step (.sync e)) := by
  by_cases he : e = d
  · subst he
    refine ⟨h.others, h.next, h.seq_le, ?_, fun job hjob _ => h.sync_hasJob hjob⟩
    exact Server.hwm_reconcile_le h.hwm_le fun rec hrec =>
      h.seq_le rec (Device.mem_buildDelta.mp hrec).1
  have hsame : w.step (.sync e) = w := by
    simp [step, Device.buildDelta, h.others e he, Server.reconcile]
  rwa [hsame]

theorem run (h : Sequential d w)
    (honly : ∀ x ∈ steps.filterMap Step.recorded, x.1 = d)
    (hroom : (w.devices d).ledger.length + (steps.filterMap Step.recorded).length < 2 ^ 64) :
    Sequential d (w.run steps) := by
  induction steps generalizing w with
  | nil => exact h
  | cons s steps ih =>
    cases s with
    | sync e => exact ih (h.sync e) honly hroom
    | record e jobID output completedAt =>
      simp only [Step.recorded, filterMap_cons, forall_mem_cons, length_cons] at honly hroom
      obtain ⟨rfl, honly⟩ := honly
      refine ih (h.record jobID output completedAt (by omega)) honly ?_
      simp only [step, Function.update_self, Device.recordCompleted, length_append,
        length_singleton]
      omega

end Sequential

/-! ## Two devices -/

/-- Identifiers are distinct, and of the records with number one the server has at most one. -/
structure Exclusive (w : World ι) (upcoming : List Str) : Prop where
  unique : ∀ d e, ∀ job ∈ (w.devices d).ledger, ∀ other ∈ (w.devices e).ledger,
    job.jobID = other.jobID → d = e ∧ job = other
  fresh : ∀ d, ∀ job ∈ (w.devices d).ledger, job.jobID ∉ upcoming
  nodup : upcoming.Nodup
  source : ∀ jobID, w.server.hasJob jobID = true →
    ∃ d, ∃ job ∈ (w.devices d).ledger, job.jobID = jobID
  first : ∀ d, if (w.devices d).ledger = [] then (w.devices d).nextSeq = 1
    else ∃ job ∈ (w.devices d).ledger, job.seq = 1
  marked : ∀ d, ∀ job ∈ (w.devices d).ledger, w.server.hasJob job.jobID = true →
    job.seq.toNat ≤ w.server.hwm.toNat
  exclusive : ∀ d e, d ≠ e → ∀ job ∈ (w.devices d).ledger, ∀ other ∈ (w.devices e).ledger,
    job.seq = 1 → other.seq = 1 → w.server.hasJob job.jobID = true →
      ¬ w.server.hasJob other.jobID = true

omit [DecidableEq ι] in
theorem start_exclusive {upcoming : List Str} (h : upcoming.Nodup) :
    (start : World ι).Exclusive upcoming where
  unique _ _ _ hjob := absurd hjob not_mem_nil
  fresh _ _ hjob := absurd hjob not_mem_nil
  nodup := h
  source _ hjob := absurd hjob Bool.false_ne_true
  first _ := rfl
  marked _ _ hjob := absurd hjob not_mem_nil
  exclusive _ _ _ _ hjob := absurd hjob not_mem_nil

namespace Exclusive

variable {w : World ι} {upcoming : List Str}

theorem record {d : ι} {jobID : Str} (h : w.Exclusive (jobID :: upcoming))
    (output : List UInt8) (completedAt : ℤ) :
    (w.step (.record d jobID output completedAt)).Exclusive upcoming := by
  have hfresh : ∀ e, ∀ job ∈ (w.devices e).ledger, job.jobID ≠ jobID ∧ job.jobID ∉ upcoming :=
    fun e job hjob => by simpa using h.fresh e job hjob
  obtain ⟨hnew, hnodup⟩ := nodup_cons.mp h.nodup
  have hunsent : ¬ w.server.hasJob jobID = true := fun hhas =>
    have ⟨e, job, hjob, heq⟩ := h.source jobID hhas
    (hfresh e job hjob).1 heq
  -- every record of the new world is old, or it is the new one
  have hcases {e : ι} {job : CompletedJob}
      (hjob : job ∈ ((w.step (.record d jobID output completedAt)).devices e).ledger) :
      job ∈ (w.devices e).ledger ∨
        (d = e ∧ job = ⟨jobID, output, completedAt, (w.devices d).nextSeq⟩) := by
    rcases mem_ledger_step.mp hjob with hold | ⟨hs, hseq⟩
    · exact .inl hold
    · obtain ⟨rfl, rfl, rfl, rfl⟩ := Step.record.inj hs
      exact .inr ⟨rfl, by rw [← hseq]⟩
  refine ⟨?unique, ?fresh, hnodup, ?source, ?first, ?marked, ?exclusive⟩
  case unique =>
    intro e f job hjob other hother heq
    rcases hcases hjob with hjob | ⟨rfl, rfl⟩ <;> rcases hcases hother with hother | ⟨rfl, rfl⟩
    · exact h.unique e f job hjob other hother heq
    · exact absurd heq (hfresh e job hjob).1
    · exact absurd heq.symm (hfresh f other hother).1
    · exact ⟨rfl, rfl⟩
  case fresh =>
    intro e job hjob
    rcases hcases hjob with hjob | ⟨rfl, rfl⟩
    · exact (hfresh e job hjob).2
    · exact hnew
  case source =>
    intro id hhas
    obtain ⟨e, job, hjob, heq⟩ := h.source id hhas
    exact ⟨e, job, mem_ledger_step.mpr (.inl hjob), heq⟩
  case first =>
    intro e
    have hfirst := h.first e
    rcases eq_or_ne e d with rfl | he
    · rw [if_neg (by simp [step, Device.recordCompleted])]
      split at hfirst
      · exact ⟨⟨jobID, output, completedAt, (w.devices e).nextSeq⟩,
          mem_ledger_step.mpr (.inr ⟨rfl, rfl⟩), hfirst⟩
      · obtain ⟨job, hjob, hseq⟩ := hfirst
        exact ⟨job, mem_ledger_step.mpr (.inl hjob), hseq⟩
    · simpa [step, Function.update_of_ne he] using hfirst
  case marked =>
    intro e job hjob hhas
    rcases hcases hjob with hjob | ⟨rfl, rfl⟩
    · exact h.marked e job hjob hhas
    · exact absurd hhas hunsent
  case exclusive =>
    intro e f hne job hjob other hother hone hone' hhas hhas'
    rcases hcases hjob with hjob | ⟨rfl, rfl⟩
    · rcases hcases hother with hother | ⟨rfl, rfl⟩
      · exact h.exclusive e f hne job hjob other hother hone hone' hhas hhas'
      · exact hunsent hhas'
    · exact hunsent hhas

theorem sync (h : w.Exclusive upcoming) (e : ι) : (w.step (.sync e)).Exclusive upcoming := by
  -- what the round adds is a record of `e` above the mark
  have hsent {d : ι} {job : CompletedJob} (hjob : job ∈ (w.devices d).ledger)
      (hhas : (w.step (.sync e)).server.hasJob job.jobID = true) :
      w.server.hasJob job.jobID = true ∨ d = e ∧ w.server.hwm < job.seq := by
    rcases hasJob_step.mp hhas with hold | ⟨_, hs, rec, hrec, hmark, heq⟩
    · exact .inl hold
    obtain rfl := Step.sync.inj hs
    obtain ⟨rfl, rfl⟩ := h.unique _ _ rec hrec job hjob heq
    exact .inr ⟨rfl, hmark⟩
  refine ⟨h.unique, h.fresh, h.nodup, ?source, h.first, ?marked, ?exclusive⟩
  case source =>
    intro jobID hhas
    rcases hasJob_step.mp hhas with hold | ⟨d, _, job, hjob, _, heq⟩
    · exact h.source jobID hold
    · exact ⟨d, job, hjob, heq⟩
  case marked =>
    intro d job hjob hhas
    rcases hsent hjob hhas with hold | ⟨rfl, hmark⟩
    · exact (h.marked d job hjob hold).trans (hwm_le_step w (.sync e))
    · exact w.server.seq_le_hwm_reconcile (Device.mem_buildDelta.mpr ⟨hjob, hmark⟩)
  case exclusive =>
    intro d f hne job hjob other hother hone hone' hhas hhas'
    -- a record with number one is sent only while the mark is zero
    have hzero : (1 : UInt64).toNat = 1 := rfl
    rcases hsent hjob hhas with hold | ⟨rfl, hmark⟩ <;>
      rcases hsent hother hhas' with hold' | ⟨rfl, hmark'⟩
    · exact h.exclusive d f hne job hjob other hother hone hone' hold hold'
    · have hle := h.marked d job hjob hold
      rw [UInt64.lt_iff_toNat_lt, hone', hzero] at hmark'
      rw [hone, hzero] at hle
      omega
    · have hle := h.marked f other hother hold'
      rw [UInt64.lt_iff_toNat_lt, hone, hzero] at hmark
      rw [hone', hzero] at hle
      omega
    · exact hne rfl

theorem run
    (h : w.Exclusive ((steps.filterMap Step.recorded).map Prod.snd)) : (w.run steps).Exclusive [] := by
  induction steps generalizing w with
  | nil => exact h
  | cons s steps ih =>
    cases s with
    | sync e => exact ih (h.sync e)
    | record e jobID output completedAt => exact ih (h.record output completedAt)

end Exclusive

end World

/-- A sync round of `d` after its last job, and the run `before` it. -/
def FinalRound (d : ι) (before steps : List (Step ι)) : Prop :=
  ∃ after, steps = before ++ .sync d :: after ∧ ∀ x ∈ after.filterMap Step.recorded, x.1 ≠ d

/-- The server has every job after the last sync rounds if and only if a single device recorded
them. -/
theorem has_every_job_iff {steps : List (Step ι)}
    (hids : ((steps.filterMap Step.recorded).map Prod.snd).Nodup)
    (hlength : (steps.filterMap Step.recorded).length < 2 ^ 64)
    (hsynced : ∀ x ∈ steps.filterMap Step.recorded, ∃ before, FinalRound x.1 before steps) :
    (∀ x ∈ steps.filterMap Step.recorded,
        ((World.start : World ι).run steps).server.hasJob x.2 = true) ↔
      ∀ x ∈ steps.filterMap Step.recorded, ∀ y ∈ steps.filterMap Step.recorded, x.1 = y.1 := by
  constructor
  · intro hall x hx y hy
    by_contra hne
    have hend := (World.start_exclusive hids).run
    -- the first record of each device is on the server
    have hfirst : ∀ z ∈ steps.filterMap Step.recorded,
        ∃ job ∈ (((World.start : World ι).run steps).devices z.1).ledger, job.seq = 1 ∧
          ((World.start : World ι).run steps).server.hasJob job.jobID = true := by
      intro z hz
      obtain ⟨job, hjob, _⟩ := World.exists_mem_ledger_run.mpr (.inr hz)
      have hfirst := hend.first z.1
      rw [if_neg (ne_nil_of_mem hjob)] at hfirst
      obtain ⟨one, hone, hseq⟩ := hfirst
      refine ⟨one, hone, hseq, ?_⟩
      rcases World.exists_mem_ledger_run.mp ⟨one, hone, rfl⟩ with ⟨old, hold, _⟩ | hrecorded
      · exact absurd hold not_mem_nil
      · exact hall _ hrecorded
    obtain ⟨job, hjob, hone, hhas⟩ := hfirst x hx
    obtain ⟨other, hother, hone', hhas'⟩ := hfirst y hy
    exact hend.exclusive x.1 y.1 hne job hjob other hother hone hone' hhas hhas'
  · rintro hsingle ⟨d, jobID⟩ hx
    obtain ⟨before, after, rfl, hafter⟩ := hsynced (d, jobID) hx
    rw [filterMap_append] at hsingle hlength hx
    have hbefore : (d, jobID) ∈ before.filterMap Step.recorded := by
      rcases mem_append.mp hx with hbefore | hlater
      · exact hbefore
      · exact absurd rfl (hafter (d, jobID) hlater)
    have hsequential : World.Sequential d (World.start.run before) := by
      refine (World.start_sequential d).run ?_ ?_
      · exact fun y hy => hsingle y (mem_append_left _ hy) (d, jobID) hx
      rw [length_append] at hlength
      change 0 + _ < _
      omega
    obtain ⟨job, hjob, rfl⟩ := World.exists_mem_ledger_run.mpr (.inr hbefore)
    rw [World.run, foldl_append]
    exact World.run_hasJob (hsequential.sync_hasJob hjob) after

/-- A device records a job, syncs, and does so again. -/
def twoWaves : List (Step Site) :=
  [.record .a [120] [] 0, .sync .a, .record .a [121] [] 1, .sync .a]

/-- The server has the jobs of both waves. -/
theorem twoWaves_has_every_job : (World.start.run twoWaves).server.hasJob [120] = true ∧
      (World.start.run twoWaves).server.hasJob [121] = true := by
  have hfinal : FinalRound Site.a [.record .a [120] [] 0, .sync .a, .record .a [121] [] 1]
      twoWaves := ⟨[], rfl, by simp⟩
  have hsynced : ∀ x ∈ twoWaves.filterMap Step.recorded, ∃ before,
      FinalRound x.1 before twoWaves := by
    simp only [twoWaves, Step.recorded, filterMap_cons, filterMap_nil,
      forall_mem_cons, not_mem_nil, false_imp_iff, implies_true, and_true]
    exact ⟨⟨_, hfinal⟩, ⟨_, hfinal⟩⟩
  have hall := (has_every_job_iff (by decide) (by decide) hsynced).mpr (by decide)
  exact ⟨hall (.a, [120]) (by decide), hall (.a, [121]) (by decide)⟩

/-- Two devices record a job each and sync. -/
def sharedCursor : List (Step Site) :=
  [.record .a [120] [] 0, .sync .a, .record .b [121] [] 0, .sync .b]

/-- The first round raises the mark to one, so the job of the second device never arrives. -/
theorem sharedCursor_loses_job : ((sharedCursor.filterMap Step.recorded).map Prod.snd).Nodup ∧
      (∀ d, ∃ before, FinalRound d before sharedCursor) ∧
      (Site.b, [121]) ∈ sharedCursor.filterMap Step.recorded ∧
      (World.start.run sharedCursor).server.hasJob [121] = false := by
  refine ⟨by decide, fun d => ?_, by decide, by decide⟩
  cases d with
  | a => exact ⟨[.record .a [120] [] 0], [.record .b [121] [] 0, .sync .b], rfl, by decide⟩
  | b => exact ⟨[.record .a [120] [] 0, .sync .a, .record .b [121] [] 0], [], rfl, by decide⟩

end HelixCluster.OfflineSync
