import HelixCluster.Lib.GoMap

/-!
# The ledger of a device and the server that merges it

The records, the `Device` and the `Server` of `pkg/offlinesync`.
-/

namespace HelixCluster.OfflineSync

/-- `CompletedJob`. The instant `CompletedAt` is in nanoseconds. -/
structure CompletedJob where
  jobID : Str
  output : List UInt8
  completedAt : ℤ
  seq : UInt64
  deriving DecidableEq

structure Device where
  ledger : List CompletedJob
  nextSeq : UInt64

def newDevice : Device where
  ledger := []
  nextSeq := 1

namespace Device

def recordCompleted (d : Device) (jobID : Str) (output : List UInt8) (completedAt : ℤ) :
    Device where
  ledger := d.ledger ++ [⟨jobID, output, completedAt, d.nextSeq⟩]
  nextSeq := d.nextSeq + 1

def buildDelta (d : Device) (serverHighWaterMark : UInt64) : List CompletedJob :=
  d.ledger.filter fun job => job.seq > serverHighWaterMark

theorem mem_buildDelta {d : Device} {mark : UInt64} {job : CompletedJob} :
    job ∈ d.buildDelta mark ↔ job ∈ d.ledger ∧ mark < job.seq := by
  simp [buildDelta]

end Device

def recLess (a b : CompletedJob) : Bool :=
  if a.seq ≠ b.seq then a.seq < b.seq
  else if a.output ≠ b.output then a.output < b.output
  else a.completedAt < b.completedAt

/-- What `recLess` compares. -/
def CompletedJob.rank (job : CompletedJob) : ℕ ×ₗ Str ×ₗ ℤ :=
  toLex (job.seq.toNat, toLex (job.output, job.completedAt))

theorem recLess_iff (a b : CompletedJob) : recLess a b = true ↔ a.rank < b.rank := by
  simp only [recLess, CompletedJob.rank, Prod.Lex.toLex_lt_toLex, UInt64.lt_iff_toNat_lt, ne_eq,
    ← UInt64.toNat_inj]
  split_ifs with hseq houtput <;> simp_all

theorem eq_of_rank_eq {a b : CompletedJob} (hid : a.jobID = b.jobID) (h : a.rank = b.rank) : a = b := by
  obtain ⟨hseq, hrest⟩ := Prod.mk.inj (toLex_inj.mp h)
  obtain ⟨houtput, hcompletedAt⟩ := Prod.mk.inj (toLex_inj.mp hrest)
  cases a
  cases b
  simp_all [UInt64.toNat_inj]

structure Server where
  jobs : GoMap Str CompletedJob
  hwm : UInt64

def newServer : Server where
  jobs := ∅
  hwm := 0

namespace Server

def highWaterMark (s : Server) : UInt64 := s.hwm

/-- The body of the loop of `Reconcile`. -/
def reconcileOne (s : Server) (rec : CompletedJob) : Server where
  jobs :=
    match s.jobs.lookup rec.jobID with
    | none => s.jobs.insert rec.jobID rec
    | some existing => if recLess rec existing then s.jobs.insert rec.jobID rec else s.jobs
  hwm := if rec.seq > s.hwm then rec.seq else s.hwm

def reconcile (s : Server) (records : List CompletedJob) : Server := records.foldl reconcileOne s

def hasJob (s : Server) (jobID : Str) : Bool := (s.jobs.lookup jobID).isSome

variable (s : Server)

theorem hasJob_reconcileOne (rec : CompletedJob) (jobID : Str) :
    (s.reconcileOne rec).hasJob jobID = true ↔ s.hasJob jobID = true ∨ rec.jobID = jobID := by
  have hinsert : ((s.jobs.insert rec.jobID rec).lookup jobID).isSome = true ↔
      (s.jobs.lookup jobID).isSome = true ∨ rec.jobID = jobID := by
    rw [GoMap.lookup_insert_if]
    by_cases h : jobID = rec.jobID
    · simp [h]
    · simp [h, Ne.symm h]
  unfold reconcileOne hasJob
  dsimp only
  split
  · exact hinsert
  · next existing hexisting =>
    split
    · exact hinsert
    constructor
    · exact Or.inl
    rintro (h | rfl)
    · exact h
    · rw [hexisting]
      rfl

theorem hasJob_reconcile (records : List CompletedJob) (jobID : Str) :
    (s.reconcile records).hasJob jobID = true ↔
      s.hasJob jobID = true ∨ ∃ rec ∈ records, rec.jobID = jobID := by
  unfold reconcile
  induction records generalizing s with
  | nil => simp
  | cons rec records ih =>
    rw [List.foldl_cons, ih, hasJob_reconcileOne, List.exists_mem_cons_iff, or_assoc]

theorem hwm_reconcileOne (rec : CompletedJob) :
    (s.reconcileOne rec).hwm.toNat = max s.hwm.toNat rec.seq.toNat := by
  unfold reconcileOne
  simp only [gt_iff_lt, UInt64.lt_iff_toNat_lt]
  split <;> omega

theorem le_hwm_reconcile (records : List CompletedJob) :
    s.hwm.toNat ≤ (s.reconcile records).hwm.toNat := by
  unfold reconcile
  induction records generalizing s with
  | nil => exact le_rfl
  | cons rec records ih =>
    have hrest := ih (s.reconcileOne rec)
    rw [hwm_reconcileOne] at hrest
    exact (le_max_left _ _).trans hrest

variable {records : List CompletedJob}

theorem seq_le_hwm_reconcile {rec : CompletedJob}
    (h : rec ∈ records) : rec.seq.toNat ≤ (s.reconcile records).hwm.toNat := by
  induction records generalizing s with
  | nil => cases h
  | cons head records ih =>
    rcases List.mem_cons.mp h with rfl | h
    · have hrest := (s.reconcileOne rec).le_hwm_reconcile records
      rw [hwm_reconcileOne] at hrest
      exact (le_max_right _ _).trans hrest
    · exact ih (s.reconcileOne head) h

theorem hwm_reconcile_le {s : Server} {bound : ℕ} (hmark : s.hwm.toNat ≤ bound) (h : ∀ rec ∈ records, rec.seq.toNat ≤ bound) :
    (s.reconcile records).hwm.toNat ≤ bound := by
  unfold reconcile
  induction records generalizing s with
  | nil => exact hmark
  | cons rec records ih =>
    obtain ⟨hrec, hrest⟩ := List.forall_mem_cons.mp h
    refine ih ?_ hrest
    rw [hwm_reconcileOne]
    exact max_le hmark hrec

/-! ### The set of the records -/

theorem lookup_reconcileOne (rec : CompletedJob) (id : Str) :
    (s.reconcileOne rec).jobs.lookup id =
      if rec.jobID = id ∧ ∀ job ∈ s.jobs.lookup id, rec.rank < job.rank then some rec
      else s.jobs.lookup id := by
  unfold reconcileOne
  by_cases hid : rec.jobID = id
  · subst hid
    cases hlookup : s.jobs.lookup rec.jobID with
    | none => simp
    | some existing => by_cases hless : recLess rec existing <;> simp_all [← recLess_iff]
  have hne : id ≠ rec.jobID := fun heq => hid heq.symm
  refine Eq.trans ?_ (if_neg fun h => hid h.1).symm
  dsimp only
  split
  · rw [AList.lookup_insert_ne hne]
  split
  · rw [AList.lookup_insert_ne hne]
  · rfl

theorem lookup_reconcile (records : List CompletedJob) (id : Str) :
    (∀ rec ∈ records, rec.jobID = id →
      ∃ job ∈ (s.reconcile records).jobs.lookup id, job.rank ≤ rec.rank) ∧
    ((s.reconcile records).jobs.lookup id = s.jobs.lookup id ∨
      ∃ rec ∈ records, rec.jobID = id ∧ (s.reconcile records).jobs.lookup id = some rec ∧
        ∀ job ∈ s.jobs.lookup id, rec.rank < job.rank) := by
  induction records using List.reverseRecOn with
  | nil => exact ⟨fun rec hrec => absurd hrec List.not_mem_nil, .inl rfl⟩
  | append_singleton records rec ih =>
    obtain ⟨hle, hfrom⟩ := ih
    have hstep : s.reconcile (records ++ [rec]) = (s.reconcile records).reconcileOne rec := by
      simp [reconcile]
    rw [hstep, lookup_reconcileOne]
    split_ifs with hwins
    · refine ⟨fun r hr hid => ⟨rec, rfl, ?_⟩, .inr ⟨rec, by simp, hwins.1, rfl, fun job hjob => ?_⟩⟩
      · rcases List.mem_append.mp hr with hr | hr
        · obtain ⟨job, hjob, hle⟩ := hle r hr hid
          exact (hwins.2 job hjob).le.trans hle
        · rw [List.mem_singleton.mp hr]
      · rcases hfrom with hsame | ⟨r, -, -, hlookup, hlt⟩
        · exact hwins.2 job (hsame ▸ hjob)
        · exact (hwins.2 r hlookup).trans (hlt job hjob)
    refine ⟨fun r hr hid => ?_, hfrom.imp_right fun ⟨r, hr, h⟩ => ⟨r, List.mem_append_left _ hr, h⟩⟩
    rcases List.mem_append.mp hr with hr | hr
    · exact hle r hr hid
    obtain rfl := List.mem_singleton.mp hr
    by_contra hnone
    refine hwins ⟨hid, fun job hjob => lt_of_not_ge fun hge => hnone ⟨job, hjob, hge⟩⟩

theorem foldl_reconcile (batches : List (List CompletedJob)) :
    batches.foldl reconcile s = s.reconcile batches.flatten := by
  rw [reconcile, List.foldl_flatten]
  rfl

/-- `Reconcile` depends on the set of the records alone, not on their order or batches. -/
theorem reconcile_set (s : Server) {first second : List (List CompletedJob)}
    (h : ∀ rec, rec ∈ first.flatten ↔ rec ∈ second.flatten) :
    (∀ id, (first.foldl reconcile s).jobs.lookup id = (second.foldl reconcile s).jobs.lookup id) ∧
      (first.foldl reconcile s).hwm = (second.foldl reconcile s).hwm := by
  rw [foldl_reconcile, foldl_reconcile]
  constructor
  · intro id
    obtain ⟨hle, hfrom⟩ := s.lookup_reconcile first.flatten id
    obtain ⟨hle', hfrom'⟩ := s.lookup_reconcile second.flatten id
    rcases hfrom with hsame | ⟨rec, hrec, hid, hlookup, hlt⟩ <;>
      rcases hfrom' with hsame' | ⟨rec', hrec', hid', hlookup', hlt'⟩
    · rw [hsame, hsame']
    · obtain ⟨job, hjob, hle⟩ := hle rec' ((h rec').mpr hrec') hid'
      exact absurd (hlt' job (hsame ▸ hjob)) hle.not_gt
    · obtain ⟨job, hjob, hle⟩ := hle' rec ((h rec).mp hrec) hid
      exact absurd (hlt job (hsame' ▸ hjob)) hle.not_gt
    · obtain ⟨job, hjob, hle⟩ := hle rec' ((h rec').mpr hrec') hid'
      obtain ⟨job', hjob', hle'⟩ := hle' rec ((h rec).mp hrec) hid
      cases hlookup.symm.trans hjob
      cases hlookup'.symm.trans hjob'
      rw [hlookup, hlookup', eq_of_rank_eq (hid.trans hid'.symm) (le_antisymm hle hle')]
  · refine UInt64.toNat_inj.mp (le_antisymm ?_ ?_)
    · exact hwm_reconcile_le (s.le_hwm_reconcile _) fun rec hrec => s.seq_le_hwm_reconcile ((h rec).mp hrec)
    · exact hwm_reconcile_le (s.le_hwm_reconcile _) fun rec hrec => s.seq_le_hwm_reconcile ((h rec).mpr hrec)

/-- Two records of a job with equal numbers, in either order and sent twice. -/
theorem reconcile_conflict_set :
    ([[⟨[106], [1], 5, 1⟩, ⟨[106], [2], 4, 1⟩]].foldl reconcile newServer).jobs.lookup [106] =
      ([[⟨[106], [2], 4, 1⟩], [⟨[106], [1], 5, 1⟩, ⟨[106], [2], 4, 1⟩]].foldl reconcile newServer).jobs.lookup
        [106] :=
  (reconcile_set newServer (by simp [or_comm])).1 [106]

end Server

end HelixCluster.OfflineSync
