import HelixCluster.Lib.GoString

/-!
# The multifactor priority queue

The `Queue` of `pkg/priorityqueue`. `Pop` takes the first job that no other one precedes, and
`Order` is a stable sort.
-/

namespace HelixCluster.PriorityQueue

open List

inductive QoS where
  | bestEffort
  | burstable
  | guaranteed
  | other (code : Int64)

def qosBase : QoS → Int64
  | .guaranteed => 300
  | .burstable => 150
  | .bestEffort => 0
  | .other _ => 0

structure Job where
  id : Str
  submitTick : Int64
  fairShare : Int64
  size : Int64
  qos : QoS

structure Weights where
  age : Int64
  fairShare : Int64
  size : Int64

def priority (w : Weights) (j : Job) (now : Int64) : Int64 :=
  qosBase j.qos + w.age * (now - j.submitTick) + w.fairShare * j.fairShare - w.size * j.size

structure Queue where
  weights : Weights
  jobs : List Job

namespace Queue

variable (q : Queue)

def less (a b : Job) (now : Int64) : Bool :=
  let pa := priority q.weights a now
  let pb := priority q.weights b now
  if pa ≠ pb then pa > pb
  else if a.submitTick ≠ b.submitTick then a.submitTick < b.submitTick
  else a.id < b.id

/-- The loop of `Pop` over the jobs from the index `i` on, with the best job so far and its index. -/
def scan (now : Int64) (j : Job) (best : ℕ) : ℕ → List Job → Job × ℕ
  | _, [] => (j, best)
  | i, k :: rest => if q.less k j now then scan now k i (i + 1) rest else scan now j best (i + 1) rest

def pop (now : Int64) : Option (Job × Queue) :=
  match q.jobs with
  | [] => none
  | j :: rest =>
    let found := q.scan now j 0 1 rest
    some (found.1, { q with jobs := (j :: rest).eraseIdx found.2 })

def order (now : Int64) : List Job := q.jobs.insertionSort fun a b => q.less b a now = false

/-- Calls of `Pop` at the given times, with the queue that is left. -/
def popAll (q : Queue) : List Int64 → List Job × Queue
  | [] => ([], q)
  | now :: nows =>
    match q.pop now with
    | none => ([], q)
    | some (j, q') => (j :: (q'.popAll nows).1, (q'.popAll nows).2)

/-- The priority without overflow. -/
def exactPriority (w : Weights) (j : Job) (now : Int64) : ℤ :=
  (qosBase j.qos).toInt + w.age.toInt * (now.toInt - j.submitTick.toInt) +
    w.fairShare.toInt * j.fairShare.toInt - w.size.toInt * j.size.toInt

/-- What `less` compares. -/
def key (now : Int64) (j : Job) : ℤ ×ₗ ℤ ×ₗ Str :=
  toLex (-(priority q.weights j now).toInt, toLex (j.submitTick.toInt, j.id))

variable {q} {now : Int64} {a b : Job}

theorem less_iff : q.less a b now = true ↔ q.key now a < q.key now b := by
  simp only [less, key, Prod.Lex.toLex_lt_toLex, neg_lt_neg_iff, neg_inj, Int64.toInt_inj,
    ← Int64.lt_iff_toInt_lt]
  split_ifs with hpriority hsubmit
  · simp [hpriority]
  · rw [not_not] at hpriority
    simp [hpriority, hsubmit, Int64.lt_irrefl]
  · rw [not_not] at hpriority hsubmit
    simp [hpriority, hsubmit, Int64.lt_irrefl]

theorem less_eq_false_iff : q.less a b now = false ↔ q.key now b ≤ q.key now a := by
  rw [← Bool.not_eq_true, less_iff, not_lt]

/-- The job `m` is the first one that no other one precedes. -/
structure First (q : Queue) (now : Int64) (l : List Job) (m : Job) (r : List Job) : Prop where
  before : ∀ x ∈ l, q.less m x now = true
  after : ∀ x ∈ r, q.less x m now = false

theorem scan_first {l mid : List Job} {j : Job} (rest : List Job) (h : q.First now l j mid) :
    ∃ l' r', l ++ j :: (mid ++ rest) = l' ++ (q.scan now j l.length (l ++ j :: mid).length rest).1 :: r' ∧
      l'.length = (q.scan now j l.length (l ++ j :: mid).length rest).2 ∧
      q.First now l' (q.scan now j l.length (l ++ j :: mid).length rest).1 r' := by
  induction rest generalizing l j mid with
  | nil => exact ⟨l, mid, by simp [scan], rfl, h⟩
  | cons k rest ih =>
    unfold scan
    split_ifs with hless
    · -- all jobs before the new best one come after it in the order
      have hnext : q.First now (l ++ j :: mid) k [] := by
        refine ⟨fun x hx => ?_, nofun⟩
        rw [less_iff] at hless ⊢
        rcases mem_append.mp hx with hx | hx
        · exact hless.trans (less_iff.mp (h.before x hx))
        rcases mem_cons.mp hx with rfl | hx
        · exact hless
        · exact hless.trans_le (less_eq_false_iff.mp (h.after x hx))
      simpa [Nat.add_assoc] using ih hnext
    · have hnext : q.First now l j (mid ++ [k]) := by
        refine ⟨h.before, fun x hx => ?_⟩
        rcases mem_append.mp hx with hx | hx
        · exact h.after x hx
        · rw [mem_singleton.mp hx]
          simpa using hless
      simpa [Nat.add_assoc] using ih hnext

theorem pop_first (hne : q.jobs ≠ []) (now : Int64) :
    ∃ l m r, q.jobs = l ++ m :: r ∧ q.First now l m r ∧ q.pop now = some (m, { q with jobs := l ++ r }) := by
  obtain ⟨j, rest, hjobs⟩ := exists_cons_of_ne_nil hne
  obtain ⟨l, r, hsplit, hlength, hfirst⟩ :=
    @scan_first q now [] [] j rest ⟨nofun, nofun⟩
  refine ⟨l, _, r, hjobs.trans hsplit, hfirst, ?_⟩
  have herase : (j :: rest).eraseIdx (q.scan now j 0 1 rest).2 = l ++ r := by
    rw [show j :: rest = _ from hsplit, show (q.scan now j 0 1 rest).2 = _ from hlength.symm,
      eraseIdx_append_of_length_le le_rfl, Nat.sub_self]
    rfl
  rw [pop, hjobs]
  dsimp only
  rw [herase]
  rfl

theorem insertionSort_first {α : Type} {r : α → α → Prop} [DecidableRel r] {l t : List α} {m : α}
    (hl : ∀ x ∈ l, ¬r x m) (ht : ∀ x ∈ t, r m x) :
    (l ++ m :: t).insertionSort r = m :: (l ++ t).insertionSort r := by
  induction l with
  | nil =>
    rw [nil_append, insertionSort_cons, nil_append]
    cases hsort : t.insertionSort r with
    | nil => rfl
    | cons b rest =>
      have hb : b ∈ t := (mem_insertionSort r).mp (hsort ▸ mem_cons_self)
      exact orderedInsert_cons_of_le r rest (ht b hb)
  | cons x l ih =>
    obtain ⟨hx, hl⟩ := forall_mem_cons.mp hl
    rw [cons_append, insertionSort_cons, ih hl, orderedInsert_cons, if_neg hx]
    rfl

theorem popAll_eq_order {nows : List Int64} (hlength : nows.length = q.jobs.length)
    (hsame : ∀ t ∈ nows, ∀ a ∈ q.jobs, ∀ b ∈ q.jobs, q.less a b t = q.less a b now) :
    q.popAll nows = (q.order now, { q with jobs := [] }) := by
  induction nows generalizing q with
  | nil =>
    obtain ⟨w, jobs⟩ := q
    obtain rfl : jobs = [] := length_eq_zero_iff.mp hlength.symm
    rfl
  | cons t nows ih =>
    have hne : q.jobs ≠ [] := length_pos_iff.mp (hlength ▸ Nat.succ_pos _)
    obtain ⟨l, m, r, hjobs, hfirst, hpop⟩ := pop_first hne t
    obtain ⟨ht, hnows⟩ := forall_mem_cons.mp hsame
    have hmem : ∀ x, x ∈ l ++ r → x ∈ q.jobs := fun x hx => by
      rw [hjobs, mem_append, mem_cons]
      exact (mem_append.mp hx).imp_right .inr
    have hm : m ∈ q.jobs := by simp [hjobs]
    have hrest := ih (q := { q with jobs := l ++ r }) (by simp [hjobs] at hlength ⊢; omega)
      fun t ht a ha b hb => hnows t ht a (hmem a ha) b (hmem b hb)
    have hsort : q.order now = m :: order { q with jobs := l ++ r } now := by
      rw [order, hjobs]
      refine insertionSort_first (fun x hx => ?_) fun x hx => ?_
      · rw [← ht m hm x (hmem x (mem_append_left _ hx)), hfirst.before x hx]
        exact Bool.noConfusion
      · rw [← ht x (hmem x (mem_append_right _ hx)) m hm, hfirst.after x hx]
    rw [popAll, hpop]
    dsimp only
    rw [hrest, hsort]

/-- **Jobs are popped in the advertised order**, and the time does not matter as long as no priority
overflows. -/
theorem pops_in_order (q : Queue) (now : Int64) :
    q.popAll (replicate q.jobs.length now) = (q.order now, { q with jobs := [] }) ∧
      ∀ nows : List Int64, nows.length = q.jobs.length → (∀ j ∈ q.jobs, ∀ t ∈ now :: nows,
          (priority q.weights j t).toInt = exactPriority q.weights j t) →
        q.popAll nows = (q.order now, { q with jobs := [] }) := by
  refine ⟨popAll_eq_order length_replicate fun t ht a _ b _ => ?_, fun nows hlength hexact => ?_⟩
  · rw [eq_of_mem_replicate ht]
  refine popAll_eq_order hlength fun t ht a ha b hb => ?_
  -- the priorities of all jobs differ by what they age from `now` to `t`
  have hage : ∀ j ∈ q.jobs, (priority q.weights j t).toInt =
      (priority q.weights j now).toInt + q.weights.age.toInt * (t.toInt - now.toInt) := by
    intro j hj
    rw [hexact j hj t (mem_cons_of_mem now ht), hexact j hj now mem_cons_self]
    unfold exactPriority
    ring
  rw [Bool.eq_iff_iff, less_iff, less_iff]
  simp only [key, Prod.Lex.toLex_lt_toLex, hage a ha, hage b hb, neg_lt_neg_iff,
    add_lt_add_iff_right, neg_inj, add_left_inj]

/-- Two jobs of the same priority, of which the second one was submitted earlier. -/
def twoJobs : Queue := ⟨⟨2, 5, 1⟩, [⟨[97], 4, 0, 0, .bestEffort⟩, ⟨[98], 3, 0, 2, .bestEffort⟩]⟩

theorem twoJobs_in_order : twoJobs.popAll [9, 5] = (twoJobs.order 4, { twoJobs with jobs := [] }) :=
  (pops_in_order twoJobs 4).2 [9, 5] rfl (by
    simp only [twoJobs, forall_mem_cons, not_mem_nil, false_imp_iff, implies_true, and_true]
    decide +kernel)

end Queue

end HelixCluster.PriorityQueue
