import HelixCluster.Backfill.Timeline

/-!
# Conservative backfill

`Schedule` of `pkg/backfill`, which reserves for each job, in order of priority, the earliest window
where it fits (`starts_at_earliest`). No job waits longer than for all those before it, one after the
other (`starts_within_serial`). The capacity is never exceeded if it is less than `2 ^ 62`
(`never_overcommits_iff`).
-/

namespace HelixCluster.Backfill

structure Job where
  id : Str
  width : Int64
  wallTime : Int64

structure Assignment where
  jobID : Str
  startTime : Int64
  endTime : Int64
  backfilled : Bool
  deriving DecidableEq

structure Plan where
  capacity : Int64
  assignments : List Assignment
  deriving DecidableEq

/-- The errors of `Schedule`, with the arguments of their texts. -/
inductive Error where
  | invalidCapacity
  | invalidJob (id : Str) (width wallTime : Int64)
  | jobTooWide (id : Str) (width capacity : Int64)
  deriving DecidableEq

/-- The check of a job in `Schedule`. -/
def checkJob (capacity : Int64) (j : Job) : Option Error :=
  if j.width < 1 ∨ j.wallTime < 1 then some (.invalidJob j.id j.width j.wallTime)
  else if j.width > capacity then some (.jobTooWide j.id j.width capacity)
  else none

/-- The loop of `Schedule` that reserves a window for each job. It is `none` if `reserve` panics. -/
def place (tl : Timeline) (maxHigherStart : Int64) : List Job → Option (List Assignment)
  | [] => some []
  | j :: jobs =>
    let start := tl.earliestStart 0 j.wallTime j.width
    (tl.reserve start j.wallTime j.width).bind fun tl =>
      let assignment : Assignment :=
        { jobID := j.id
          startTime := start
          endTime := addClamp start j.wallTime
          backfilled := maxHigherStart ≥ 0 ∧ start < maxHigherStart }
      (place tl (if start > maxHigherStart then start else maxHigherStart) jobs).map
        (assignment :: ·)

/-- What `Schedule` comes to. -/
inductive Outcome where
  | failed (err : Error)
  | panicked
  | planned (plan : Plan)
  deriving DecidableEq

def schedule (capacity : Int64) (jobs : List Job) : Outcome :=
  if capacity < 1 then .failed .invalidCapacity
  else
    match jobs.findSome? (checkJob capacity) with
    | some err => .failed err
    | none =>
      match place (newTimeline capacity) (-1) jobs with
      | none => .panicked
      | some assignments => .planned ⟨capacity, assignments⟩

/-- The total width of the jobs whose window contains the instant. -/
def load (jobs : List Job) (assignments : List Assignment) (t : ℤ) : ℤ :=
  ((jobs.zip assignments).map fun placed =>
    if placed.2.startTime.toInt ≤ t ∧ t < placed.2.endTime.toInt then placed.1.width.toInt
    else 0).sum

/-- `Schedule` does not panic, and a plan assigns all jobs with no load over the capacity. -/
def NeverOvercommits (capacity : Int64) (jobs : List Job) : Prop :=
  schedule capacity jobs ≠ .panicked ∧ ∀ plan, schedule capacity jobs = .planned plan →
      plan.assignments.map (·.jobID) = jobs.map (·.id) ∧
        ∀ t, load jobs plan.assignments t ≤ capacity.toInt

/-! ## Capacities below `2 ^ 62` -/

variable {capacity : Int64}

theorem of_checkJob_none {j : Job} (h : checkJob capacity j = none) :
    1 ≤ j.width.toInt ∧ 1 ≤ j.wallTime.toInt ∧ j.width.toInt ≤ capacity.toInt := by
  have hone : (1 : Int64).toInt = 1 := rfl
  unfold checkJob at h
  split at h
  · cases h
  · next hpos =>
    obtain ⟨hwidth, hwallTime⟩ := not_or.mp hpos
    split at h
    · cases h
    · next hfits =>
      refine ⟨?_, ?_, Int64.le_iff_toInt_le.mp (Int64.not_lt.mp hfits)⟩
      · exact hone ▸ Int64.le_iff_toInt_le.mp (Int64.not_lt.mp hwidth)
      · exact hone ▸ Int64.le_iff_toInt_le.mp (Int64.not_lt.mp hwallTime)

variable {tl tl' : Timeline} {j : Job} {jobs : List Job} {start : Int64}

/-- The instants from which on the job can run next to the reservations. -/
def freeFrom (used : ℤ → ℤ) (capacity : Int64) (j : Job) : Set ℤ :=
  {t | 0 ≤ t ∧ ∀ u, t ≤ u → u < t + j.wallTime.toInt → used u + j.width.toInt ≤ capacity.toInt}

/-- One iteration of the loop, which reserves the window from `start` on. -/
structure Reserved (tl : Timeline) (j : Job) (start : Int64) (tl' : Timeline) : Prop where
  sound : tl'.Sound
  capacity : tl'.capacity = tl.capacity
  free : ∀ u, start.toInt ≤ u → u < (addClamp start j.wallTime).toInt →
    tl.height u + j.width.toInt ≤ tl.capacity.toInt
  lower : start.toInt ∈ lowerBounds (freeFrom tl.height tl.capacity j)
  boundary : start = 0 ∨ start ∈ tl.delta ∧ 0 < start.toInt
  keys : ∀ k ∈ tl'.delta, k = addClamp start j.wallTime ∨ k = start ∨ k ∈ tl.delta
  height : ∀ t, tl'.height t = tl.height t +
    if start.toInt ≤ t ∧ t < (addClamp start j.wallTime).toInt then j.width.toInt else 0

theorem Reserved.nonneg (h : Reserved tl j start tl') : 0 ≤ start.toInt := by
  rcases h.boundary with rfl | ⟨_, hlt⟩
  · exact le_of_eq Int64.toInt_zero.symm
  · exact hlt.le

theorem place_cons (h : tl.Sound) (hj : checkJob tl.capacity j = none) (maxHigherStart : Int64)
    (jobs : List Job) : ∃ start tl', Reserved tl j start tl' ∧ place tl maxHigherStart (j :: jobs) =
      (place tl' (if start > maxHigherStart then start else maxHigherStart) jobs).map
        (⟨j.id, start, addClamp start j.wallTime, maxHigherStart ≥ 0 ∧ start < maxHigherStart⟩ :: ·) := by
  obtain ⟨hpos, hwallTime, hwidth⟩ := of_checkJob_none hj
  obtain ⟨start, hstart, hfits, hboundary, hleast⟩ := h.earliestStart_spec hwallTime hpos hwidth
  have hnonneg : 0 ≤ start.toInt := by rcases hboundary with rfl | ⟨_, hlt⟩ <;> [decide; exact hlt.le]
  obtain ⟨tl', hreserve, hsound, hcapacity, hkeys, hheight⟩ :=
    h.reserve hpos hwidth hnonneg hwallTime hfits
  refine ⟨start, tl', ⟨hsound, hcapacity, ((h.fits_iff hpos hwidth).mp hfits).2,
    fun t ht => hleast t ht.1 ht.2, hboundary, hkeys, hheight⟩, ?_⟩
  rw [place]
  dsimp only
  rw [hstart, hreserve, Option.bind_some]

theorem load_cons (j : Job) (jobs : List Job) (a : Assignment) (assignments : List Assignment) (t : ℤ) :
    load (j :: jobs) (a :: assignments) t =
      (if a.startTime.toInt ≤ t ∧ t < a.endTime.toInt then j.width.toInt else 0) + load jobs assignments t :=
  rfl

theorem place_spec (h : tl.Sound) (maxHigherStart : Int64)
    (hjobs : ∀ j ∈ jobs, checkJob tl.capacity j = none) :
    ∃ assignments, place tl maxHigherStart jobs = some assignments ∧
      assignments.map (·.jobID) = jobs.map (·.id) ∧
      ∀ t, tl.height t + load jobs assignments t ≤ tl.capacity.toInt := by
  induction jobs generalizing tl maxHigherStart with
  | nil => exact ⟨[], rfl, rfl, fun t => by simpa [load] using h.height_le t⟩
  | cons j jobs ih =>
    obtain ⟨hj, hjobs⟩ := List.forall_mem_cons.mp hjobs
    obtain ⟨start, tl', hreserved, hplace⟩ := place_cons h hj maxHigherStart jobs
    obtain ⟨assignments, hrest, hids, hload⟩ := ih hreserved.sound
      (if start > maxHigherStart then start else maxHigherStart) (hreserved.capacity ▸ hjobs)
    rw [hplace, hrest]
    refine ⟨_, rfl, by rw [List.map_cons, List.map_cons, hids], fun t => ?_⟩
    rw [load_cons, ← add_assoc, ← hreserved.height, ← hreserved.capacity]
    exact hload t

/-- The walltimes of the jobs, without overflow. -/
def totalWallTime (jobs : List Job) : ℤ := (jobs.map fun j => j.wallTime.toInt).sum

/-- Every job starts at the least instant where it fits, which is not after all those before it, and
is marked if it starts before another one. -/
theorem place_least (h : tl.Sound) {total : ℤ} (hkeys : ∀ k ∈ tl.delta, k.toInt ≤ total)
    (htotal : 0 ≤ total) {maxHigherStart : Int64} (hjobs : ∀ j ∈ jobs, checkJob tl.capacity j = none)
    (hsum : total + totalWallTime jobs < 2 ^ 63) {assignments : List Assignment}
    (hplace : place tl maxHigherStart jobs = some assignments) {i : ℕ} {a : Assignment}
    (hj : jobs[i]? = some j) (ha : assignments[i]? = some a) :
    IsLeast (freeFrom (fun u => tl.height u + load (jobs.take i) (assignments.take i) u) tl.capacity j)
      a.startTime.toInt ∧ a.startTime.toInt ≤ total + totalWallTime (jobs.take i) ∧
    a.endTime.toInt = a.startTime.toInt + j.wallTime.toInt ∧
    (a.backfilled ↔ a.startTime.toInt < maxHigherStart.toInt ∨
      ∃ b ∈ assignments.take i, a.startTime.toInt < b.startTime.toInt) := by
  induction jobs generalizing tl total maxHigherStart assignments i with
  | nil => simp at hj
  | cons first jobs ih =>
    obtain ⟨hfirst, hjobs⟩ := List.forall_mem_cons.mp hjobs
    obtain ⟨_, hwallTime, _⟩ := of_checkJob_none hfirst
    obtain ⟨start, tl', hreserved, hcons⟩ := place_cons h hfirst maxHigherStart jobs
    have hnonneg := hreserved.nonneg
    have hstart : start.toInt ≤ total := by
      rcases hreserved.boundary with rfl | ⟨hmem, _⟩
      · exact htotal
      · exact hkeys start hmem
    have hrest : 0 ≤ totalWallTime jobs := by
      refine List.sum_nonneg fun x hx => ?_
      obtain ⟨j, hj, rfl⟩ := List.mem_map.mp hx
      have := (of_checkJob_none (hjobs j hj)).2.1
      omega
    have hstop := Timeline.toInt_addClamp hnonneg hwallTime
    have hsplit : totalWallTime (first :: jobs) = first.wallTime.toInt + totalWallTime jobs := rfl
    rw [hcons] at hplace
    obtain ⟨tail, htail, rfl⟩ := Option.map_eq_some_iff.mp hplace
    cases i with
    | zero =>
      obtain rfl : first = j := by simpa using hj
      obtain rfl := (Option.some.inj ha).symm
      refine ⟨⟨⟨hnonneg, fun u hle hlt => ?_⟩, fun t ht => hreserved.lower ⟨ht.1, fun u hle hlt => ?_⟩⟩,
        hstart.trans (add_zero total).ge, ?_, ?_⟩
      · show tl.height u + 0 + first.width.toInt ≤ tl.capacity.toInt
        rw [add_zero]
        exact hreserved.free u hle (by dsimp only at hlt; omega)
      · have hfree : tl.height u + 0 + first.width.toInt ≤ tl.capacity.toInt := ht.2 u hle hlt
        rwa [add_zero] at hfree
      · dsimp only
        omega
      have hzero : (0 : Int64).toInt = 0 := rfl
      simp only [ge_iff_le, decide_eq_true_eq, Int64.le_iff_toInt_le, Int64.lt_iff_toInt_lt, List.take_zero,
        List.not_mem_nil, false_and, exists_false, or_false]
      omega
    | succ i =>
      have hkeys' : ∀ k ∈ tl'.delta, k.toInt ≤ total + first.wallTime.toInt := by
        intro k hk
        rcases hreserved.keys k hk with rfl | rfl | hmem
        · omega
        · omega
        · exact (hkeys k hmem).trans (by omega)
      obtain ⟨hleast, hserial, hend, hmarked⟩ := ih hreserved.sound hkeys' (by omega)
        (hreserved.capacity ▸ hjobs) (by omega) htail hj ha
      have hused : ∀ mark, (fun u => tl'.height u + load (jobs.take i) (tail.take i) u) =
          fun u => tl.height u + load ((first :: jobs).take (i + 1))
            (List.take (i + 1) (⟨first.id, start, addClamp start first.wallTime, mark⟩ :: tail)) u := by
        intro mark
        funext u
        rw [List.take_succ_cons, List.take_succ_cons, load_cons, ← add_assoc, hreserved.height]
      refine ⟨hused _ ▸ hreserved.capacity ▸ hleast, hserial.trans (add_assoc ..).le, hend,
        hmarked.trans ?_⟩
      simp only [List.take_succ_cons, List.mem_cons, exists_eq_or_imp, ← or_assoc]
      refine or_congr_left ?_
      split_ifs with hgt
      · have := Int64.lt_iff_toInt_lt.mp hgt
        omega
      · have := mt Int64.lt_iff_toInt_lt.mpr hgt
        omega

theorem sound_newTimeline (hpos : 0 ≤ capacity.toInt) (hlt : capacity.toInt < 2 ^ 62) :
    (newTimeline capacity).Sound where
  capacity_lt := hlt
  height_nonneg _ := le_refl _
  height_le _ := hpos
  future _ h := absurd h (AList.notMem_empty _)
  ends := rfl

theorem neverOvercommits_of_failed {err : Error}
    (h : schedule capacity jobs = .failed err) : NeverOvercommits capacity jobs := by
  unfold NeverOvercommits
  rw [h]
  exact ⟨fun hpanic => (by cases hpanic), fun plan hplan => (by cases hplan)⟩

theorem neverOvercommits_of_lt (hlt : capacity.toInt < 2 ^ 62) (jobs : List Job) :
    NeverOvercommits capacity jobs := by
  by_cases hpos : capacity < 1
  · exact neverOvercommits_of_failed (if_pos hpos)
  cases hcheck : jobs.findSome? (checkJob capacity) with
  | some err =>
    have hschedule : schedule capacity jobs = .failed err := by
      rw [schedule, if_neg hpos, hcheck]
    exact neverOvercommits_of_failed hschedule
  | none =>
    have hone : (1 : Int64).toInt = 1 := rfl
    have hle := Int64.le_iff_toInt_le.mp (Int64.not_lt.mp hpos)
    obtain ⟨assignments, hplace, hids, hload⟩ :=
      place_spec (sound_newTimeline (by omega) hlt) (-1) (List.findSome?_eq_none_iff.mp hcheck)
    have hschedule : schedule capacity jobs = .planned ⟨capacity, assignments⟩ := by
      rw [schedule, if_neg hpos, hcheck, hplace]
    unfold NeverOvercommits
    rw [hschedule]
    refine ⟨fun hpanic => (by cases hpanic), fun plan hplan => ?_⟩
    obtain rfl := Outcome.planned.inj hplan
    refine ⟨hids, fun t => ?_⟩
    have hsum := hload t
    rwa [show (newTimeline capacity).height t = 0 from rfl, zero_add] at hsum

theorem schedule_least (hlt : capacity.toInt < 2 ^ 62) (hsum : totalWallTime jobs < 2 ^ 63) {plan : Plan}
    (hplan : schedule capacity jobs = .planned plan) {i : ℕ} {a : Assignment} (hj : jobs[i]? = some j)
    (ha : plan.assignments[i]? = some a) :
    IsLeast (freeFrom (load (jobs.take i) (plan.assignments.take i)) capacity j) a.startTime.toInt ∧
    a.startTime.toInt ≤ totalWallTime (jobs.take i) ∧
    a.endTime.toInt = a.startTime.toInt + j.wallTime.toInt ∧
    (a.backfilled ↔ ∃ b ∈ plan.assignments.take i, a.startTime.toInt < b.startTime.toInt) := by
  unfold schedule at hplan
  split at hplan
  · cases hplan
  next hpos =>
  have hone : (1 : Int64).toInt = 1 := rfl
  have hle := Int64.le_iff_toInt_le.mp (Int64.not_lt.mp hpos)
  split at hplan
  · cases hplan
  next hcheck =>
  split at hplan
  · cases hplan
  next assignments hplace =>
  obtain rfl := Outcome.planned.inj hplan
  obtain ⟨hleast, hserial, hend, hmarked⟩ := place_least (sound_newTimeline (by omega) hlt)
    (fun k hk => absurd hk (AList.notMem_empty k)) (le_refl (0 : ℤ))
    (List.findSome?_eq_none_iff.mp hcheck) (by omega) hplace hj ha
  have hused : (fun u => (newTimeline capacity).height u + load (jobs.take i) (assignments.take i) u) =
      load (jobs.take i) (assignments.take i) := funext fun u => zero_add _
  rw [hused] at hleast
  have hminus : (-1 : Int64).toInt = -1 := rfl
  refine ⟨hleast, hserial.trans (zero_add _).le, hend, hmarked.trans (or_iff_right ?_)⟩
  have hnonneg := hleast.1.1
  omega

/-- **Every job starts at the earliest instant** next to those of higher priority, and is marked if
before one. -/
theorem starts_at_earliest {capacity : Int64} (hlt : capacity.toInt < 2 ^ 62) (jobs : List Job)
    (hsum : totalWallTime jobs < 2 ^ 63) (plan : Plan) (hplan : schedule capacity jobs = .planned plan)
    (i : ℕ) (j : Job) (a : Assignment) (hj : jobs[i]? = some j) (ha : plan.assignments[i]? = some a) :
    IsLeast (freeFrom (load (jobs.take i) (plan.assignments.take i)) capacity j) a.startTime.toInt ∧
    a.endTime.toInt = a.startTime.toInt + j.wallTime.toInt ∧
    (a.backfilled ↔ ∃ b ∈ plan.assignments.take i, a.startTime.toInt < b.startTime.toInt) :=
  have hall := schedule_least hlt hsum hplan hj ha
  ⟨hall.1, hall.2.2⟩

/-- On two units, `c` runs beside `a` and before `b`, which waits for both units. -/
theorem narrow_job_backfilled : IsLeast
    (freeFrom (load [⟨[97], 1, 4⟩, ⟨[98], 2, 3⟩] [⟨[97], 0, 4, false⟩, ⟨[98], 4, 7, false⟩]) 2 ⟨[99], 1, 2⟩) 0 :=
  (starts_at_earliest (by decide) [⟨[97], 1, 4⟩, ⟨[98], 2, 3⟩, ⟨[99], 1, 2⟩] (by decide)
    ⟨2, [⟨[97], 0, 4, false⟩, ⟨[98], 4, 7, false⟩, ⟨[99], 0, 2, true⟩]⟩ (by decide) 2 ⟨[99], 1, 2⟩
    ⟨[99], 0, 2, true⟩ rfl rfl).1

/-- **No job waits longer than in a serial schedule**: it starts at the latest when all those of higher
priority, run one after the other, are done. -/
theorem starts_within_serial (hlt : capacity.toInt < 2 ^ 62) (jobs : List Job)
    (hsum : totalWallTime jobs < 2 ^ 63) (plan : Plan)
    (hplan : schedule capacity jobs = .planned plan) (i : ℕ) (a : Assignment)
    (ha : plan.assignments[i]? = some a) : a.startTime.toInt ≤ totalWallTime (jobs.take i) := by
  have hids := ((neverOvercommits_of_lt hlt jobs).2 plan hplan).1
  have hlength : plan.assignments.length = jobs.length := by simpa using congrArg List.length hids
  have hi : i < jobs.length := hlength ▸ (List.getElem?_eq_some_iff.mp ha).1
  exact (schedule_least hlt hsum hplan (List.getElem?_eq_getElem hi) ha).2.1

/-- The job `b` waits for all of `a`, with `c` beside `a`. -/
theorem wide_job_waits :
    let jobs : List Job := [⟨[97], 1, 4⟩, ⟨[98], 2, 3⟩, ⟨[99], 1, 2⟩]
    schedule 2 jobs =
        .planned ⟨2, [⟨[97], 0, 4, false⟩, ⟨[98], 4, 7, false⟩, ⟨[99], 0, 2, true⟩]⟩ ∧
      (4 : Int64).toInt ≤ totalWallTime (jobs.take 1) :=
  have hplan := by decide
  ⟨hplan, starts_within_serial (by decide) _ (by decide) _ hplan 1 ⟨[98], 4, 7, false⟩ rfl⟩

/-! ## Capacities from `2 ^ 62` on -/

/-- Two jobs that each need the whole cluster for an instant. -/
def twoWide (capacity : Int64) : List Job := [⟨[97], capacity, 1⟩, ⟨[98], capacity, 1⟩]

/-- The timeline with the first of the two jobs. -/
def firstWide (capacity : Int64) : Timeline :=
  ⟨capacity, ((∅ : GoMap Int64 Int64).insert 0 (0 + capacity)).insert 1 (0 - capacity)⟩

theorem boundaries_firstWide (capacity : Int64) : (firstWide capacity).boundaries = [0, 1] := rfl

theorem usedAt_firstWide (capacity : Int64) : (firstWide capacity).usedAt 0 = 0 + (0 + capacity) :=
  rfl

theorem addClamp_zero_one : addClamp 0 1 = 1 := by decide

theorem earliestStart_eq_zero {width : Int64} (rest : List Int64)
    (hcandidates : ((0 : Int64) :: tl.boundaries.filter (· > 0)).insertionSort (· ≤ ·) = 0 :: rest)
    (hfits : tl.fits 0 1 width = true) : tl.earliestStart 0 1 width = 0 := by
  unfold Timeline.earliestStart
  dsimp only
  rw [hcandidates, List.find?_cons_of_pos (p := fun c => tl.fits c 1 width) hfits]

theorem place_twoWide (hle : 2 ^ 62 ≤ capacity.toInt) :
    place (newTimeline capacity) (-1) (twoWide capacity) =
      some [⟨[97], 0, 1, false⟩, ⟨[98], 0, 1, false⟩] := by
  have hlt := capacity.toInt_lt
  have hzero : (0 : Int64) + capacity = capacity := Int64.zero_add capacity
  have hne : (0 : Int64) + capacity ≠ 0 := by
    rw [hzero]
    rintro rfl
    exact absurd hle (by decide)
  have hneg : (0 : Int64) - capacity ≠ 0 := fun heq => hne <| by
    rw [Int64.zero_sub] at heq
    rw [hzero, ← Int64.neg_neg (a := capacity), heq]
    rfl
  have hwraps : ¬ 0 + (0 + capacity) + capacity > capacity := by
    rw [hzero, hzero, gt_iff_lt, Int64.lt_iff_toInt_lt, Int64.toInt_add, Int.bmod_def]
    split <;> omega
  have hfits : (newTimeline capacity).fits 0 1 capacity = true := by
    show (if 0 + capacity > capacity then false else true) = true
    rw [hzero, if_neg (Int64.lt_irrefl)]
  have hreserve : (newTimeline capacity).reserve 0 1 capacity = some (firstWide capacity) := by
    have hstart : Timeline.prune (firstWide capacity).delta 0 = (firstWide capacity).delta :=
      if_neg hne
    have hstop : Timeline.prune (firstWide capacity).delta 1 = (firstWide capacity).delta :=
      if_neg hneg
    have hbook : Timeline.book (newTimeline capacity).delta 0 1 capacity =
        Timeline.prune (Timeline.prune (firstWide capacity).delta 0) 1 := rfl
    rw [Timeline.reserve, if_neg (not_not.mpr hfits), addClamp_zero_one, hbook, hstart, hstop]
    rfl
  have hfits' : (firstWide capacity).fits 0 1 capacity = true := by
    rw [Timeline.fits, boundaries_firstWide, usedAt_firstWide]
    exact if_neg hwraps
  have hstart := earliestStart_eq_zero [] rfl hfits
  have hstart' := earliestStart_eq_zero [1] rfl hfits'
  obtain ⟨tl, hreserve'⟩ : ∃ tl, (firstWide capacity).reserve 0 1 capacity = some tl :=
    ⟨_, if_neg (not_not.mpr hfits')⟩
  simp only [twoWide, place, hstart, hreserve, Option.bind_some, hstart', hreserve', addClamp_zero_one]
  decide

/-- **Backfill never overcommits**, exactly if the capacity is less than `2 ^ 62`. -/
theorem never_overcommits_iff (capacity : Int64) :
    (∀ jobs, NeverOvercommits capacity jobs) ↔ capacity.toInt < 2 ^ 62 := by
  refine ⟨fun hall => ?_, neverOvercommits_of_lt⟩
  by_contra hge
  have hle : 2 ^ 62 ≤ capacity.toInt := not_lt.mp hge
  have hone : (1 : Int64).toInt = 1 := rfl
  have hpos : ¬ capacity < 1 := by
    rw [Int64.lt_iff_toInt_lt]
    omega
  have hcheck : (twoWide capacity).findSome? (checkJob capacity) = none := by
    have hjob : ∀ id, checkJob capacity ⟨id, capacity, 1⟩ = none := fun id => by
      rw [checkJob, if_neg (not_or.mpr ⟨hpos, Int64.lt_irrefl⟩), if_neg Int64.lt_irrefl]
    simp [twoWide, hjob]
  have hschedule : schedule capacity (twoWide capacity) =
      .planned ⟨capacity, [⟨[97], 0, 1, false⟩, ⟨[98], 0, 1, false⟩]⟩ := by
    rw [schedule, if_neg hpos, hcheck, place_twoWide hle]
  have hload := ((hall (twoWide capacity)).2 _ hschedule).2 0
  -- Both jobs run at the instant zero.
  have hboth : load (twoWide capacity) [⟨[97], 0, 1, false⟩, ⟨[98], 0, 1, false⟩] 0 =
      capacity.toInt + (capacity.toInt + 0) := rfl
  rw [hboth] at hload
  omega

/-- A job of width one starts while a job has the whole cluster of the largest capacity. -/
theorem full_cluster_overcommitted :
    let jobs : List Job := [⟨[97], 9223372036854775807, 10⟩, ⟨[98], 1, 10⟩]
    schedule 9223372036854775807 jobs =
        .planned ⟨9223372036854775807, [⟨[97], 0, 10, false⟩, ⟨[98], 0, 10, false⟩]⟩ ∧
      load jobs [⟨[97], 0, 10, false⟩, ⟨[98], 0, 10, false⟩] 5 = 9223372036854775808 ∧
      ¬ NeverOvercommits 9223372036854775807 jobs := by
  intro jobs
  have hschedule : schedule 9223372036854775807 jobs =
      .planned ⟨9223372036854775807, [⟨[97], 0, 10, false⟩, ⟨[98], 0, 10, false⟩]⟩ := by decide
  refine ⟨hschedule, by decide, fun hsafe => ?_⟩
  exact absurd ((hsafe.2 _ hschedule).2 5) (by decide)

end HelixCluster.Backfill
