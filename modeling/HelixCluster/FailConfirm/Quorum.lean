import HelixCluster.FailConfirm.Detector

/-!
# A live quorum, no more and no less

What the members last did on a target is read off the calls (`latest`).
-/

namespace HelixCluster.FailConfirm

open Option AList List

/-- A call, with its readings of the clock. -/
inductive Call where
  | report (reporter target : NodeID) (reading reading' : Int64)
  | clear (reporter target : NodeID)
  | state (target : NodeID) (reading : Int64)
  | reporterCount (target : NodeID) (reading : Int64)

namespace Call

/-- The readings of the clock, in order. -/
def readings : Call → List Int64
  | .report _ _ reading reading' => [reading, reading']
  | .clear _ _ => []
  | .state _ reading => [reading]
  | .reporterCount _ reading => [reading]

/-- `State` and `ReporterCount` only ask. -/
def isQuery : Call → Bool
  | .report .. | .clear .. => false
  | .state .. | .reporterCount .. => true

/-- What the reporter last did on the target: the time of its report, or nothing. -/
def latest (reporter target : NodeID) (old : Option Int64) : Call → Option Int64
  | .report r t reading _ => if r = reporter ∧ t = target then some reading else old
  | .clear r t => if r = reporter ∧ t = target then none else old
  | .state .. | .reporterCount .. => old

end Call

/-- The time of the reporter's report on the target, if a report is the last it did. -/
def latest (calls : List Call) (reporter target : NodeID) : Option Int64 :=
  calls.foldl (Call.latest reporter target) none

/-- All readings of the clock. -/
def readings (calls : List Call) : List Int64 := calls.flatMap Call.readings

namespace Config

/-- The detector takes a call. -/
def step (c : Config) (d : Detector) : Call → Detector
  | .report reporter target reading reading' => (c.reportPFAIL d reporter target reading reading').2
  | .clear reporter target => (c.clearPFAIL d reporter target).2
  | .state target reading => (c.state d target reading).1
  | .reporterCount target reading => (c.reporterCount d target reading).1

/-- The detector after the calls. -/
def run (c : Config) (calls : List Call) : Detector := calls.foldl c.step .new

/-- A report still counts. Reports do not expire without a clock or with a TTL that is not positive.
-/
def live (c : Config) (reading tick : Int64) : Bool :=
  !c.ttlActive || decide (reading.toInt - tick.toInt < c.ttl.toInt)

/-- The members whose latest action on the target was a report that still counts. -/
def liveReporters (c : Config) (calls : List Call) (target : NodeID) (reading : Int64) :
    List NodeID :=
  c.members.keys.filter fun r => (latest calls r target).any (c.live reading)

/-- At some report on the target by a member, enough members had reported it. -/
def Confirmed (c : Config) (calls : List Call) (target : NodeID) : Prop :=
  ∃ before reporter reading reading' after,
    calls = before ++ .report reporter target reading reading' :: after ∧
      reporter ∈ c.members ∧ target ∈ c.members ∧
      c.quorum ≤ (c.liveReporters (before ++ [.report reporter target reading reading']) target
        reading').length

/-- The reading is not so far below zero that `now - ttl` overflows. -/
def InRange (c : Config) (reading : Int64) : Prop :=
  c.ttlActive → -2 ^ 63 ≤ reading.toInt - c.ttl.toInt

end Config

variable {c : Config} {d : Detector} {calls : List Call} {call : Call} {target t r : NodeID}
  {reading tick : Int64} {d' : Detector} {calls' : List Call}

/-! ### What the calls say -/

theorem latest_append (calls : List Call) (call : Call) (r t : NodeID) :
    latest (calls ++ [call]) r t = call.latest r t (latest calls r t) :=
  foldl_append ..

theorem readings_append (calls : List Call) (call : Call) :
    readings (calls ++ [call]) = readings calls ++ call.readings := by
  simp [readings]

theorem Call.latest_of_isQuery (h : call.isQuery) (r t : NodeID) (old : Option Int64) :
    call.latest r t old = old := by
  cases call with
  | report | clear => cases h
  | state | reporterCount => rfl

theorem latest_filter (calls : List Call) (r t : NodeID) :
    latest (calls.filter fun call => !call.isQuery) r t = latest calls r t := by
  induction calls using List.reverseRecOn with
  | nil => rfl
  | append_singleton calls call ih =>
    rw [filter_append, latest_append]
    cases hquery : call.isQuery with
    | true => simp [hquery, ih, call.latest_of_isQuery hquery]
    | false =>
      rw [← ih, ← latest_append]
      simp [hquery]

/-- The last call is a report that confirms the target. -/
def Config.Confirms (c : Config) (calls : List Call) (target : NodeID) (call : Call) : Prop :=
  ∃ reporter reading reading', call = .report reporter target reading reading' ∧
    reporter ∈ c.members ∧ target ∈ c.members ∧
    c.quorum ≤ (c.liveReporters (calls ++ [call]) target reading').length

theorem Config.confirmed_append :
    c.Confirmed (calls ++ [call]) t ↔ c.Confirmed calls t ∨ c.Confirms calls t call := by
  constructor
  · rintro ⟨before, reporter, reading, reading', after, heq, hmembers⟩
    rcases eq_nil_or_concat after with rfl | ⟨after, last, rfl⟩
    · obtain ⟨rfl, hcall⟩ := append_inj' heq rfl
      obtain rfl := singleton_inj.mp hcall
      exact .inr ⟨reporter, reading, reading', rfl, hmembers⟩
    have heq : calls ++ [call] = (before ++ .report reporter t reading reading' :: after) ++ [last] := by
      simpa using heq
    exact .inl ⟨before, reporter, reading, reading', after, (append_inj' heq rfl).1, hmembers⟩
  rintro (⟨before, reporter, reading, reading', after, rfl, hmembers⟩ | hlast)
  · exact ⟨before, reporter, reading, reading', after ++ [call], by simp, hmembers⟩
  · obtain ⟨reporter, reading, reading', rfl, hmembers⟩ := hlast
    exact ⟨calls, reporter, reading, reading', [], rfl, hmembers⟩

theorem Config.not_confirms_of_isQuery (h : call.isQuery) : ¬ c.Confirms calls t call := by
  rintro ⟨_, _, _, rfl, _⟩
  cases h

theorem Config.confirmed_filter :
    c.Confirmed (calls.filter fun call => !call.isQuery) t ↔ c.Confirmed calls t := by
  induction calls using List.reverseRecOn with
  | nil => rfl
  | append_singleton calls call ih =>
    rw [filter_append, confirmed_append, ← ih]
    cases hquery : call.isQuery with
    | true => simp [hquery, not_confirms_of_isQuery hquery]
    | false =>
      have hsame : ∀ reading, c.liveReporters ((calls.filter fun call => !call.isQuery) ++ [call])
          t reading = c.liveReporters (calls ++ [call]) t reading := by
        intro reading
        simp only [liveReporters, latest_append, latest_filter]
      have hsingle : ([call].filter fun call => !call.isQuery) = [call] := by simp [hquery]
      rw [hsingle, confirmed_append]
      simp only [Confirms, hsame]

/-! ### Expiry -/

theorem Config.live_of_le {earlier : Int64} (hle : earlier ≤ reading)
    (h : c.live reading tick) : c.live earlier tick := by
  rw [Int64.le_iff_toInt_le] at hle
  simp only [live, Bool.or_eq_true, decide_eq_true_eq] at h ⊢
  exact h.imp_right fun hlt => by omega

theorem Config.live_eq (h : c.InRange reading) (tick : Int64) :
    (!(c.ttlActive && decide (c.now tick ≤ c.now reading - c.ttl))) = c.live reading tick := by
  cases hactive : c.ttlActive with
  | false => simp [live, hactive]
  | true =>
    have hrange := h hactive
    obtain ⟨hclock, hpos⟩ : c.clock = true ∧ 0 < c.ttl := by
      simpa [ttlActive] using hactive
    have hpos : 0 < c.ttl.toInt := Int64.lt_iff_toInt_lt.mp hpos
    have hlt := reading.toInt_lt
    have hsub : (reading - c.ttl).toInt = reading.toInt - c.ttl.toInt :=
      toInt_sub_of_bounds hrange (by omega)
    have hiff : tick ≤ reading - c.ttl ↔ ¬ reading.toInt - tick.toInt < c.ttl.toInt := by
      rw [Int64.le_iff_toInt_le, hsub]
      omega
    simp only [live, hactive, now, hclock, hiff, decide_not, Bool.true_and, Bool.not_not,
      Bool.not_true, Bool.false_or, if_pos]

/-! ### What the detector stores -/

/-- The reports are the latest actions on targets that are not dead, unless they have expired. -/
structure Stores (c : Config) (calls : List Call) (d : Detector) : Prop where
  stored : ∀ t ∉ d.dead, ∀ r tick, (d.reporters t).lookup r = some tick →
    r ∈ c.members ∧ t ∈ c.members ∧ ∃ reading, latest calls r t = some reading ∧ tick = c.now reading
  kept : ∀ t ∉ d.dead, ∀ r, r ∈ c.members → t ∈ c.members → ∀ tick, latest calls r t = some tick →
    (d.reporters t).lookup r = some (c.now tick) ∨ ∃ x ∈ readings calls, c.live x tick = false

namespace Stores

section

variable (h : Stores c calls d)

include h

theorem mem_pruned_iff (ht : t ∉ d.dead)
    (hlast : ∀ x ∈ readings calls, x ≤ reading) (hrange : c.InRange reading) (r : NodeID) :
    r ∈ c.pruned reading (d.reporters t) ↔
      t ∈ c.members ∧ r ∈ c.members ∧ (latest calls r t).any (c.live reading) := by
  rw [← lookup_isSome, FailConfirm.lookup_pruned]
  constructor
  · intro hsome
    obtain ⟨tick, hfilter⟩ := isSome_iff_exists.mp hsome
    obtain ⟨hlookup, hfresh⟩ := filter_eq_some_iff.mp hfilter
    obtain ⟨hr, ht', x, hlatest, rfl⟩ := h.stored t ht r tick hlookup
    refine ⟨ht', hr, ?_⟩
    rw [hlatest, any_some, ← Config.live_eq hrange]
    exact hfresh
  rintro ⟨ht', hr, hany⟩
  cases hlatest : latest calls r t with
  | none => simp [hlatest] at hany
  | some x =>
    rw [hlatest, any_some] at hany
    rcases h.kept t ht r hr ht' x hlatest with hlookup | ⟨y, hy, hexpired⟩
    · simp only [hlookup, Option.filter, Config.live_eq hrange, hany]
      rfl
    · have := Config.live_of_le (hlast y hy) hany
      simp [hexpired] at this

theorem len_pruned (ht : t ∉ d.dead)
    (hlast : ∀ x ∈ readings calls, x ≤ reading) (hrange : c.InRange reading) :
    (c.pruned reading (d.reporters t)).len =
      if t ∈ c.members then (c.liveReporters calls t reading).length else 0 := by
  have hmem := h.mem_pruned_iff ht hlast hrange
  by_cases ht' : t ∈ c.members
  · rw [if_pos ht']
    refine List.Perm.length_eq ((perm_ext_iff_of_nodup (AList.keys_nodup _)
      (c.members.keys_nodup.filter _)).mpr fun r => ?_)
    rw [← AList.mem_keys, hmem, mem_filter, ← AList.mem_keys]
    exact and_iff_right ht'
  · rw [if_neg ht', GoMap.len, length_eq_zero_iff, eq_nil_iff_forall_not_mem]
    exact fun r hr => ht' ((hmem r).mp (AList.mem_keys.mp hr)).1

theorem look (target : NodeID) (hreading : reading ∈ readings calls)
    (hrange : c.InRange reading) : Stores c calls (c.liveReporterCount d target reading).1 := by
  obtain ⟨hdead, _, hreporters, _⟩ := liveReporterCount_spec c d target reading
  refine ⟨fun t ht r tick hlookup => ?_, fun t ht r hr ht' tick hlatest => ?_⟩
  · rw [hdead] at ht
    rw [hreporters] at hlookup
    split at hlookup
    · rw [FailConfirm.lookup_pruned] at hlookup
      exact h.stored t ht r tick (filter_eq_some_iff.mp hlookup).1
    · exact h.stored t ht r tick hlookup
  rw [hdead] at ht
  rw [hreporters]
  rcases h.kept t ht r hr ht' tick hlatest with hlookup | hexpired
  · split
    · rw [FailConfirm.lookup_pruned, hlookup]
      cases hlive : c.live reading tick with
      | false => exact .inr ⟨reading, hreading, hlive⟩
      | true => exact .inl (by simp only [Option.filter, Config.live_eq hrange, hlive]; rfl)
    · exact .inl hlookup
  · exact .inr hexpired

theorem append (hlatest : ∀ t ∉ d.dead, ∀ r, r ∈ c.members → t ∈ c.members →
      latest (calls ++ [call]) r t = latest calls r t) : Stores c (calls ++ [call]) d where
  stored t ht r tick hlookup := by
    obtain ⟨hr, ht', x, hx, hnow⟩ := h.stored t ht r tick hlookup
    exact ⟨hr, ht', x, (hlatest t ht r hr ht').trans hx, hnow⟩
  kept t ht r hr ht' tick htick := by
    rw [hlatest t ht r hr ht'] at htick
    refine (h.kept t ht r hr ht' tick htick).imp_right ?_
    rintro ⟨x, hx, hexpired⟩
    exact ⟨x, by rw [readings_append]; exact mem_append_left _ hx, hexpired⟩

theorem update (ht : t ∈ c.members) (hr : r ∈ c.members)
    (hdead : d'.dead = d.dead) {old : Option Int64}
    (hlatest : ∀ r' t', latest (calls ++ [call]) r' t' =
      if r = r' ∧ t = t' then old else latest calls r' t')
    (hlookup : ∀ r' t', (d'.reporters t').lookup r' =
      if r = r' ∧ t = t' then old.map c.now else (d.reporters t').lookup r') :
    Stores c (calls ++ [call]) d' where
  stored t' ht' r' tick htick := by
    rw [hlookup] at htick
    rw [hlatest]
    split_ifs at htick with heq
    · obtain ⟨rfl, rfl⟩ := heq
      obtain ⟨x, hx, rfl⟩ := map_eq_some_iff.mp htick
      exact ⟨hr, ht, x, by rw [if_pos ⟨rfl, rfl⟩, hx], rfl⟩
    · rw [if_neg heq]
      exact h.stored t' (hdead ▸ ht') r' tick htick
  kept t' ht' r' hr' htm tick htick := by
    rw [hlatest] at htick
    rw [hlookup]
    split_ifs at htick with heq
    · rw [if_pos heq, htick]
      exact .inl rfl
    · rw [if_neg heq]
      refine (h.kept t' (hdead ▸ ht') r' hr' htm tick htick).imp_right ?_
      rintro ⟨x, hx, hexpired⟩
      exact ⟨x, by rw [readings_append]; exact mem_append_left _ hx, hexpired⟩

theorem promote (hdead : t ∉ d.dead) : Stores c calls (d.promote t) := by
  have hreporters : ∀ t' ∉ (d.promote t).dead,
      t' ∉ d.dead ∧ (d.promote t).reporters t' = d.reporters t' := by
    intro t' ht'
    rw [Detector.promote, if_neg hdead] at ht' ⊢
    obtain ⟨hne, hold⟩ := not_or.mp (mt (mem_insert _).mpr ht')
    exact ⟨hold, (reporters_erase d t t').trans (if_neg hne)⟩
  refine ⟨fun t' ht' => ?_, fun t' ht' => ?_⟩
  · obtain ⟨hold, heq⟩ := hreporters t' ht'
    rw [heq]
    exact h.stored t' hold
  obtain ⟨hold, heq⟩ := hreporters t' ht'
  rw [heq]
  exact h.kept t' hold

end

end Stores

/-! ### Runs -/

/-- The dead targets are those that are confirmed, and `onDead` was called once for each. -/
structure Tracks (c : Config) (calls : List Call) (d : Detector) : Prop where
  stores : Stores c calls d
  dead_iff : ∀ t, t ∈ d.dead ↔ c.Confirmed calls t
  nodup : d.fired.Nodup
  mem_fired : ∀ t, t ∈ d.fired ↔ t ∈ d.dead

theorem tracks_new (c : Config) : Tracks c [] .new where
  stores := ⟨fun _ _ _ _ hlookup => (by cases hlookup), fun _ _ _ _ _ _ hlatest => (by cases hlatest)⟩
  dead_iff t := by
    refine ⟨fun hmem => absurd hmem (notMem_empty t), ?_⟩
    rintro ⟨before, _, _, _, after, heq, _⟩
    simp at heq
  nodup := nodup_nil
  mem_fired t := by simp [Detector.new, notMem_empty]

namespace Tracks

section

variable (h : Tracks c calls d)

include h

theorem keep (hstores : Stores c calls' d')
    (hconfirmed : ∀ t, c.Confirmed calls' t ↔ c.Confirmed calls t) (hdead : d'.dead = d.dead)
    (hfired : d'.fired = d.fired) : Tracks c calls' d' where
  stores := hstores
  dead_iff t := by rw [hdead, h.dead_iff, hconfirmed]
  nodup := hfired ▸ h.nodup
  mem_fired t := by rw [hfired, hdead, h.mem_fired]

theorem promote (hstores : Stores c calls' d')
    (hconfirmed : ∀ t', c.Confirmed calls' t' ↔ c.Confirmed calls t' ∨ t = t') (ht : t ∉ d.dead)
    (hdead : d'.dead = d.dead) (hfired : d'.fired = d.fired) : Tracks c calls' (d'.promote t) := by
  have hmem : ∀ t', t' ∈ (d'.promote t).dead ↔ t' = t ∨ t' ∈ d.dead := by
    intro t'
    rw [Detector.promote, if_neg (hdead ▸ ht), mem_insert, hdead]
  have hfired : (d'.promote t).fired = d.fired ++ [t] := by
    rw [Detector.promote, if_neg (hdead ▸ ht), hfired]
  have hnew : t ∉ d.fired := mt (h.mem_fired t).mp ht
  refine ⟨hstores.promote (hdead ▸ ht), fun t' => ?_, ?_, fun t' => ?_⟩
  · rw [hmem, h.dead_iff, hconfirmed, or_comm, eq_comm]
  · rw [hfired]
    exact nodup_append.mpr ⟨h.nodup, nodup_singleton t, by grind⟩
  · rw [hfired, hmem, mem_append, mem_singleton, h.mem_fired, or_comm]

theorem same (hlatest : ∀ t ∉ d.dead, ∀ r, r ∈ c.members → t ∈ c.members →
      latest (calls ++ [call]) r t = latest calls r t)
    (hconfirms : ∀ t, c.Confirms calls t call → t ∈ d.dead) : Tracks c (calls ++ [call]) d := by
  refine h.keep (h.stores.append hlatest) (fun t => ?_) rfl rfl
  rw [Config.confirmed_append, ← h.dead_iff]
  exact or_iff_left_of_imp (hconfirms t)

theorem query (hquery : call.isQuery) : Tracks c (calls ++ [call]) d := by
  refine h.same (fun t _ r _ _ => ?_) fun t hconfirms => ?_
  · rw [latest_append, call.latest_of_isQuery hquery]
  · exact absurd hconfirms (Config.not_confirms_of_isQuery hquery)

theorem look (target : NodeID) (hquery : call.isQuery)
    (hreading : reading ∈ call.readings) (hrange : c.InRange reading) :
    Tracks c (calls ++ [call]) (c.liveReporterCount d target reading).1 := by
  obtain ⟨hdead, hfired, _, _⟩ := liveReporterCount_spec c d target reading
  have hmem : reading ∈ readings (calls ++ [call]) := by
    rw [readings_append]
    exact mem_append_right _ hreading
  have hasked := h.query hquery
  exact hasked.keep (hasked.stores.look target hmem hrange) (fun _ => Iff.rfl) hdead hfired

theorem state (target : NodeID) (reading : Int64) (hrange : c.InRange reading) :
    Tracks c (calls ++ [.state target reading]) (c.state d target reading).1 := by
  rw [state_eq]
  split
  · exact h.query rfl
  · exact h.look target rfl mem_cons_self hrange

theorem reporterCount (target : NodeID) (reading : Int64) (hrange : c.InRange reading) :
    Tracks c (calls ++ [.reporterCount target reading]) (c.reporterCount d target reading).1 := by
  unfold Config.reporterCount
  split
  · exact h.query rfl
  · exact h.look target rfl mem_cons_self hrange

theorem ignored {action : Option Int64} (hlatest : ∀ r' t', latest (calls ++ [call]) r' t' =
      if r = r' ∧ t = t' then action else latest calls r' t')
    (hcall : ∀ t', c.Confirms calls t' call → r ∈ c.members ∧ t ∈ c.members ∧ t = t')
    (hignored : (r ∉ c.members ∨ t ∉ c.members) ∨ t ∈ d.dead) : Tracks c (calls ++ [call]) d := by
  refine h.same (fun t' ht' r' hr' htm' => ?_) fun t' hconfirms => ?_
  · rw [hlatest, if_neg]
    rintro ⟨rfl, rfl⟩
    exact hignored.elim (fun hmembers => hmembers.elim (· hr') (· htm')) ht'
  · obtain ⟨hr, ht, rfl⟩ := hcall t' hconfirms
    exact hignored.resolve_left (by simp [hr, ht])

theorem clear (r t : NodeID) : Tracks c (calls ++ [.clear r t]) (c.clearPFAIL d r t).2 := by
  have hconfirms : ∀ t', ¬ c.Confirms calls t' (.clear r t) := by
    rintro t' ⟨_, _, _, heq, _⟩
    cases heq
  have hlatest : ∀ r' t', latest (calls ++ [.clear r t]) r' t' =
      if r = r' ∧ t = t' then none else latest calls r' t' := fun r' t' => latest_append ..
  by_cases hignored : (r ∉ c.members ∨ t ∉ c.members) ∨ t ∈ d.dead
  · have hsame : (c.clearPFAIL d r t).2 = d := by
      unfold Config.clearPFAIL
      rcases hignored with hmembers | hdead
      · rw [if_pos hmembers]
      · split <;> rfl
    rw [hsame]
    exact h.ignored hlatest (fun t' ht' => absurd ht' (hconfirms t')) hignored
  obtain ⟨⟨hr, ht⟩, hdead⟩ : (r ∈ c.members ∧ t ∈ c.members) ∧ t ∉ d.dead := by
    simpa using hignored
  obtain ⟨hdead', hfired', hlookup⟩ := clearPFAIL_spec hr ht hdead
  refine h.keep (h.stores.update ht hr hdead' hlatest hlookup) (fun t' => ?_) hdead' hfired'
  rw [Config.confirmed_append, or_iff_left (hconfirms t')]

theorem report (r t : NodeID) (reading reading' : Int64)
    (hlast : ∀ x ∈ readings (calls ++ [.report r t reading reading']), x ≤ reading')
    (hrange : c.InRange reading') : Tracks c (calls ++ [.report r t reading reading'])
      (c.reportPFAIL d r t reading reading').2 := by
  have hconfirms : ∀ t', c.Confirms calls t' (.report r t reading reading') ↔
      r ∈ c.members ∧ t ∈ c.members ∧ t = t' ∧ c.quorum ≤
        (c.liveReporters (calls ++ [.report r t reading reading']) t reading').length := by
    intro t'
    constructor
    · rintro ⟨_, _, _, heq, hr, ht, hquorum⟩
      cases heq
      exact ⟨hr, ht, rfl, hquorum⟩
    · rintro ⟨hr, ht, rfl, hquorum⟩
      exact ⟨r, reading, reading', rfl, hr, ht, hquorum⟩
  have hlatest : ∀ r' t', latest (calls ++ [.report r t reading reading']) r' t' =
      if r = r' ∧ t = t' then some reading else latest calls r' t' := fun r' t' => latest_append ..
  have hreading : reading' ∈ readings (calls ++ [.report r t reading reading']) := by
    simp [readings_append, Call.readings]
  by_cases hignored : (r ∉ c.members ∨ t ∉ c.members) ∨ t ∈ d.dead
  · have hsame : (c.reportPFAIL d r t reading reading').2 = d := by
      unfold Config.reportPFAIL
      rcases hignored with hmembers | hdead
      · rw [if_pos hmembers]
      · split <;> rfl
    rw [hsame]
    refine h.ignored hlatest (fun t' ht' => ?_) hignored
    obtain ⟨hr, ht, heq, _⟩ := (hconfirms t').mp ht'
    exact ⟨hr, ht, heq⟩
  obtain ⟨⟨hr, ht⟩, hdead⟩ : (r ∈ c.members ∧ t ∈ c.members) ∧ t ∉ d.dead := by
    simpa using hignored
  have hrecorded : Stores c (calls ++ [.report r t reading reading'])
      (c.recorded d r t reading) :=
    h.stores.update ht hr rfl hlatest fun r' t' => lookup_recorded ..
  have hlooked := hrecorded.look t hreading hrange
  obtain ⟨hdead', hfired', _, hcount⟩ :=
    liveReporterCount_spec c (c.recorded d r t reading) t reading'
  rw [hrecorded.len_pruned (t := t) hdead hlast hrange, if_pos ht] at hcount
  rw [reportPFAIL_eq hr ht hdead, hcount]
  generalize (c.liveReporterCount (c.recorded d r t reading) t reading').1 = d' at *
  split_ifs with hquorum
  · refine h.promote hlooked (fun t' => ?_) hdead hdead' hfired'
    rw [Config.confirmed_append, hconfirms]
    simp only [hr, ht, hquorum, true_and, and_true]
  · refine h.keep hlooked (fun t' => ?_) hdead' hfired'
    rw [Config.confirmed_append, or_iff_left fun hall => hquorum ((hconfirms t').mp hall).2.2.2]

theorem step (call : Call) (hordered : (readings (calls ++ [call])).Pairwise (· ≤ ·))
    (hrange : ∀ x ∈ readings (calls ++ [call]), c.InRange x) :
    Tracks c (calls ++ [call]) (c.step d call) := by
  cases call with
  | clear r t => exact h.clear r t
  | state target reading =>
    exact h.state target reading (hrange reading (by simp [readings_append, Call.readings]))
  | reporterCount target reading =>
    exact h.reporterCount target reading (hrange reading (by simp [readings_append, Call.readings]))
  | report r t reading reading' =>
    refine h.report r t reading reading' (fun x hx => ?_)
      (hrange reading' (by simp [readings_append, Call.readings]))
    have hsplit : readings (calls ++ [.report r t reading reading']) =
        (readings calls ++ [reading]) ++ [reading'] := by
      simp [readings_append, Call.readings]
    rw [hsplit] at hordered hx
    rcases mem_append.mp hx with hx | hx
    · exact (pairwise_append.mp hordered).2.2 x hx reading' (mem_singleton_self _)
    · rw [mem_singleton.mp hx]
      exact Int64.le_refl _

end

theorem run (c : Config) (calls : List Call) (hordered : (readings calls).Pairwise (· ≤ ·))
    (hrange : ∀ x ∈ readings calls, c.InRange x) : Tracks c calls (c.run calls) := by
  induction calls using List.reverseRecOn with
  | nil => exact tracks_new c
  | append_singleton calls call ih =>
    have hsub : (readings calls).Sublist (readings (calls ++ [call])) := by
      rw [readings_append]
      exact sublist_append_left ..
    have hbefore := ih (hordered.sublist hsub) fun x hx => hrange x (hsub.subset hx)
    have hrun : c.run (calls ++ [call]) = c.step (c.run calls) call := foldl_append ..
    rw [hrun]
    exact hbefore.step call hordered hrange

theorem count_eq (h : Tracks c calls d) (ht : t ∉ d.dead)
    (hlast : ∀ x ∈ readings calls, x ≤ reading) (hrange : c.InRange reading) :
    (c.liveReporterCount d t reading).2 =
      if t ∈ c.members then (c.liveReporters calls t reading).length else 0 := by
  rw [(liveReporterCount_spec c d t reading).2.2.2, h.stores.len_pruned ht hlast hrange]

theorem verdicts_eq (h : Tracks c calls d)
    (h' : Tracks c calls' d') (hconfirmed : c.Confirmed calls t ↔ c.Confirmed calls' t)
    (hlive : c.liveReporters calls t reading = c.liveReporters calls' t reading)
    (hlast : ∀ x ∈ readings calls, x ≤ reading) (hlast' : ∀ x ∈ readings calls', x ≤ reading)
    (hrange : c.InRange reading) : (c.state d t reading).2 = (c.state d' t reading).2 ∧
      (c.reporterCount d t reading).2 = (c.reporterCount d' t reading).2 := by
  rw [← h.dead_iff, ← h'.dead_iff] at hconfirmed
  rw [state_eq, state_eq, Config.reporterCount, Config.reporterCount]
  by_cases hdead : t ∈ d.dead
  · rw [if_pos hdead, if_pos (hconfirmed.mp hdead), if_pos hdead, if_pos (hconfirmed.mp hdead)]
    exact ⟨rfl, rfl⟩
  have hdead' := mt hconfirmed.mpr hdead
  rw [if_neg hdead, if_neg hdead', if_neg hdead, if_neg hdead', h.count_eq hdead hlast hrange,
    h'.count_eq hdead' hlast' hrange, hlive]
  exact ⟨rfl, rfl⟩

end Tracks

theorem state_eq_dead_iff : (c.state d t reading).2 = .dead ↔ t ∈ d.dead := by
  rw [state_eq]
  split
  · next hdead => simp [hdead]
  · next hdead =>
    simp only [hdead, iff_false]
    split <;> simp

theorem mem_foldl_insert (members : List NodeID) (set : GoMap NodeID Unit) (m : NodeID) :
    m ∈ members.foldl (fun set m => set.insert m ()) set ↔ m ∈ members ∨ m ∈ set := by
  induction members generalizing set with
  | nil => simp
  | cons k members ih =>
    rw [foldl_cons, ih, mem_insert, mem_cons]
    tauto

theorem quorum_newConfig {members : List NodeID} {clock : Bool} {ttl : Int64}
    (h : newConfig members clock ttl = .ok c) :
    c.quorum = c.members.len / 2 + 1 ∧ ∀ m, m ∈ c.members ↔ m ∈ members := by
  unfold newConfig at h
  dsimp only at h
  split at h
  · cases h
  cases h
  refine ⟨rfl, fun m => ?_⟩
  exact (mem_foldl_insert members ∅ m).trans (or_iff_left (notMem_empty m))

/-- Failure confirmation is a live quorum, for a clock that does not go back or too low. -/
theorem dead_iff_live_quorum (members : List NodeID) (clock : Bool) (ttl : Int64) (c : Config)
    (hnew : newConfig members clock ttl = .ok c) (calls : List Call)
    (hordered : (readings calls).Pairwise (· ≤ ·)) (hrange : ∀ x ∈ readings calls, c.InRange x)
    (t : NodeID) : (c.quorum = c.members.len / 2 + 1 ∧ ∀ m, m ∈ c.members ↔ m ∈ members) ∧
      (∀ x, (c.state (c.run calls) t x).2 = .dead ↔ c.Confirmed calls t) ∧
      (c.Confirmed calls t → (c.run calls).fired.count t = 1) ∧
      (¬ c.Confirmed calls t → (c.run calls).fired.count t = 0) ∧
      ∀ x, (∀ y ∈ readings calls, y ≤ x) → c.InRange x → (c.state (c.run calls) t x).2 =
            (c.state (c.run (calls.filter fun call => !call.isQuery)) t x).2 ∧
          (c.reporterCount (c.run calls) t x).2 =
            (c.reporterCount (c.run (calls.filter fun call => !call.isQuery)) t x).2 := by
  have h := Tracks.run c calls hordered hrange
  have hsub : (readings (calls.filter fun call => !call.isQuery)).Sublist (readings calls) :=
    List.Sublist.flatMap filter_sublist _
  have h' := Tracks.run c (calls.filter fun call => !call.isQuery) (hordered.sublist hsub)
    fun x hx => hrange x (hsub.subset hx)
  refine ⟨quorum_newConfig hnew, fun x => ?_, fun hconfirmed => ?_, fun hconfirmed => ?_,
    fun x hlast hx => ?_⟩
  · rw [state_eq_dead_iff, h.dead_iff]
  · rw [← h.dead_iff, ← h.mem_fired] at hconfirmed
    exact count_eq_one_of_mem h.nodup hconfirmed
  · rw [← h.dead_iff, ← h.mem_fired] at hconfirmed
    exact count_eq_zero.mpr hconfirmed
  · exact h.verdicts_eq h' Config.confirmed_filter.symm (by simp only [Config.liveReporters, latest_filter]) hlast
      (fun y hy => hlast y (hsub.subset hy)) hx

/-- Two of three members report the third. -/
theorem confirmed_by_two_of_three :
    let calls : List Call := [.report [97] [99] 0 1, .state [99] 5, .report [98] [99] 6 7]
    ∃ c, newConfig [[97], [98], [99]] true 10 = .ok c ∧ (readings calls).Pairwise (· ≤ ·) ∧
      (∀ x ∈ readings calls, c.InRange x) ∧ c.Confirmed calls [99] ∧
      (c.state (c.run calls) [99] 7).2 = .dead ∧ (c.run calls).fired.count [99] = 1 := by
  intro calls
  have hordered : (readings calls).Pairwise (· ≤ ·) := by decide
  have hpos : ∀ x ∈ readings calls, 0 ≤ x := by simp [calls, readings, Call.readings]
  have hquorum : ∃ c, newConfig [[97], [98], [99]] true 10 = .ok c ∧
      (∀ x ∈ readings calls, c.InRange x) ∧ c.Confirmed calls [99] :=
    ⟨_, rfl, fun x hx _ => by
        have : 0 ≤ x.toInt := Int64.le_iff_toInt_le.mp (hpos x hx)
        show -2 ^ 63 ≤ x.toInt - 10
        omega,
      [.report [97] [99] 0 1, .state [99] 5], [98], 6, 7, [], rfl, by decide, by decide, by decide⟩
  obtain ⟨c, hnew, hrange, hconfirmed⟩ := hquorum
  obtain ⟨_, hdead, hfired, _⟩ :=
    dead_iff_live_quorum [[97], [98], [99]] true 10 c hnew calls hordered hrange [99]
  exact ⟨c, hnew, hordered, hrange, hconfirmed, (hdead 7).mpr hconfirmed, hfired hconfirmed⟩

/-- With a TTL of zero a report still counts. With the largest TTL and a clock at -2, a new one does
not. -/
theorem ttl_zero_and_overflow :
    ((newConfig [[97]] true 0).map fun c =>
        let calls : List Call := [.report [97] [97] 5 5]
        ((c.state (c.run calls) [97] 5).2,
          c.members.keys.filter fun r =>
            (latest calls r [97]).any fun tick => 5 - tick.toInt < c.ttl.toInt)) =
      .ok (.dead, []) ∧
    ((newConfig [[97]] true Int64.maxValue).map fun c =>
        let calls : List Call := [.report [97] [97] (-2) (-2)]
        ((c.state (c.run calls) [97] (-2)).2,
          c.members.keys.filter fun r =>
            (latest calls r [97]).any fun tick => -2 - tick.toInt < c.ttl.toInt)) =
      .ok (.alive, [[97]]) := by
  exact ⟨rfl, rfl⟩

end HelixCluster.FailConfirm
