import HelixCluster.Discovery.Registry
import HelixCluster.Lib.Runs

/-!
# Exact lookups

A `Directory` is a map from a service and an ID to an instance. The registry answers as the
directory does exactly if no registered name has a `/` (`lookup_exact_iff`).
-/

namespace HelixCluster.Discovery

open Option List

/-! ### The directory -/

/-- The instances by service and ID. -/
abbrev Directory := Str → Str → Option Instance

/-- No more time than the `TTL` has passed, if there is one. -/
def Instance.Live (inst : Instance) (now : ℤ) : Prop := inst.ttl.toInt ≤ 0 ∨ now - inst.lastSeen ≤ inst.ttl.toInt

instance (inst : Instance) (now : ℤ) : Decidable (inst.Live now) :=
  inferInstanceAs (Decidable (inst.ttl.toInt ≤ 0 ∨ now - inst.lastSeen ≤ inst.ttl.toInt))

namespace Directory

/-- The entry of a service and an ID is replaced. -/
def set (d : Directory) (service id : Str) (value : Option Instance) : Directory :=
  fun s i => if s = service ∧ i = id then value else d s i

/-- The instance is seen now, and a `TTL` of zero is the default. -/
def register (d : Directory) (now : ℤ) (inst : Instance) : Directory :=
  d.set inst.service inst.id
    (some { inst with healthy := true, lastSeen := now, ttl := if inst.ttl = 0 then defaultTTL else inst.ttl })

/-- An instance that is there is seen now. -/
def renew (d : Directory) (now : ℤ) (service id : Str) : Directory :=
  d.set service id ((d service id).map fun inst => { inst with healthy := true, lastSeen := now })

def deregister (d : Directory) (service id : Str) : Directory := d.set service id none

/-- Only live instances stay. -/
def sweep (d : Directory) (now : ℤ) : Directory := fun s i => (d s i).filter fun inst => inst.Live now

end Directory

/-! ### Runs -/

/-- The calls, and the passing of time. -/
inductive Event where
  | register (inst : Instance)
  | renew (service id : Str)
  | deregister (service id : Str)
  | sweepExpired (order : RangeOrder)
  | advance (duration : ℕ)

/-- The registry, the clock, and the directory that the registry stands for. -/
structure Session where
  registry : ServiceRegistry
  now : ℤ
  directory : Directory

namespace Session

def step (w : Session) : Event → Session
  | .register inst =>
    { w with
      registry := (w.registry.register w.now (some inst)).1
      directory := w.directory.register w.now inst }
  | .renew service id =>
    { w with
      registry := (w.registry.renew w.now service id).1
      directory := w.directory.renew w.now service id }
  | .deregister service id =>
    { w with
      registry := (w.registry.deregister service id).1
      directory := w.directory.deregister service id }
  | .sweepExpired order =>
    { w with
      registry := w.registry.sweepExpired order w.now
      directory := w.directory.sweep w.now }
  | .advance duration => { w with now := w.now + duration }

def start (now : ℤ) : Session := ⟨newStaticRegistry, now, fun _ _ => none⟩

/-- The names are not empty, `LastSeen` is left to the registry, and the clock does not pass the end
of a `TTL` that is the longest `Duration`, where `Time.Sub` saturates. -/
def Regular (w : Session) : Event → Prop
  | .register inst => inst.id ≠ [] ∧ inst.service ≠ [] ∧ inst.lastSeen = 0
  | .advance duration => ∀ service id inst, w.directory service id = some inst →
      inst.ttl = Int64.maxValue → inst.Live (w.now + duration)
  | _ => True

/-- The names that are registered have no `/`. -/
def Plain : Event → Prop
  | .register inst => slash ∉ inst.service ∧ slash ∉ inst.id
  | _ => True

/-- A lookup returns the live instances of the service, each once. -/
def Exact (w : Session) : Prop :=
  ∀ (service : Str) (order : RangeOrder), (w.registry.lookup order w.now service).Nodup ∧
    ∀ inst, inst ∈ w.registry.lookup order w.now service ↔
      ∃ id, w.directory service id = some inst ∧ inst.Live w.now

end Session

/-! ### Keys -/

variable {service : Str}

theorem instanceKey_inj {id s i : Str} (hservice : slash ∉ service) (hid : slash ∉ id)
    (h : instanceKey s i = instanceKey service id) : s = service ∧ i = id := by
  by_cases hs : slash ∈ s
  · obtain ⟨a, b, rfl, ha⟩ := eq_append_cons_of_mem hs
    rw [instanceKey, append_assoc, cons_append] at h
    obtain ⟨-, rfl⟩ := append_separator_inj ha hservice h
    exact absurd (mem_append_right b mem_cons_self) hid
  · exact append_separator_inj hs hservice h

theorem starts_key_iff {id s : Str} (hservice : slash ∉ service) (hid : slash ∉ id) :
    s ++ [slash] <+: instanceKey service id ↔ s = service := by
  constructor
  · rintro ⟨rest, hrest⟩
    rw [append_assoc, singleton_append] at hrest
    exact (instanceKey_inj hservice hid hrest).1
  · rintro rfl
    exact ⟨id, by rw [append_assoc, singleton_append, instanceKey]⟩

theorem starts_key_iff_of_services {id s : Str} (hservice : slash ∉ service) (hs : slash ∉ s) :
    s ++ [slash] <+: instanceKey service id ↔ s = service := by
  constructor
  · rintro ⟨rest, hrest⟩
    rw [append_assoc, singleton_append] at hrest
    exact (append_separator_inj hs hservice hrest).1
  · rintro rfl
    exact ⟨id, by rw [append_assoc, singleton_append, instanceKey]⟩

theorem exists_other_service {id : Str} (h : ¬(slash ∉ service ∧ slash ∉ id)) :
    ∃ s, s ≠ service ∧ s ++ [slash] <+: instanceKey service id := by
  by_cases hservice : slash ∈ service
  · obtain ⟨a, b, rfl, ha⟩ := eq_append_cons_of_mem hservice
    refine ⟨a, fun heq => ha (heq ▸ mem_append_right a mem_cons_self), b ++ slash :: id, ?_⟩
    simp [instanceKey]
  have hid : slash ∈ id := by
    by_contra hid
    exact h ⟨hservice, hid⟩
  obtain ⟨a, b, rfl, -⟩ := eq_append_cons_of_mem hid
  refine ⟨service ++ slash :: a, fun heq => ?_, b, ?_⟩
  · have hmem : slash ∈ service ++ slash :: a := mem_append_right service mem_cons_self
    exact hservice (heq ▸ hmem)
  · simp [instanceKey]

/-! ### Times -/

variable {inst : Instance}

theorem expired_iff {now : ℤ} (hseen : inst.lastSeen ≤ now)
    (httl : inst.ttl = Int64.maxValue → inst.Live now) :
    inst.expired now = true ↔ ¬inst.Live now := by
  have hmax : inst.ttl.toInt = 2 ^ 63 - 1 → inst.Live now :=
    fun h => httl (Int64.toInt_inj.mp (h.trans (by decide)))
  have hlt := inst.ttl.toInt_lt
  unfold Instance.Live at hmax
  rw [Instance.expired, decide_eq_true_iff, Int64.lt_iff_toInt_lt, Int64.lt_iff_toInt_lt, Int64.toInt_zero,
    toInt_timeSub hseen, Instance.Live]
  omega

theorem Instance.live_seen {now : ℤ} (h : inst.lastSeen = now) : inst.Live now := by
  unfold Live
  omega

namespace Session

variable {w : Session}

/-- The instance is stored under its own names, which have no `/`, and was seen in the past. -/
structure Proper (now : ℤ) (key : Str) (inst : Instance) : Prop where
  key_eq : key = instanceKey inst.service inst.id
  service : slash ∉ inst.service
  id : slash ∉ inst.id
  healthy : inst.healthy = true
  seen : 0 < inst.lastSeen
  past : inst.lastSeen ≤ now
  ttl : inst.ttl = Int64.maxValue → inst.Live now

/-- Cache and backend are the directory with joined keys. -/
structure Linked (w : Session) : Prop where
  stored : ∀ service id, w.registry.backend.data.lookup (instanceKey service id) = w.directory service id
  cached : ∀ key, w.registry.instances.lookup key = w.registry.backend.data.lookup key
  proper : ∀ key inst, w.registry.backend.data.lookup key = some inst → Proper w.now key inst
  clock : 0 < w.now

theorem mem_lookup_iff {r : ServiceRegistry} {order : RangeOrder} {now : ℤ} :
    inst ∈ r.lookup order now service ↔
      (∃ key, r.backend.data.lookup key = some inst ∧ service ++ [slash] <+: key) ∧ inst.healthy = true ∧
        ¬(0 < inst.ttl ∧ inst.lastSeen ≠ 0 ∧ inst.ttl < timeSub now inst.lastSeen) := by
  rw [ServiceRegistry.lookup, mem_filter, mem_list_iff, decide_eq_true_iff]

theorem Proper.passes_iff {now : ℤ} {key : Str} (h : Proper now key inst) :
    ¬(0 < inst.ttl ∧ inst.lastSeen ≠ 0 ∧ inst.ttl < timeSub now inst.lastSeen) ↔ inst.Live now := by
  have hset : inst.lastSeen ≠ 0 := h.seen.ne'
  rw [← not_not (a := inst.Live now), ← expired_iff h.past h.ttl, Instance.expired, decide_eq_true_iff]
  simp only [hset, ne_eq, not_false_iff, true_and]

section

variable (h : w.Linked)

include h

theorem Linked.mem_lookup {order : RangeOrder} : inst ∈ w.registry.lookup order w.now service ↔
      ∃ id, w.directory service id = some inst ∧ inst.Live w.now := by
  rw [mem_lookup_iff]
  constructor
  · rintro ⟨⟨key, hkey, hstart⟩, -, hpasses⟩
    have hproper := h.proper key inst hkey
    rw [hproper.key_eq, starts_key_iff hproper.service hproper.id] at hstart
    refine ⟨inst.id, ?_, hproper.passes_iff.mp hpasses⟩
    rw [← h.stored, hstart, ← hproper.key_eq]
    exact hkey
  rintro ⟨id, hid, hlive⟩
  rw [← h.stored] at hid
  have hproper := h.proper _ inst hid
  obtain ⟨rfl, rfl⟩ := instanceKey_inj hproper.service hproper.id hproper.key_eq
  refine ⟨⟨_, hid, ?_⟩, hproper.healthy, hproper.passes_iff.mpr hlive⟩
  exact (starts_key_iff hproper.service hproper.id).mpr rfl

theorem Linked.nodup_lookup (order : RangeOrder) (service : Str) :
    (w.registry.lookup order w.now service).Nodup := by
  have hentries : (order.run w.registry.backend.data.entries).Nodup :=
    (order.perm _).nodup_iff.mpr w.registry.backend.data.nodupKeys.nodup
  have hlookup : ∀ entry ∈ order.run w.registry.backend.data.entries,
      w.registry.backend.data.lookup entry.1 = some entry.2 :=
    fun entry hentry => AList.mem_lookup_iff.mpr ((order.perm _).mem_iff.mp hentry)
  refine (List.Nodup.map_on ?_ (hentries.filter _)).filter _
  intro e he e' he' hsame
  have hproper := h.proper _ _ (hlookup e (mem_filter.mp he).1)
  have hproper' := h.proper _ _ (hlookup e' (mem_filter.mp he').1)
  refine Sigma.ext ?_ (heq_of_eq hsame)
  rw [hproper.key_eq, hproper'.key_eq, hsame]

theorem Linked.exact : w.Exact :=
  fun service order => ⟨h.nodup_lookup order service, fun _ => h.mem_lookup⟩

/-! ### Steps -/

theorem Linked.proper_of_directory {id : Str}
    (hid : w.directory service id = some inst) : Proper w.now (instanceKey service id) inst :=
  h.proper _ inst ((h.stored service id).trans hid)

theorem Linked.own {id : Str} (hid : w.directory service id = some inst) :
    service = inst.service ∧ id = inst.id := by
  have hproper := h.proper_of_directory hid
  exact instanceKey_inj hproper.service hproper.id hproper.key_eq

theorem Linked.congr {r : ServiceRegistry} (hr : ∀ j, r.view j = w.registry.view j) :
    Linked ⟨r, w.now, w.directory⟩ where
  stored service id := (congrArg Prod.snd (hr _)).trans (h.stored service id)
  cached key := (congrArg Prod.fst (hr key)).trans ((h.cached key).trans (congrArg Prod.snd (hr key)).symm)
  proper key inst hkey := h.proper key inst ((congrArg Prod.snd (hr key)).symm.trans hkey)
  clock := h.clock

theorem Linked.write {id : Str} (hservice : slash ∉ service) (hid : slash ∉ id)
    {value : Option Instance} (hvalue : ∀ inst ∈ value, Proper w.now (instanceKey service id) inst)
    {r : ServiceRegistry}
    (hr : ∀ j, r.view j = if j = instanceKey service id then (value, value) else w.registry.view j) :
    Linked ⟨r, w.now, w.directory.set service id value⟩ := by
  have hcache : ∀ j, r.instances.lookup j =
      if j = instanceKey service id then value else w.registry.instances.lookup j := by
    intro j
    rw [show r.instances.lookup j = _ from congrArg Prod.fst (hr j)]
    split_ifs <;> rfl
  have hdata : ∀ j, r.backend.data.lookup j =
      if j = instanceKey service id then value else w.registry.backend.data.lookup j := by
    intro j
    rw [show r.backend.data.lookup j = _ from congrArg Prod.snd (hr j)]
    split_ifs <;> rfl
  constructor
  · intro s i
    show r.backend.data.lookup (instanceKey s i) = if s = service ∧ i = id then value else w.directory s i
    rw [hdata, h.stored]
    by_cases hkey : s = service ∧ i = id
    · obtain ⟨rfl, rfl⟩ := hkey
      rw [if_pos rfl, if_pos ⟨rfl, rfl⟩]
    · rw [if_neg fun heq => hkey (instanceKey_inj hservice hid heq), if_neg hkey]
  · intro key
    show r.instances.lookup key = r.backend.data.lookup key
    rw [hcache, hdata, h.cached]
  · intro key inst hkey
    replace hkey : r.backend.data.lookup key = some inst := hkey
    rw [hdata] at hkey
    split_ifs at hkey with hsame
    · subst hsame
      exact hvalue inst hkey
    · exact h.proper key inst hkey
  · exact h.clock

end

theorem directory_set_self (d : Directory) (service id : Str) : d.set service id (d service id) = d := by
  funext s i
  show (if s = service ∧ i = id then d service id else d s i) = d s i
  split_ifs with hsame
  · rw [hsame.1, hsame.2]
  · rfl

section

variable (h : w.Linked)

include h

theorem Linked.register (hregular : w.Regular (.register inst))
    (hplain : Plain (.register inst)) : (w.step (.register inst)).Linked := by
  obtain ⟨hid, hservice, hseen⟩ := hregular
  have hstamped : inst.stamped w.now =
      { inst with healthy := true, lastSeen := w.now, ttl := if inst.ttl = 0 then defaultTTL else inst.ttl } := by
    rw [Instance.stamped, if_pos hseen]
  refine h.write hplain.1 hplain.2 ?_ fun j => ?_
  · intro i hi
    cases hi
    exact ⟨rfl, hplain.1, hplain.2, rfl, h.clock, le_rfl, fun _ => Instance.live_seen rfl⟩
  · rw [← hstamped]
    exact w.registry.view_register w.now hid hservice j

theorem Linked.renew (service id : Str) : (w.step (.renew service id)).Linked := by
  have hview := w.registry.view_renew w.now service id
  have hcache : w.registry.instances.lookup (instanceKey service id) = w.directory service id :=
    (h.cached _).trans (h.stored service id)
  rw [hcache] at hview
  cases hdirectory : w.directory service id with
  | none =>
    rw [hdirectory] at hview
    have hsame : w.directory.renew w.now service id = w.directory := by
      rw [Directory.renew, hdirectory, map_none, ← hdirectory, directory_set_self]
    show Linked ⟨_, w.now, w.directory.renew w.now service id⟩
    rw [hsame]
    exact h.congr hview
  | some inst =>
    rw [hdirectory] at hview
    have hproper := h.proper_of_directory hdirectory
    obtain ⟨rfl, rfl⟩ := h.own hdirectory
    show Linked ⟨_, w.now, w.directory.set _ _ ((w.directory _ _).map _)⟩
    rw [hdirectory]
    refine h.write hproper.service hproper.id ?_ hview
    intro i hi
    cases hi
    exact ⟨rfl, hproper.service, hproper.id, rfl, h.clock, le_rfl, fun _ => Instance.live_seen rfl⟩

theorem Linked.deregister (service id : Str) : (w.step (.deregister service id)).Linked := by
  have hview := w.registry.view_deregister service id
  cases hdirectory : w.directory service id with
  | none =>
    have hsame : w.directory.deregister service id = w.directory := by
      rw [Directory.deregister, ← hdirectory, directory_set_self]
    show Linked ⟨_, w.now, w.directory.deregister service id⟩
    rw [hsame]
    refine h.congr fun j => (hview j).trans ?_
    split_ifs with hj
    · rw [hj, ServiceRegistry.view, h.cached, h.stored, hdirectory]
    · rfl
  | some inst =>
    have hproper := h.proper_of_directory hdirectory
    obtain ⟨rfl, rfl⟩ := h.own hdirectory
    exact h.write hproper.service hproper.id (fun i hi => absurd hi (not_mem_none i)) hview

theorem Linked.view_sweep (order : RangeOrder) (j : Str) :
    (w.registry.sweepExpired order w.now).view j =
      ((w.registry.backend.data.lookup j).filter fun inst => inst.Live w.now,
        (w.registry.backend.data.lookup j).filter fun inst => inst.Live w.now) := by
  rw [ServiceRegistry.view_sweepExpired, ServiceRegistry.view, h.cached]
  cases hlookup : w.registry.backend.data.lookup j with
  | none => rfl
  | some inst =>
    have hproper := h.proper j inst hlookup
    have hexpired := expired_iff hproper.past hproper.ttl
    by_cases hlive : inst.Live w.now
    · rw [any_some, if_neg fun hexp => hexpired.mp hexp hlive, filter_some,
        if_pos (decide_eq_true hlive)]
    · rw [any_some, if_pos (hexpired.mpr hlive), filter_some,
        if_neg (Bool.eq_false_iff.mp (decide_eq_false hlive))]

theorem Linked.sweep (order : RangeOrder) : (w.step (.sweepExpired order)).Linked := by
  have hview := h.view_sweep order
  constructor
  · intro service id
    refine (congrArg Prod.snd (hview (instanceKey service id))).trans ?_
    rw [h.stored]
    rfl
  · intro key
    exact (congrArg Prod.fst (hview key)).trans (congrArg Prod.snd (hview key)).symm
  · intro key inst hkey
    have hfilter := (congrArg Prod.snd (hview key)).symm.trans hkey
    exact h.proper key inst (eq_some_of_filter_eq_some hfilter)
  · exact h.clock

theorem Linked.advance {duration : ℕ} (hregular : w.Regular (.advance duration)) :
    (w.step (.advance duration)).Linked where
  stored := h.stored
  cached := h.cached
  proper key inst hkey := by
    have hproper := h.proper key inst hkey
    have hpast := hproper.past
    refine { hproper with past := ?_, ttl := ?_ }
    · show inst.lastSeen ≤ w.now + duration
      omega
    · refine hregular inst.service inst.id inst ?_
      rw [← h.stored, ← hproper.key_eq]
      exact hkey
  clock := by
    have hclock := h.clock
    show 0 < w.now + duration
    omega

end

theorem register_directory_of_ne (w : Session) {s : Str} (h : s ≠ inst.service) (i : Str) :
    (w.step (.register inst)).directory s i = w.directory s i :=
  if_neg fun heq => h heq.1

theorem Linked.plain_of_exact (h : w.Linked) (hregular : w.Regular (.register inst))
    (hexact : (w.step (.register inst)).Exact) : Plain (.register inst) := by
  by_contra hplain
  obtain ⟨hid, hservice, hseen⟩ := hregular
  obtain ⟨s, hne, hstart⟩ := exists_other_service hplain
  have hstored : (w.step (.register inst)).registry.backend.data.lookup (instanceKey inst.service inst.id) =
      some (inst.stamped w.now) := by
    have hview := w.registry.view_register w.now hid hservice (instanceKey inst.service inst.id)
    rw [if_pos rfl] at hview
    exact congrArg Prod.snd hview
  have hnow : (inst.stamped w.now).lastSeen = w.now := if_pos hseen
  have hfound : inst.stamped w.now ∈
      (w.step (.register inst)).registry.lookup ⟨id, fun _ => .rfl⟩ w.now s := by
    refine mem_lookup_iff.mpr ⟨⟨_, hstored, hstart⟩, rfl, ?_⟩
    rintro ⟨hpos, -, hexpired⟩
    rw [Int64.lt_iff_toInt_lt] at hpos hexpired
    rw [hnow, toInt_timeSub le_rfl] at hexpired
    have hzero : (0 : Int64).toInt = 0 := rfl
    omega
  obtain ⟨i, hi, -⟩ := ((hexact s ⟨id, fun _ => .rfl⟩).2 _).mp hfound
  have hother : w.directory s i = some (inst.stamped w.now) := by
    rw [← register_directory_of_ne w hne]
    exact hi
  exact hne (h.own hother).1

theorem Linked.step (h : w.Linked) (e : Event) (hregular : w.Regular e) (hplain : Plain e) :
    (w.step e).Linked := by
  cases e with
  | register inst => exact h.register hregular hplain
  | renew service id => exact h.renew service id
  | deregister service id => exact h.deregister service id
  | sweepExpired order => exact h.sweep order
  | advance duration => exact h.advance hregular

theorem Linked.exact_step_iff (h : w.Linked) (e : Event) (hregular : w.Regular e) :
    (w.step e).Exact ↔ Plain e := by
  constructor
  · intro hexact
    cases e with
    | register inst => exact h.plain_of_exact hregular hexact
    | _ => trivial
  · intro hplain
    exact (h.step e hregular hplain).exact

theorem linked_start {now : ℤ} (hnow : 0 < now) : (start now).Linked where
  stored _ _ := rfl
  cached _ := rfl
  proper _ _ hkey := absurd hkey.symm (some_ne_none _)
  clock := hnow

/-- The lookups are those of the directory exactly if no registered name has a `/`. -/
theorem lookup_exact_iff {now : ℤ} (hnow : 0 < now) (events : List Event)
    (hregular : Along step Regular (start now) events) :
    (∀ w ∈ states step (start now) events, w.Exact) ↔ ∀ e ∈ events, Plain e := by
  have hplain : Along step (fun _ e => Plain e) (start now) events ↔ _ := along_iff_forall
  rw [← hplain]
  exact forall_states_iff_within (I := Linked) (fun w e h hd hc => h.step e hd hc)
    (fun w e h hd => h.exact_step_iff e hd) (linked_start hnow) (linked_start hnow).exact hregular

/-- An instance with a `TTL` of 5 ns. -/
def shortLived (service id : Str) : Instance := ⟨id, service, [], 80, none, false, 0, 5, 1⟩

/-- The instance `c` of the service `a` is renewed and expires, and `d` has the longest `TTL`. -/
theorem shortLived_lookup_exact :
    ([.register (shortLived [97] [99]),
      .register { shortLived [97] [100] with ttl := Int64.maxValue }, .advance 3,
      .renew [97] [99], .advance 6, .sweepExpired ⟨id, fun _ => .rfl⟩].foldl step (start 1)).Exact := by
  refine (lookup_exact_iff (by decide) _ ?_).mpr ?_ _ (foldl_mem_states _ _)
  · refine ⟨⟨by decide, by decide, rfl⟩, ⟨by decide, by decide, rfl⟩, ?_, trivial, ?_, trivial,
      trivial⟩
    all_goals
      intro service id inst hinst
      simp only [step, start, Directory.register, Directory.renew, Directory.set] at hinst
      split_ifs at hinst <;> cases hinst <;> decide
  · simpa [Plain] using by decide

/-- The instance `c` of the service `a/b` is returned for the service `a`. -/
theorem shortLived_found_elsewhere :
    ¬∀ w ∈ states step (start 1) [.register (shortLived [97, 47, 98] [99])], w.Exact := by
  intro h
  have hlast := h _ (foldl_mem_states _ _) [97] ⟨id, fun _ => .rfl⟩
  obtain ⟨i, hi, -⟩ := (hlast.2 ((shortLived [97, 47, 98] [99]).stamped 1)).mp (by decide)
  have hne : ([97] : Str) ≠ (shortLived [97, 47, 98] [99]).service := by decide
  exact some_ne_none _ (hi.symm.trans (register_directory_of_ne (start 1) hne i))

end Session

end HelixCluster.Discovery
