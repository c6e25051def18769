import HelixCluster.Discovery.Selection
import HelixCluster.Lib.GoInt

/-!
# The service registry

`ServiceRegistry` of `pkg/discovery/package.go` over the in-memory backend.
-/

namespace HelixCluster.Discovery

open List

/-- The errors. -/
inductive DiscoveryError where
  | nilInstance
  | missingFields
  | instanceNotFound (key : Str)
  | noInstances
  deriving DecidableEq

/-- The byte `/`. -/
def slash : UInt8 := 47

def instanceKey (service id : Str) : Str := service ++ slash :: id

/-- The default for a `TTL` of zero: 30 s. -/
def defaultTTL : Int64 := 30000000000

/-! ### The backend -/

structure InMemoryBackend where
  data : GoMap Str Instance

/-- The calls that change the backend. -/
inductive BackendCall where
  | put (key : Str) (inst : Instance)
  | delete (key : Str)

def BackendCall.key : BackendCall → Str
  | put key _ => key
  | delete key => key

/-- `Put` and `Delete`. -/
def BackendCall.run (b : InMemoryBackend) : BackendCall → InMemoryBackend × Option DiscoveryError
  | put key inst => (⟨b.data.insert key inst⟩, none)
  | delete key => if key ∈ b.data then (⟨b.data.erase key⟩, none) else (b, some (.instanceNotFound key))

/-- An order of the entries of a map. -/
abbrev RangeOrder := Shuffle (Σ _ : Str, Instance)

def InMemoryBackend.list (b : InMemoryBackend) (order : RangeOrder) (start : Str) : List Instance :=
  ((order.run b.data.entries).filter fun entry => start.isPrefixOf entry.1).map Sigma.snd

/-! ### The registry -/

structure ServiceRegistry where
  instances : GoMap Str Instance
  backend : InMemoryBackend
  selector : WeightedSelector

def newStaticRegistry : ServiceRegistry := ⟨∅, ⟨∅⟩, newWeightedSelector⟩

/-- The test in `sweepExpiredLocked`. -/
def Instance.expired (inst : Instance) (now : ℤ) : Bool := 0 < inst.ttl ∧ inst.ttl < timeSub now inst.lastSeen

/-- The instance that `Register` puts in the cache. -/
def Instance.stamped (inst : Instance) (now : ℤ) : Instance :=
  { inst with
    healthy := true
    lastSeen := if inst.lastSeen = 0 then now else inst.lastSeen
    ttl := if inst.ttl = 0 then defaultTTL else inst.ttl }

/-- The instance that `Renew` leaves in the cache. -/
def Instance.renewed (inst : Instance) (now : ℤ) : Instance := { inst with healthy := true, lastSeen := now }

/-- The cache after a section under the mutex, and the call that is left to make. -/
abbrev Locked := Except DiscoveryError (GoMap Str Instance × BackendCall)

/-- `Register` up to the call to the backend. -/
def registerLocked (instances : GoMap Str Instance) (now : ℤ) : Option Instance → Locked
  | none => .error .nilInstance
  | some inst =>
    if inst.id = [] ∨ inst.service = [] then .error .missingFields
    else
      let key := instanceKey inst.service inst.id
      .ok (instances.insert key (inst.stamped now), .put key (inst.stamped now))

/-- `Deregister` up to the call to the backend. -/
def deregisterLocked (instances : GoMap Str Instance) (service id : Str) : Locked :=
  let key := instanceKey service id
  .ok (instances.erase key, .delete key)

/-- `Renew` up to the call to the backend. -/
def renewLocked (instances : GoMap Str Instance) (now : ℤ) (service id : Str) : Locked :=
  let key := instanceKey service id
  match instances.lookup key with
  | none => .error (.instanceNotFound key)
  | some inst => .ok (instances.insert key (inst.renewed now), .put key (inst.renewed now))

namespace ServiceRegistry

/-- The call to the backend after a section under the mutex. -/
def finish (r : ServiceRegistry) : Locked → ServiceRegistry × Option DiscoveryError
  | .error e => (r, some e)
  | .ok (instances, call) =>
    let result := call.run r.backend
    ({ r with instances, backend := result.1 }, result.2)

def register (r : ServiceRegistry) (now : ℤ) (inst : Option Instance) : ServiceRegistry × Option DiscoveryError :=
  r.finish (registerLocked r.instances now inst)

def deregister (r : ServiceRegistry) (service id : Str) : ServiceRegistry × Option DiscoveryError :=
  r.finish (deregisterLocked r.instances service id)

def renew (r : ServiceRegistry) (now : ℤ) (service id : Str) : ServiceRegistry × Option DiscoveryError :=
  r.finish (renewLocked r.instances now service id)

/-- The body of the loop in `sweepExpiredLocked`. -/
def sweepOne (now : ℤ) (r : ServiceRegistry) (entry : Σ _ : Str, Instance) : ServiceRegistry :=
  if entry.2.expired now then
    { r with
      backend := ((BackendCall.delete entry.1).run r.backend).1
      instances := r.instances.erase entry.1 }
  else r

def sweepExpired (r : ServiceRegistry) (order : RangeOrder) (now : ℤ) : ServiceRegistry :=
  (order.run r.instances.entries).foldl (sweepOne now) r

def lookup (r : ServiceRegistry) (order : RangeOrder) (now : ℤ) (service : Str) : List Instance :=
  (r.backend.list order (service ++ [slash])).filter fun inst =>
    inst.healthy ∧ ¬(0 < inst.ttl ∧ inst.lastSeen ≠ 0 ∧ inst.ttl < timeSub now inst.lastSeen)

end ServiceRegistry

/-! ### What the operations leave under a key -/

theorem lookup_run_put (b : InMemoryBackend) (key : Str) (inst : Instance) (j : Str) :
    ((BackendCall.put key inst).run b).1.data.lookup j = if j = key then some inst else b.data.lookup j :=
  GoMap.lookup_insert_if b.data key j inst

theorem lookup_run_delete (b : InMemoryBackend) (key j : Str) :
    ((BackendCall.delete key).run b).1.data.lookup j = if j = key then none else b.data.lookup j := by
  by_cases hkey : key ∈ b.data
  · rw [BackendCall.run, if_pos hkey]
    exact GoMap.lookup_erase_if b.data key j
  rw [BackendCall.run, if_neg hkey]
  split_ifs with hj
  · rw [hj]
    exact AList.lookup_eq_none.mpr hkey
  · rfl

theorem mem_list_iff {b : InMemoryBackend} {order : RangeOrder} {start : Str} {inst : Instance} :
    inst ∈ b.list order start ↔ ∃ key, b.data.lookup key = some inst ∧ start <+: key := by
  rw [InMemoryBackend.list, mem_map]
  constructor
  · rintro ⟨⟨key, value⟩, hmem, rfl⟩
    obtain ⟨hentry, hstart⟩ := mem_filter.mp hmem
    exact ⟨key, AList.mem_lookup_iff.mpr ((order.perm _).mem_iff.mp hentry), isPrefixOf_iff_prefix.mp hstart⟩
  rintro ⟨key, hlookup, hstart⟩
  refine ⟨⟨key, inst⟩, mem_filter.mpr ⟨?_, isPrefixOf_iff_prefix.mpr hstart⟩, rfl⟩
  exact (order.perm _).mem_iff.mpr (AList.mem_lookup_iff.mp hlookup)

namespace ServiceRegistry

/-- What the cache and the backend have under a key. -/
def view (r : ServiceRegistry) (key : Str) : Option Instance × Option Instance :=
  (r.instances.lookup key, r.backend.data.lookup key)

section

variable (r : ServiceRegistry)

theorem view_put (key : Str) (inst : Instance) (j : Str) :
    (r.finish (.ok (r.instances.insert key inst, .put key inst))).1.view j =
      if j = key then (some inst, some inst) else r.view j := by
  show ((r.instances.insert key inst).lookup j, ((BackendCall.put key inst).run r.backend).1.data.lookup j) = _
  rw [GoMap.lookup_insert_if, lookup_run_put]
  split_ifs <;> rfl

theorem view_renew (now : ℤ) (service id : Str) (j : Str) :
    (r.renew now service id).1.view j =
      (r.instances.lookup (instanceKey service id)).elim (r.view j) fun inst =>
        if j = instanceKey service id then (some (inst.renewed now), some (inst.renewed now)) else r.view j := by
  rw [renew, renewLocked]
  cases hlookup : r.instances.lookup (instanceKey service id) with
  | none => rfl
  | some inst => exact r.view_put (instanceKey service id) (inst.renewed now) j

theorem view_register (now : ℤ) {inst : Instance} (hid : inst.id ≠ [])
    (hservice : inst.service ≠ []) (j : Str) : (r.register now (some inst)).1.view j =
      if j = instanceKey inst.service inst.id then (some (inst.stamped now), some (inst.stamped now))
      else r.view j := by
  have hnames : ¬(inst.id = [] ∨ inst.service = []) := not_or.mpr ⟨hid, hservice⟩
  rw [register, registerLocked, if_neg hnames]
  exact r.view_put (instanceKey inst.service inst.id) (inst.stamped now) j

theorem view_deregister (service id j : Str) : (r.deregister service id).1.view j =
      if j = instanceKey service id then (none, none) else r.view j := by
  show ((r.instances.erase (instanceKey service id)).lookup j,
    ((BackendCall.delete (instanceKey service id)).run r.backend).1.data.lookup j) = _
  rw [GoMap.lookup_erase_if, lookup_run_delete]
  split_ifs <;> rfl

end

theorem view_sweepOne (now : ℤ) (r : ServiceRegistry) (entry : Σ _ : Str, Instance) (j : Str) :
    (r.sweepOne now entry).view j =
      if j = entry.1 ∧ entry.2.expired now = true then (none, none) else r.view j := by
  unfold sweepOne
  by_cases hexpired : entry.2.expired now = true
  · rw [if_pos hexpired, view, GoMap.lookup_erase_if, lookup_run_delete]
    by_cases hj : j = entry.1
    · rw [if_pos hj, if_pos hj, if_pos ⟨hj, hexpired⟩]
    · rw [if_neg hj, if_neg hj, if_neg fun h => hj h.1, view]
  · rw [if_neg hexpired, if_neg fun h => hexpired h.2]

variable {entries : List (Σ _ : Str, Instance)} {r : ServiceRegistry} {j : Str} {now : ℤ}

theorem view_foldl_of_expired
    (h : (∃ inst, ⟨j, inst⟩ ∈ entries ∧ inst.expired now = true) ∨ r.view j = (none, none)) :
    (entries.foldl (sweepOne now) r).view j = (none, none) := by
  induction entries generalizing r with
  | nil =>
    obtain ⟨_, hmem, _⟩ | hview := h
    · cases hmem
    · exact hview
  | cons entry entries ih =>
    refine ih ?_
    rw [view_sweepOne]
    by_cases hentry : j = entry.1 ∧ entry.2.expired now = true
    · exact .inr (if_pos hentry)
    rw [if_neg hentry]
    refine h.imp_left ?_
    rintro ⟨inst, hmem, hexpired⟩
    obtain rfl | hmem := mem_cons.mp hmem
    · exact absurd ⟨rfl, hexpired⟩ hentry
    · exact ⟨inst, hmem, hexpired⟩

theorem view_foldl_of_not_expired
    (h : ∀ inst, ⟨j, inst⟩ ∈ entries → inst.expired now = false) :
    (entries.foldl (sweepOne now) r).view j = r.view j := by
  induction entries generalizing r with
  | nil => rfl
  | cons entry entries ih =>
    rw [foldl_cons, ih fun inst hmem => h inst (mem_cons_of_mem entry hmem), view_sweepOne, if_neg]
    rintro ⟨rfl, hexpired⟩
    exact Bool.false_ne_true ((h entry.2 mem_cons_self).symm.trans hexpired)

theorem view_sweepExpired (r : ServiceRegistry) (order : RangeOrder) (now : ℤ) (j : Str) :
    (r.sweepExpired order now).view j =
      if (r.instances.lookup j).any (·.expired now) then (none, none) else r.view j := by
  have hmem : ∀ inst, ⟨j, inst⟩ ∈ order.run r.instances.entries ↔ r.instances.lookup j = some inst :=
    fun inst => (order.perm _).mem_iff.trans AList.mem_lookup_iff.symm
  split_ifs with hany
  · cases hlookup : r.instances.lookup j with
    | none =>
      rw [hlookup] at hany
      cases hany
    | some inst =>
      rw [hlookup] at hany
      exact view_foldl_of_expired (.inl ⟨inst, (hmem inst).mpr hlookup, hany⟩)
  refine view_foldl_of_not_expired fun inst hentry => ?_
  rw [(hmem inst).mp hentry] at hany
  exact Bool.eq_false_iff.mpr hany

end ServiceRegistry

end HelixCluster.Discovery
