import HelixCluster.Lib.GoMap

/-!
# The device registry

The `Registry` of `pkg/deviceplugin`. `ApplyFingerprint` takes a plugin's full set of devices and
prunes those that it no longer reports.
-/

namespace HelixCluster.DevicePlugin

open List

/-- `Health`: the operational state of a device, which is a text on the wire. -/
inductive Health where
  | healthUnknown
  | healthHealthy
  | healthUnhealthy
  | other (text : Str)
  deriving DecidableEq

/-- `Device`, with the fields that the registry reads. -/
structure Device where
  id : Str
  model : Str
  health : Health

/-- `Fingerprint`: all devices that a plugin manages. -/
structure Fingerprint where
  pluginName : Str
  devices : List Device

/-- `Resource`: one component of a request. -/
structure Resource where
  kind : Str
  model : Str
  count : ℤ
  quantity : Str

def Resource.isDeviceRequest (r : Resource) : Bool := r.model ≠ []

structure Allocation where
  request : Resource
  deviceIDs : List Str

/-- The errors of the registry, with the values that their texts name. -/
inductive Error where
  | emptyPluginName
  | emptyID (plugin : Str)
  | duplicateID (plugin id : Str)
  | unsupportedRequest (request : Resource)
  | nonPositiveCount (count : ℤ)
  | unknownModel (model : Str)
  | oversubscription (model : Str) (count : ℤ) (free : ℕ)

structure Registry where
  devices : GoMap Str Device
  allocated : GoMap Str Bool
  owner : GoMap Str Str

def newRegistry : Registry := ⟨∅, ∅, ∅⟩

/-- A byte as `equalModel` compares it. -/
def lower (c : UInt8) : UInt8 := if 65 ≤ c ∧ c ≤ 90 then c + 32 else c

def equalModel (a b : Str) : Bool := a.map lower = b.map lower

namespace Registry

/-! ### ApplyFingerprint -/

/-- The first loop of `ApplyFingerprint`: the IDs, if they are distinct and not empty. -/
def validate (plugin : Str) : GoMap Str Unit → List Device → Except Error (GoMap Str Unit)
  | seen, [] => .ok seen
  | seen, d :: ds =>
    if d.id = [] then .error (.emptyID plugin)
    else if d.id ∈ seen then .error (.duplicateID plugin d.id)
    else validate plugin (seen.insert d.id ()) ds

/-- Upserts a device that a plugin reports. -/
def upsert (plugin : Str) (r : Registry) (d : Device) : Registry :=
  { r with devices := r.devices.insert d.id d, owner := r.owner.insert d.id plugin }

/-- The devices of a plugin that it does not report. -/
def stale (r : Registry) (plugin : Str) (seen : GoMap Str Unit) : List Str :=
  (r.owner.entries.filter fun e => e.2 = plugin ∧ e.1 ∉ seen).map Sigma.fst

/-- Removes a device that has vanished. -/
def prune (r : Registry) (id : Str) : Registry :=
  ⟨r.devices.erase id, r.allocated.erase id, r.owner.erase id⟩

/-- What `ApplyFingerprint` does once the devices are validated, with the IDs it prunes. -/
def reconcile (r : Registry) (fp : Fingerprint) (seen : GoMap Str Unit) :
    Registry × List Str :=
  let r := fp.devices.foldl (upsert fp.pluginName) r
  let stale := r.stale fp.pluginName seen
  (stale.foldl prune r, stale)

/-- `ApplyFingerprint`, with the IDs it prunes. -/
def applyFingerprint (r : Registry) (fp : Fingerprint) : Except Error (Registry × List Str) :=
  if fp.pluginName = [] then .error .emptyPluginName
  else
    match validate fp.pluginName ∅ fp.devices with
    | .error e => .error e
    | .ok seen => .ok (r.reconcile fp seen)

/-! ### Allocate and Release -/

/-- `freeDeviceIDsLocked`. -/
def freeDeviceIDs (r : Registry) (model : Str) : List Str :=
  ((r.devices.entries.filter fun e =>
      equalModel e.2.model model ∧ e.2.health = .healthHealthy ∧ r.allocated.read e.1 false = false).map
    Sigma.fst).insertionSort (· ≤ ·)

/-- `modelKnownLocked`. -/
def modelKnown (r : Registry) (model : Str) : Bool :=
  r.devices.entries.any fun e => equalModel e.2.model model

def allocate (r : Registry) (req : Resource) : Except Error (Registry × Allocation) :=
  if !req.isDeviceRequest then .error (.unsupportedRequest req)
  else if req.count ≤ 0 then .error (.nonPositiveCount req.count)
  else if !r.modelKnown req.model then .error (.unknownModel req.model)
  else
    let free := r.freeDeviceIDs req.model
    if free.length < req.count then .error (.oversubscription req.model req.count free.length)
    else
      let chosen := free.take req.count.toNat
      .ok ({ r with allocated := chosen.foldl (fun m id => m.insert id true) r.allocated }, ⟨req, chosen⟩)

/-- The loop of `Release` for one ID. -/
def releaseOne (s : Registry × ℕ) (id : Str) : Registry × ℕ :=
  if s.1.allocated.read id false then
    ({ s.1 with allocated := s.1.allocated.erase id }, s.2 + 1)
  else s

def release (r : Registry) (ids : List Str) : Registry × ℕ := ids.foldl releaseOne (r, 0)

/-! ### What the calls do to the maps -/

/-- The device is marked as handed out. -/
def Marked (r : Registry) (id : Str) : Prop := r.allocated.read id false = true

variable {r : Registry} {id : Str}

theorem marked_prune (j : Str) : (r.prune j).Marked id ↔ id ≠ j ∧ r.Marked id := by
  rw [Marked, prune, GoMap.read_erase_if]
  split_ifs with heq
  · simp [heq]
  · simp [heq, Marked]

theorem reconcile_spec (r : Registry) (fp : Fingerprint) (seen : GoMap Str Unit) (id : Str)
    (hid : id ∉ (r.reconcile fp seen).2) : (id ∈ r.devices → id ∈ (r.reconcile fp seen).1.devices) ∧
    (r.Marked id → (r.reconcile fp seen).1.Marked id) := by
  have hupsert : ∀ (ds : List Device) (r : Registry),
      (id ∈ r.devices → id ∈ (ds.foldl (upsert fp.pluginName) r).devices) ∧
      (ds.foldl (upsert fp.pluginName) r).allocated = r.allocated := by
    intro ds
    induction ds with
    | nil => exact fun r => ⟨fun h => h, rfl⟩
    | cons d ds ih =>
      intro r
      obtain ⟨hdevices, hallocated⟩ := ih (r.upsert fp.pluginName d)
      exact ⟨fun h => hdevices ((AList.mem_insert _).mpr (.inr h)), hallocated⟩
  have hprune : ∀ (stale : List Str) (r : Registry), id ∉ stale →
      (id ∈ r.devices → id ∈ (stale.foldl prune r).devices) ∧
      (r.Marked id → (stale.foldl prune r).Marked id) := by
    intro stale
    induction stale with
    | nil => exact fun r _ => ⟨fun h => h, fun h => h⟩
    | cons j stale ih =>
      intro r hnot
      rw [mem_cons, not_or] at hnot
      obtain ⟨hne, hrest⟩ := hnot
      obtain ⟨hdevices, hmarked⟩ := ih (r.prune j) hrest
      exact ⟨fun h => hdevices ((AList.mem_erase).mpr ⟨hne, h⟩),
        fun h => hmarked ((marked_prune j).mpr ⟨hne, h⟩)⟩
  obtain ⟨hdevices, hallocated⟩ := hupsert fp.devices r
  obtain ⟨hkept, hmarked⟩ := hprune _ (fp.devices.foldl (upsert fp.pluginName) r) hid
  refine ⟨fun h => hkept (hdevices h), fun h => hmarked ?_⟩
  rw [Marked, hallocated]
  exact h

theorem of_allocate_ok {req : Resource} {r' : Registry} {alloc : Allocation}
    (h : r.allocate req = .ok (r', alloc)) :
    r'.devices = r.devices ∧ (∀ id ∈ alloc.deviceIDs, id ∈ r.devices ∧ ¬r.Marked id) ∧
    ∀ id, r'.Marked id ↔ id ∈ alloc.deviceIDs ∨ r.Marked id := by
  unfold allocate at h
  split at h
  · cases h
  split at h
  · cases h
  split at h
  · cases h
  dsimp only at h
  split at h
  · cases h
  cases h
  refine ⟨rfl, fun id hid => ?_, fun id => ?_⟩
  · have hfree := mem_of_mem_take hid
    rw [freeDeviceIDs, mem_insertionSort, mem_map] at hfree
    obtain ⟨e, he, rfl⟩ := hfree
    obtain ⟨hmem, hok⟩ := mem_filter.mp he
    have hok := of_decide_eq_true hok
    exact ⟨AList.mem_keys.mpr (mem_map_of_mem hmem), by simp [Marked, hok.2.2]⟩
  have hloop : ∀ (ids : List Str) (m : GoMap Str Bool),
      (ids.foldl (fun m id => m.insert id true) m).read id false = true ↔
        id ∈ ids ∨ m.read id false = true := by
    intro ids
    induction ids with
    | nil => simp
    | cons j ids ih =>
      intro m
      rw [foldl_cons, ih, GoMap.read_insert_if, mem_cons]
      by_cases heq : id = j
      · simp [heq]
      · simp [heq]
  exact hloop ..

theorem release_spec (r : Registry) (ids : List Str) : (r.release ids).1.devices = r.devices ∧
    ∀ id, (r.release ids).1.Marked id ↔ id ∉ ids ∧ r.Marked id := by
  have hone : ∀ (s : Registry × ℕ) (j id : Str), (releaseOne s j).1.devices = s.1.devices ∧
      ((releaseOne s j).1.Marked id ↔ id ≠ j ∧ s.1.Marked id) := by
    intro s j id
    unfold releaseOne
    split_ifs with hfree
    · refine ⟨rfl, ?_⟩
      rw [Marked, GoMap.read_erase_if]
      split_ifs with heq
      · simp [heq]
      · simp [heq, Marked]
    · refine ⟨rfl, fun h => ⟨?_, h⟩, fun h => h.2⟩
      rintro rfl
      exact hfree h
  have hloop : ∀ (ids : List Str) (s : Registry × ℕ),
      (ids.foldl releaseOne s).1.devices = s.1.devices ∧
      ∀ id, (ids.foldl releaseOne s).1.Marked id ↔ id ∉ ids ∧ s.1.Marked id := by
    intro ids
    induction ids with
    | nil => exact fun s => ⟨rfl, fun id => by simp⟩
    | cons j ids ih =>
      intro s
      obtain ⟨hdevices, hmarked⟩ := ih (releaseOne s j)
      refine ⟨hdevices.trans (hone s j []).1, fun id => ?_⟩
      rw [foldl_cons, hmarked, (hone s j id).2, mem_cons, not_or]
      tauto
  exact hloop ids (r, 0)

end Registry

end HelixCluster.DevicePlugin
