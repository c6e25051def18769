import HelixCluster.DevicePlugin.Registry
import HelixCluster.Lib.Runs

/-!
# Exclusive handout

A device is held until the holder releases it or a fingerprint prunes it.
-/

namespace HelixCluster.DevicePlugin

/-- An allocation: the devices it was given, and those that it still holds. -/
structure Holding where
  given : List Str
  held : List Str

/-- The devices are no longer held. -/
def Holding.lose (h : Holding) (ids : List Str) : Holding :=
  { h with held := h.held.filter fun id => id ∉ ids }

/-- A registry, and the allocations in the order in which they were made. -/
structure World where
  registry : Registry
  holdings : List Holding

/-- A call; a release is made by the holder of an allocation. -/
inductive Call where
  | applyFingerprint (fp : Fingerprint)
  | allocate (req : Resource)
  | release (holder : ℕ) (ids : List Str)

namespace World

def start : World := ⟨newRegistry, []⟩

def step (w : World) : Call → World
  | .applyFingerprint fp =>
    match w.registry.applyFingerprint fp with
    | .error _ => w
    | .ok (registry, pruned) => ⟨registry, w.holdings.map fun h => h.lose pruned⟩
  | .allocate req =>
    match w.registry.allocate req with
    | .error _ => w
    | .ok (registry, alloc) => ⟨registry, w.holdings ++ [⟨alloc.deviceIDs, alloc.deviceIDs⟩]⟩
  | .release holder ids =>
    ⟨(w.registry.release ids).1, w.holdings.modify holder fun h => h.lose ids⟩

/-- The devices that an allocation holds. -/
def heldBy (w : World) (holder : ℕ) : List Str := (w.holdings[holder]?).elim [] Holding.held

/-- The devices that an allocation was given. -/
def givenTo (w : World) (holder : ℕ) : List Str := (w.holdings[holder]?).elim [] Holding.given

/-- No device is held twice, and a device that is held is known and marked as handed out. -/
structure Exclusive (w : World) : Prop where
  apart : ∀ i j id, id ∈ w.heldBy i → id ∈ w.heldBy j → i = j
  known : ∀ i, ∀ id ∈ w.heldBy i, id ∈ w.registry.devices
  marked : ∀ i, ∀ id ∈ w.heldBy i, w.registry.Marked id

/-- Holders release only devices of their own allocation. -/
def OwnRelease (w : World) : Call → Prop
  | .release holder ids => ids ⊆ w.givenTo holder
  | _ => True

/-- No release names a device that another allocation holds. -/
def NotHeldByOther (w : World) : Call → Prop
  | .release holder ids => ∀ i, ∀ id ∈ ids, id ∈ w.heldBy i → i = holder
  | _ => True

variable {w : World} {i : ℕ} {id : Str}

/-! ### Who holds what after a call -/

variable {registry : Registry} {ids : List Str}

theorem mem_heldBy_lose :
    id ∈ heldBy ⟨registry, w.holdings.map fun h => h.lose ids⟩ i ↔ id ∈ w.heldBy i ∧ id ∉ ids := by
  rw [heldBy, heldBy, List.getElem?_map]
  cases w.holdings[i]? with
  | none => simp
  | some h => simp [Holding.lose]

theorem mem_heldBy_append {h : Holding} :
    id ∈ heldBy ⟨registry, w.holdings ++ [h]⟩ i ↔
      id ∈ w.heldBy i ∨ i = w.holdings.length ∧ id ∈ h.held := by
  rw [heldBy, heldBy]
  rcases Nat.lt_trichotomy i w.holdings.length with hlt | rfl | hgt
  · simp [List.getElem?_append_left hlt, hlt.ne]
  · simp
  have hout : (w.holdings ++ [h]).length ≤ i := by
    rw [List.length_append, List.length_singleton]
    omega
  simp [List.getElem?_eq_none hgt.le, List.getElem?_eq_none hout, hgt.ne']

theorem mem_heldBy_release {holder : ℕ} :
    id ∈ (w.step (.release holder ids)).heldBy i ↔ id ∈ w.heldBy i ∧ (i = holder → id ∉ ids) := by
  show id ∈ ((w.holdings.modify holder fun h => h.lose ids)[i]?).elim [] Holding.held ↔ _
  rw [heldBy, List.getElem?_modify]
  cases w.holdings[i]? with
  | none => simp
  | some h =>
    by_cases heq : holder = i
    · simp [heq, Holding.lose]
    · simp [heq, Ne.symm heq]

/-! ### Exclusive handout, call by call -/

theorem Exclusive.applyFingerprint (h : w.Exclusive) (fp : Fingerprint) :
    (w.step (.applyFingerprint fp)).Exclusive := by
  unfold step Registry.applyFingerprint
  dsimp only
  split
  · exact h
  · next registry pruned hok =>
    split at hok
    · cases hok
    split at hok
    · cases hok
    · next seen _ =>
      cases hok
      have hspec := w.registry.reconcile_spec fp seen
      refine ⟨fun i j id hi hj => ?_, fun i id hi => ?_, fun i id hi => ?_⟩
      · exact h.apart i j id (mem_heldBy_lose.mp hi).1 (mem_heldBy_lose.mp hj).1
      · obtain ⟨hheld, hkept⟩ := mem_heldBy_lose.mp hi
        exact (hspec id hkept).1 (h.known i id hheld)
      · obtain ⟨hheld, hkept⟩ := mem_heldBy_lose.mp hi
        exact (hspec id hkept).2 (h.marked i id hheld)

theorem Exclusive.allocate (h : w.Exclusive) (req : Resource) : (w.step (.allocate req)).Exclusive := by
  unfold step
  dsimp only
  split
  · exact h
  · next registry alloc hok =>
    obtain ⟨hdevices, hfree, hmarked⟩ := Registry.of_allocate_ok hok
    -- what is handed out was not marked, so nobody holds it
    have hnew : ∀ i id, id ∈ w.heldBy i → id ∉ alloc.deviceIDs := fun i id hheld hgiven =>
      (hfree id hgiven).2 (h.marked i id hheld)
    refine ⟨fun i j id hi hj => ?_, fun i id hi => ?_, fun i id hi => ?_⟩
    · rcases mem_heldBy_append.mp hi with hi | ⟨hlast, hi⟩
      · rcases mem_heldBy_append.mp hj with hj | ⟨-, hj⟩
        · exact h.apart i j id hi hj
        · exact absurd hj (hnew i id hi)
      · rcases mem_heldBy_append.mp hj with hj | ⟨hlast', -⟩
        · exact absurd hi (hnew j id hj)
        · exact hlast.trans hlast'.symm
    · show id ∈ registry.devices
      rw [hdevices]
      rcases mem_heldBy_append.mp hi with hi | ⟨-, hi⟩
      · exact h.known i id hi
      · exact (hfree id hi).1
    refine (hmarked id).mpr ?_
    rcases mem_heldBy_append.mp hi with hi | ⟨-, hi⟩
    · exact .inr (h.marked i id hi)
    · exact .inl hi

theorem exclusive_step_iff (h : w.Exclusive) (call : Call) :
    (w.step call).Exclusive ↔ w.NotHeldByOther call := by
  cases call with
  | applyFingerprint fp => exact iff_of_true (h.applyFingerprint fp) trivial
  | allocate req => exact iff_of_true (h.allocate req) trivial
  | release holder ids =>
    obtain ⟨hdevices, hmarked⟩ := w.registry.release_spec ids
    constructor
    · intro hnext i id hid hheld
      by_contra hne
      have hstill : id ∈ (w.step (.release holder ids)).heldBy i :=
        mem_heldBy_release.mpr ⟨hheld, fun heq => absurd heq hne⟩
      exact ((hmarked id).mp (hnext.marked i id hstill)).1 hid
    intro hother
    refine ⟨fun i j id hi hj => ?_, fun i id hi => ?_, fun i id hi => ?_⟩
    · exact h.apart i j id (mem_heldBy_release.mp hi).1 (mem_heldBy_release.mp hj).1
    · show id ∈ (w.registry.release ids).1.devices
      rw [hdevices]
      exact h.known i id (mem_heldBy_release.mp hi).1
    · obtain ⟨hheld, hkept⟩ := mem_heldBy_release.mp hi
      exact (hmarked id).mpr ⟨fun hid => hkept (hother i id hid hheld) hid, h.marked i id hheld⟩

theorem exclusive_start : start.Exclusive := by
  refine ⟨?_, ?_, ?_⟩ <;> simp [start, heldBy]

/-- No device is held twice exactly in the runs in which no release names a device of another
allocation. -/
theorem exclusive_iff_no_late_release (calls : List Call) :
    (∀ w ∈ states step start calls, w.Exclusive) ↔ Along step NotHeldByOther start calls := by
  have hstep : ∀ (w : World) (call : Call), w.Exclusive →
      ((w.step call).Exclusive ↔ w.NotHeldByOther call) := fun _ call h => exclusive_step_iff h call
  exact forall_states_iff_along (fun w call h hcall => (hstep w call h).mpr hcall) hstep
    exclusive_start exclusive_start calls

/-- A plugin with one healthy device. -/
def oneDevice : Call := .applyFingerprint ⟨[112], [⟨[100], [109], .healthHealthy⟩]⟩

/-- A request for one device of that model. -/
def oneWanted : Call := .allocate ⟨[103], [109], 1, []⟩

/-- The device of the first allocation comes back and is given away. The first holder releases it,
and a third gets it. -/
theorem late_release_shares_device :
    let calls := [oneDevice, oneWanted, .applyFingerprint ⟨[112], []⟩, oneDevice, oneWanted,
      .release 0 [[100]], oneWanted]
    Along step OwnRelease start calls ∧ [100] ∈ (calls.foldl step start).heldBy 1 ∧
      [100] ∈ (calls.foldl step start).heldBy 2 := by
  refine ⟨⟨trivial, trivial, trivial, trivial, trivial, ?_, trivial, trivial⟩, by decide, by decide⟩
  show [[100]] ⊆ _
  decide

end World

end HelixCluster.DevicePlugin
