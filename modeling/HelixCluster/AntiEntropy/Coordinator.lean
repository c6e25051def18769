import HelixCluster.Lib.Latest

/-!
# The anti-entropy coordinator

The replicas and the `Coordinator` of `pkg/antientropy/antientropy.go`: writes with hinted handoff,
replay of hints, and reads with read repair.
-/

namespace HelixCluster.AntiEntropy

open List

structure VersionedValue where
  value : Str
  version : UInt64
  deriving DecidableEq

namespace VersionedValue

def newer (v other : VersionedValue) : Bool :=
  if v.version ≠ other.version then v.version > other.version
  else v.value > other.value

/-- The version, then the value. -/
def rank (v : VersionedValue) : ℕ ×ₗ Str := toLex (v.version.toNat, v.value)

theorem rank_injective : Function.Injective rank := by
  intro v other h
  obtain ⟨hversion, hvalue⟩ := Prod.ext_iff.mp (toLex.injective h)
  obtain ⟨value, version⟩ := v
  obtain ⟨value', version'⟩ := other
  rw [VersionedValue.mk.injEq]
  exact ⟨hvalue, UInt64.toNat_inj.mp hversion⟩

/-- The order of `newer`. -/
instance versionedLinearOrder : LinearOrder VersionedValue := LinearOrder.lift' rank rank_injective

theorem newer_iff (v other : VersionedValue) : v.newer other = true ↔ other < v := by
  change _ ↔ other.rank < v.rank
  unfold newer rank
  rw [Prod.Lex.toLex_lt_toLex]
  have hversion : v.version = other.version ↔ other.version.toNat = v.version.toNat := by
    rw [UInt64.toNat_inj]
    exact eq_comm
  by_cases h : v.version = other.version
  · simp [h]
  · have hne := mt hversion.mpr h
    simp [h, hne, UInt64.lt_iff_toNat_lt]

end VersionedValue

structure Replica where
  id : Str
  up : Bool
  store : GoMap Str VersionedValue

def newReplica (id : Str) : Replica where
  id
  up := true
  store := ∅

namespace Replica

def setUp (r : Replica) (up : Bool) : Replica := { r with up }

def apply (r : Replica) (key : Str) (vv : VersionedValue) : Replica × Bool :=
  match r.store.lookup key with
  | some cur =>
    if !vv.newer cur then (r, false) else ({ r with store := r.store.insert key vv }, true)
  | none => ({ r with store := r.store.insert key vv }, true)

def get (r : Replica) (key : Str) : Option VersionedValue := r.store.lookup key

/-- What the replica stores for a key. -/
def stored (r : Replica) (key : Str) : WithBot VersionedValue := held r.store key

end Replica

structure Hint where
  key : Str
  vv : VersionedValue

namespace Hint

/-- The write a hint buffers. -/
def entry (h : Hint) : Str × VersionedValue := (h.key, h.vv)

end Hint

/-- The `hints` of a coordinator. -/
abbrev Hints := GoMap Str (List Hint)

structure Coordinator where
  replicas : List Replica
  hints : Hints

def newCoordinator (replicas : List Replica) : Coordinator where
  replicas
  hints := ∅

structure ReadResult where
  value : Str
  version : UInt64
  found : Bool
  repaired : List Str

/-- The value a read returns. -/
def ReadResult.newest (result : ReadResult) : WithBot VersionedValue :=
  if result.found then ↑(VersionedValue.mk result.value result.version) else ⊥

namespace Coordinator

/-- The loop of `Write`: the replicas, the hints, and the number that took the write. -/
def writeLoop (key : Str) (vv : VersionedValue) : List Replica → Hints → List Replica × Hints × ℕ
  | [], hints => ([], hints, 0)
  | r :: rest, hints =>
    if r.up then
      let (replicas, hints, applied) := writeLoop key vv rest hints
      ((r.apply key vv).1 :: replicas, hints, applied + 1)
    else
      let buffered := hints.insert r.id (hints.read r.id [] ++ [⟨key, vv⟩])
      let (replicas, hints, applied) := writeLoop key vv rest buffered
      (r :: replicas, hints, applied)

def write (c : Coordinator) (key value : Str) (version : UInt64) : Coordinator × ℕ :=
  let (replicas, hints, applied) := writeLoop key ⟨value, version⟩ c.replicas c.hints
  ({ replicas, hints }, applied)

def pendingHints (c : Coordinator) (id : Str) : ℕ := (c.hints.read id []).length

/-- `SetUp` on the replica at a position. -/
def setUp (c : Coordinator) (i : ℕ) (up : Bool) : Coordinator :=
  { c with replicas := c.replicas.modify i fun r => r.setUp up }

/-- The loop of `replayHints`. -/
def deliver (r : Replica) (pending : List Hint) : Replica :=
  pending.foldl (fun r h => (r.apply h.key h.vv).1) r

/-- `ReplayHints` for the replica at a position. -/
def replayHints (c : Coordinator) (i : ℕ) : Coordinator × ℕ :=
  match c.replicas[i]? with
  | none => (c, 0)
  | some r =>
    if !r.up then (c, 0)
    else
      let pending := c.hints.read r.id []
      ({ replicas := c.replicas.set i (deliver r pending), hints := c.hints.erase r.id },
        pending.length)

/-- The body of the first loop of `Read`. -/
def pickNewer (key : Str) (best : Option VersionedValue) (r : Replica) : Option VersionedValue :=
  if !r.up then best
  else
    match r.get key, best with
    | none, best => best
    | some vv, none => some vv
    | some vv, some best => if vv.newer best then some vv else some best

/-- The second loop of `Read`: the replicas, and the identifiers of the repaired ones. -/
def repairLoop (key : Str) (best : VersionedValue) : List Replica → List Replica × List Str
  | [] => ([], [])
  | r :: rest =>
    let (replicas, repaired) := repairLoop key best rest
    if !r.up then (r :: replicas, repaired)
    else
      let (r', changed) := r.apply key best
      (r' :: replicas, if changed then r.id :: repaired else repaired)

def read (c : Coordinator) (key : Str) : Coordinator × ReadResult :=
  match c.replicas.foldl (pickNewer key) none with
  | none => (c, ⟨[], 0, false, []⟩)
  | some best =>
    let (replicas, repaired) := repairLoop key best c.replicas
    ({ c with replicas }, ⟨best.value, best.version, true, repaired.insertionSort (· ≤ ·)⟩)

/-- The largest value pending for a key in the hints of a replica. -/
def pending (c : Coordinator) (id key : Str) : WithBot VersionedValue :=
  latest ((c.hints.read id []).map Hint.entry) key

end Coordinator

/-! ## What the operations do -/

variable (r : Replica) (key : Str) (vv : VersionedValue)

variable (replicas : List Replica)

namespace Replica

theorem apply_id : (r.apply key vv).1.id = r.id := by
  unfold apply
  split
  · split <;> rfl
  · rfl

theorem apply_store : (r.apply key vv).1.store = offer r.store key vv := by
  unfold apply offer
  cases r.store.lookup key with
  | none => rfl
  | some cur =>
    dsimp only
    by_cases h : cur < vv
    · rw [if_pos h, (VersionedValue.newer_iff vv cur).mpr h]
      rfl
    · rw [if_neg h, Bool.eq_false_iff.mpr (mt (VersionedValue.newer_iff vv cur).mp h)]
      rfl

theorem apply_stored (k : Str) :
    (r.apply key vv).1.stored k = max (r.stored k) (latest [(key, vv)] k) := by
  unfold stored
  rw [apply_store, held_offer]

/-- A replica after a write or a repair, which it takes if it is up. -/
def take (key : Str) (vv : VersionedValue) (r : Replica) : Replica :=
  if r.up then (r.apply key vv).1 else r

theorem take_id (r : Replica) : (r.take key vv).id = r.id := by
  unfold take
  split
  · exact r.apply_id key vv
  · rfl

theorem take_stored (r : Replica) (k : Str) :
    (r.take key vv).stored k = if r.up then max (r.stored k) (latest [(key, vv)] k)
      else r.stored k := by
  unfold take
  split
  · exact r.apply_stored key vv k
  · rfl

theorem map_id_take : (replicas.map (take key vv)).map id = replicas.map id := by
  rw [map_map]
  exact map_congr_left fun r _ => r.take_id key vv

end Replica

namespace Coordinator

theorem deliver_id (pending : List Hint) : (deliver r pending).id = r.id := by
  induction pending generalizing r with
  | nil => rfl
  | cons h pending ih => exact (ih _).trans (r.apply_id h.key h.vv)

theorem deliver_store (pending : List Hint) : (deliver r pending).store =
      (pending.map Hint.entry).foldl (fun m e => offer m e.1 e.2) r.store := by
  induction pending generalizing r with
  | nil => rfl
  | cons h pending ih =>
    show (deliver (r.apply h.key h.vv).1 pending).store = _
    rw [ih, r.apply_store]
    rfl

theorem deliver_stored (pending : List Hint) (k : Str) :
    (deliver r pending).stored k = max (r.stored k) (latest (pending.map Hint.entry) k) := by
  unfold Replica.stored
  rw [deliver_store, held_foldl_offer]

theorem writeLoop_replicas (hints : Hints) :
    (writeLoop key vv replicas hints).1 = replicas.map (Replica.take key vv) := by
  induction replicas generalizing hints with
  | nil => rfl
  | cons r rest ih =>
    unfold writeLoop
    by_cases h : r.up = true <;> simp [h, ih, Replica.take]

theorem writeLoop_hints_of_notMem {replicas : List Replica} {id : Str}
    (h : id ∉ replicas.map Replica.id) (hints : Hints) :
    (writeLoop key vv replicas hints).2.1.read id [] = hints.read id [] := by
  induction replicas generalizing hints with
  | nil => rfl
  | cons r rest ih =>
    rw [map_cons, mem_cons, not_or] at h
    unfold writeLoop
    by_cases hup : r.up = true
    · simp [hup, ih h.2]
    · simp [hup, ih h.2, GoMap.read_insert_if, h.1]

theorem writeLoop_hints {replicas : List Replica} (hnodup : (replicas.map Replica.id).Nodup)
    {r : Replica} (hr : r ∈ replicas) (hints : Hints) :
    (writeLoop key vv replicas hints).2.1.read r.id [] =
      if r.up then hints.read r.id [] else hints.read r.id [] ++ [⟨key, vv⟩] := by
  induction replicas generalizing hints with
  | nil => cases hr
  | cons head rest ih =>
    obtain ⟨hhead, hrest⟩ := nodup_cons.mp hnodup
    unfold writeLoop
    rcases mem_cons.mp hr with rfl | hr
    · by_cases hup : r.up = true
      · simp [hup, writeLoop_hints_of_notMem key vv hhead]
      · simp [hup, writeLoop_hints_of_notMem key vv hhead, GoMap.read_insert_if]
    have hne : r.id ≠ head.id := fun heq => hhead (heq ▸ mem_map_of_mem hr)
    by_cases hup : head.up = true
    · simp [hup, ih hrest hr]
    · simp [hup, ih hrest hr, GoMap.read_insert_if, hne]

theorem repairLoop_replicas (best : VersionedValue) (replicas : List Replica) :
    (repairLoop key best replicas).1 = replicas.map (Replica.take key best) := by
  induction replicas with
  | nil => rfl
  | cons r rest ih =>
    unfold repairLoop
    by_cases h : r.up = true <;> simp [h, ih, Replica.take]

theorem known_pickNewer (best : Option VersionedValue) (r : Replica) :
    known (pickNewer key best r) = max (known best) (if r.up then r.stored key else ⊥) := by
  unfold pickNewer Replica.stored held Replica.get
  by_cases hup : r.up = true
  · cases hget : r.store.lookup key with
    | none => simp [hup]
    | some vv =>
      cases best with
      | none => simp [hup]
      | some best =>
        by_cases hnewer : best < vv
        · simp [hup, (VersionedValue.newer_iff vv best).mpr hnewer, hnewer.le]
        · have hfalse := Bool.eq_false_iff.mpr (mt (VersionedValue.newer_iff vv best).mp hnewer)
          simp [hup, hfalse, not_lt.mp hnewer]
  · simp [hup]

theorem known_foldl_pickNewer_le {key : Str} {bound : WithBot VersionedValue}
    {replicas : List Replica} {best : Option VersionedValue} (hbest : known best ≤ bound)
    (h : ∀ r ∈ replicas, r.stored key ≤ bound) :
    known (replicas.foldl (pickNewer key) best) ≤ bound := by
  induction replicas generalizing best with
  | nil => exact hbest
  | cons r rest ih =>
    refine ih ?_ fun r hr => h r (mem_cons_of_mem _ hr)
    rw [known_pickNewer]
    refine max_le hbest ?_
    split
    · exact h r mem_cons_self
    · exact bot_le

theorem known_le_foldl_pickNewer (best : Option VersionedValue) :
    known best ≤ known (replicas.foldl (pickNewer key) best) ∧
      ∀ r ∈ replicas, r.up = true → r.stored key ≤ known (replicas.foldl (pickNewer key) best) := by
  induction replicas generalizing best with
  | nil => exact ⟨le_rfl, by simp⟩
  | cons r rest ih =>
    obtain ⟨hbest, hrest⟩ := ih (pickNewer key best r)
    rw [known_pickNewer] at hbest
    refine ⟨(le_max_left _ _).trans hbest, forall_mem_cons.mpr ⟨fun hup => ?_, hrest⟩⟩
    rw [if_pos hup] at hbest
    exact (le_max_right _ _).trans hbest

end Coordinator

end HelixCluster.AntiEntropy
