import HelixCluster.Lib.GoInt
import HelixCluster.Lib.GoMap
import HelixCluster.Lib.Order
import HelixCluster.Lib.Largest

/-!
# N+K admission control

The `Controller` of `pkg/admissioncontrol` admits a request only if the free capacity that is left
covers the `k` largest live nodes.
-/

namespace HelixCluster.AdmissionControl

open List

/-- A cluster node's capacity and current allocation. -/
structure Node where
  id : Str
  capacity : Int64
  allocated : Int64
  failed : Bool

/-- `free`: the node's unallocated capacity, never negative. -/
def Node.free (n : Node) : Int64 :=
  if n.failed then 0
  else
    let f := n.capacity - n.allocated
    if f < 0 then 0 else f

/-- The clamping in `upsertLocked`. -/
def Node.clamped (n : Node) : Node :=
  let n := if n.capacity < 0 then { n with capacity := 0 } else n
  let n := if n.allocated < 0 then { n with allocated := 0 } else n
  if n.allocated > n.capacity then { n with allocated := n.capacity } else n

/-- The allocation of a node is between 0 and its capacity. -/
def Node.Valid (n : Node) : Prop := 0 ≤ n.allocated ∧ n.allocated ≤ n.capacity

theorem Node.valid_clamped (n : Node) : n.clamped.Valid := by
  unfold Node.clamped Node.Valid
  grind

/-- `Controller`; all its nodes have been clamped. -/
structure Controller where
  k : Int64
  nodes : GoMap Str Node
  k_nonneg : 0 ≤ k
  valid : ∀ id n, nodes.lookup id = some n → n.Valid

/-- The reasons of a rejection. -/
inductive Reason where
  | insufficientHeadroom
  | negativeRequest
  deriving DecidableEq

/-- The outcome of an admission request; there is no reason if it is admitted. -/
structure Decision where
  admitted : Bool
  reason : Option Reason
  requestedCapacity : Int64
  availableForAdmission : Int64
  reservedHeadroom : Int64

/-- The comparison `sort.Slice` gets: the larger capacity first. -/
def largerCapacity (a b : Node) : Bool := a.capacity > b.capacity

namespace Controller

/-- `upsertLocked`, and so `UpsertNode`. -/
def upsert (c : Controller) (n : Node) : Controller where
  k := c.k
  nodes := c.nodes.insert n.id n.clamped
  k_nonneg := c.k_nonneg
  valid id m h := by
    rw [GoMap.lookup_insert_if] at h
    split at h
    · exact Option.some.inj h ▸ n.valid_clamped
    · exact c.valid id m h

/-- A controller without nodes. -/
def empty (k : Int64) (h : 0 ≤ k) : Controller where
  k := k
  nodes := ∅
  k_nonneg := h
  valid id n h := by
    rw [AList.lookup_empty] at h
    cases h

/-- `NewController`; the error of a negative `k` carries it. -/
def newController (k : Int64) (nodes : List Node) : Except Int64 Controller :=
  if h : k < 0 then .error k
  else .ok (nodes.foldl upsert (empty k (Int64.not_lt.mp h)))

def markFailed (c : Controller) (id : Str) : Bool × Controller :=
  match hlookup : c.nodes.lookup id with
  | none => (false, c)
  | some n => (true,
      { c with
        nodes := c.nodes.insert id { n with failed := true }
        valid := fun j m h => by
          rw [GoMap.lookup_insert_if] at h
          split at h
          · exact Option.some.inj h ▸ c.valid id n hlookup
          · exact c.valid j m h })

/-- `liveNodesLocked`. -/
def liveNodes (c : Controller) : List Node :=
  (c.nodes.entries.map Sigma.snd).filter fun n => !n.failed

/-- `totalFreeLocked`. -/
def totalFree (c : Controller) : Int64 := c.nodes.entries.foldl (fun sum e => sum + e.2.free) 0

end Controller

/-- The loop of `reservedHeadroomLocked`, which saturates. -/
def addCapacities : Int64 → List Node → Int64
  | reserve, [] => reserve
  | reserve, n :: ns =>
    if reserve > Int64.maxValue - n.capacity then Int64.maxValue
    else addCapacities (reserve + n.capacity) ns

namespace Controller

variable (sorting : SortSlice largerCapacity)

/-- `reservedHeadroomLocked`. -/
def reservedHeadroom (c : Controller) : Int64 :=
  let live := sorting.sort c.liveNodes
  let k := if c.k.toInt > live.length then live.length else c.k.toInt.toNat
  addCapacities 0 (live.take k)

/-- `availableForAdmissionLocked`. -/
def availableForAdmission (c : Controller) : Int64 :=
  let avail := c.totalFree - c.reservedHeadroom sorting
  if avail < 0 then 0 else avail

/-- `Admit`. -/
def admitRequest (c : Controller) (requestedCapacity : Int64) : Decision :=
  let reserve := c.reservedHeadroom sorting
  let free := c.totalFree
  let available := if free - reserve < 0 then 0 else free - reserve
  let d : Decision := ⟨false, none, requestedCapacity, available, reserve⟩
  if requestedCapacity < 0 then { d with reason := some .negativeRequest }
  else if requestedCapacity = 0 then { d with admitted := true }
  else if free - requestedCapacity ≥ reserve then { d with admitted := true }
  else { d with reason := some .insufficientHeadroom }

end Controller

/-! ### Exact amounts -/

namespace Controller

variable (c : Controller)

/-- The capacity of a node, 0 for an unknown ID. -/
def capacity (id : Str) : ℤ := ((c.nodes.lookup id).map fun n => n.capacity.toInt).getD 0

/-- The allocation of a node, 0 for an unknown ID. -/
def allocated (id : Str) : ℤ := ((c.nodes.lookup id).map fun n => n.allocated.toInt).getD 0

/-- The IDs of the nodes that have not failed. -/
def live : Finset Str :=
  {id ∈ c.nodes.keys.toFinset | (c.nodes.lookup id).any fun n => !n.failed}

/-- The free capacity of the live nodes. -/
def free : ℤ := ∑ id ∈ c.live, (c.capacity id - c.allocated id)

/-- The capacity of the `k` largest live nodes. -/
def reserve : ℤ := largestSum c.k.toInt.toNat (c.live.val.map c.capacity)

theorem map_live {G : Str → ℤ} {g : Node → ℤ}
    (h : ∀ id n, c.nodes.lookup id = some n → G id = g n) :
    c.live.val.map G = (c.liveNodes.map g : List ℤ) := by
  have hids : c.live.val =
      ((c.nodes.entries.filter fun e => !e.2.failed).map Sigma.fst : List Str) := by
    have hnodup : ((c.nodes.entries.filter fun e => !e.2.failed).map Sigma.fst).Nodup :=
      List.Nodup.sublist (filter_sublist.map Sigma.fst) c.nodes.nodupKeys
    refine (Multiset.Nodup.ext c.live.nodup (Multiset.coe_nodup.mpr hnodup)).mpr fun id => ?_
    simp only [live, Finset.mem_val, Finset.mem_filter, mem_toFinset, Multiset.mem_coe,
      mem_map, mem_filter]
    constructor
    · rintro ⟨-, hlive⟩
      cases hlookup : c.nodes.lookup id with
      | none => simp [hlookup] at hlive
      | some n =>
        rw [hlookup] at hlive
        exact ⟨⟨id, n⟩, ⟨AList.mem_lookup_iff.mp hlookup, hlive⟩, rfl⟩
    rintro ⟨⟨j, n⟩, ⟨hmem, hn⟩, rfl⟩
    have hlookup : c.nodes.lookup j = some n := AList.mem_lookup_iff.mpr hmem
    exact ⟨mem_map_of_mem hmem, by rw [hlookup]; exact hn⟩
  rw [hids, Multiset.map_coe, liveNodes, filter_map, map_map, map_map]
  refine congrArg Multiset.ofList (map_congr_left fun e he => ?_)
  exact h e.1 e.2 (AList.mem_lookup_iff.mpr (mem_filter.mp he).1)

theorem reserve_eq :
    c.reserve = largestSum c.k.toInt.toNat (c.liveNodes.map fun n => n.capacity.toInt : List ℤ) := by
  have hmap : c.live.val.map c.capacity = (c.liveNodes.map fun n => n.capacity.toInt : List ℤ) :=
    c.map_live fun id n h => by rw [capacity, h, Option.map_some, Option.getD_some]
  rw [reserve, hmap]

theorem free_eq : c.free = (c.liveNodes.map fun n => n.capacity.toInt - n.allocated.toInt).sum := by
  have hmap : c.live.val.map (fun id => c.capacity id - c.allocated id) =
      (c.liveNodes.map fun n => n.capacity.toInt - n.allocated.toInt : List ℤ) :=
    c.map_live fun id n h => by
      rw [capacity, allocated, h, Option.map_some, Option.map_some, Option.getD_some, Option.getD_some]
  rw [free, Finset.sum_eq_multiset_sum, hmap, Multiset.sum_coe]

theorem valid_of_mem {n : Node} (h : n ∈ c.nodes.entries.map Sigma.snd) : n.Valid := by
  obtain ⟨e, he, rfl⟩ := mem_map.mp h
  exact c.valid e.1 e.2 (AList.mem_lookup_iff.mpr he)

end Controller

theorem Node.Valid.toInt {n : Node} (h : n.Valid) :
    0 ≤ n.allocated.toInt ∧ n.allocated.toInt ≤ n.capacity.toInt :=
  ⟨by simpa using Int64.le_iff_toInt_le.mp h.1, Int64.le_iff_toInt_le.mp h.2⟩

theorem Node.Valid.toInt_free {n : Node} (h : n.Valid) (hlive : n.failed = false) :
    n.free.toInt = n.capacity.toInt - n.allocated.toInt := by
  obtain ⟨halloc, hle⟩ := h.toInt
  have hcap := n.capacity.toInt_lt
  have hsub : (n.capacity - n.allocated).toInt = n.capacity.toInt - n.allocated.toInt :=
    toInt_sub_of_bounds (by omega) (by omega)
  have hnonneg : ¬n.capacity - n.allocated < 0 := by
    rw [Int64.lt_iff_toInt_lt, hsub, Int64.toInt_zero]
    omega
  simp [Node.free, hlive, hnonneg, hsub]

namespace Controller

variable (c : Controller)

theorem free_nonneg : 0 ≤ c.free := by
  rw [free_eq]
  refine sum_nonneg fun x hx => ?_
  obtain ⟨n, hn, rfl⟩ := mem_map.mp hx
  have := (c.valid_of_mem (mem_filter.mp hn).1).toInt
  omega

theorem toInt_totalFree : c.totalFree.toInt = c.free.bmod (2 ^ 64) := by
  have hloop : ∀ (es : List ((_ : Str) × Node)) (sum : Int64),
      (es.foldl (fun sum e => sum + e.2.free) sum).toInt =
        (sum.toInt + (es.map fun e => e.2.free.toInt).sum).bmod (2 ^ 64) := by
    intro es
    induction es with
    | nil => exact fun sum => by simp
    | cons e es ih =>
      intro sum
      rw [foldl_cons, ih, Int64.toInt_add, Int.bmod_add_bmod, map_cons, sum_cons, Int.add_assoc]
  -- a failed node counts 0 in the loop and is left out of the exact sum
  have hlive : ∀ ns : List Node, (∀ n ∈ ns, n.Valid) → (ns.map fun n => n.free.toInt).sum =
      ((ns.filter fun n => !n.failed).map fun n => n.capacity.toInt - n.allocated.toInt).sum := by
    intro ns hvalid
    induction ns with
    | nil => rfl
    | cons n ns ih =>
      obtain ⟨hn, hns⟩ := forall_mem_cons.mp hvalid
      rw [map_cons, sum_cons, ih hns]
      cases hfailed : n.failed with
      | true => simp [hfailed, Node.free]
      | false => simp [hfailed, hn.toInt_free hfailed]
  have hsum := hlive (c.nodes.entries.map Sigma.snd) fun n => c.valid_of_mem
  rw [map_map] at hsum
  rw [totalFree, hloop, free_eq, liveNodes, ← hsum, Int64.toInt_zero, Int.zero_add]
  rfl

end Controller

theorem toInt_addCapacities {ns : List Node} (h : ∀ n ∈ ns, n.Valid) {reserve : Int64}
    (hreserve : 0 ≤ reserve.toInt) : (addCapacities reserve ns).toInt =
      min (reserve.toInt + (ns.map fun n => n.capacity.toInt).sum) (2 ^ 63 - 1) := by
  induction ns generalizing reserve with
  | nil =>
    have := reserve.toInt_lt
    simp only [addCapacities, map_nil, sum_nil]
    omega
  | cons n ns ih =>
    obtain ⟨hn, hns⟩ := forall_mem_cons.mp h
    have hcap := hn.toInt
    have hlt := n.capacity.toInt_lt
    have hmax : Int64.maxValue.toInt = 2 ^ 63 - 1 := by decide
    have hrest : 0 ≤ (ns.map fun n => n.capacity.toInt).sum := by
      refine sum_nonneg fun x hx => ?_
      obtain ⟨m, hm, rfl⟩ := mem_map.mp hx
      have := (hns m hm).toInt
      omega
    have hroom : (Int64.maxValue - n.capacity).toInt = 2 ^ 63 - 1 - n.capacity.toInt := by
      rw [toInt_sub_of_bounds (by omega) (by omega), hmax]
    rw [addCapacities, map_cons, sum_cons]
    split_ifs with hfull
    · rw [gt_iff_lt, Int64.lt_iff_toInt_lt, hroom] at hfull
      omega
    · rw [gt_iff_lt, Int64.lt_iff_toInt_lt, hroom] at hfull
      have hadd : (reserve + n.capacity).toInt = reserve.toInt + n.capacity.toInt :=
        toInt_add_of_bounds (by omega) (by omega)
      rw [ih hns (by omega), hadd, Int.add_assoc]

namespace Controller

variable (sorting : SortSlice largerCapacity) (c : Controller)

theorem toInt_reservedHeadroom :
    (c.reservedHeadroom sorting).toInt = min c.reserve (2 ^ 63 - 1) := by
  have hperm := sorting.perm c.liveNodes
  have hordered : ((sorting.sort c.liveNodes).map fun n => n.capacity.toInt).Pairwise (· ≥ ·) := by
    rw [pairwise_map]
    refine (sorting.ordered c.liveNodes).imp fun {a b} hle => ?_
    rw [largerCapacity, decide_eq_false_iff_not, gt_iff_lt, Int64.lt_iff_toInt_lt] at hle
    exact Int.not_lt.mp hle
  have hvalid : ∀ n ∈ sorting.sort c.liveNodes, n.Valid := fun n hn =>
    c.valid_of_mem (mem_filter.mp (hperm.mem_iff.mp hn)).1
  have htake : ∀ (xs : List Node), xs.take
      (if c.k.toInt > xs.length then xs.length else c.k.toInt.toNat) = xs.take c.k.toInt.toNat := by
    intro xs
    split
    · rw [take_length, take_of_length_le (by omega)]
    · rfl
  rw [reservedHeadroom, htake, toInt_addCapacities (fun n hn => hvalid n (mem_of_mem_take hn))
    (by decide), Int64.toInt_zero, Int.zero_add, map_take, ← largestSum_coe hordered, reserve_eq,
    Multiset.coe_eq_coe.mpr (hperm.map _)]

theorem admitted_iff {r : Int64} (hr : 0 < r) : (c.admitRequest sorting r).admitted = true ↔
      min c.reserve (2 ^ 63 - 1) ≤ (c.free - r.toInt).bmod (2 ^ 64) := by
  have hneg : ¬r < 0 := fun h => by
    rw [Int64.lt_iff_toInt_lt] at h hr
    omega
  have hzero : r ≠ 0 := by
    rintro rfl
    exact absurd hr (by decide)
  rw [← toInt_reservedHeadroom sorting, ← Int.bmod_sub_bmod, ← toInt_totalFree, ← Int64.toInt_sub,
    ← Int64.le_iff_toInt_le, admitRequest, if_neg hneg, if_neg hzero]
  split
  · next h => exact iff_of_true rfl h
  · next h => exact iff_of_false (by simp) h

end Controller

end HelixCluster.AdmissionControl
