import HelixCluster.Mvcc.BtreeInsert

/-!
# The revision store

The store of `pkg/mvcc/mvcc.go`.
-/

namespace HelixCluster.Mvcc

open Option List

/-- One historical value of a key. -/
structure Version where
  modRev : Int64
  value : List UInt8
  deriving DecidableEq

/-- A recorded change in the revision log. -/
structure Event where
  rev : Int64
  key : Str
  value : List UInt8
  deriving DecidableEq

/-- The version history of a key, in ascending order of revisions. -/
structure KeyHistory where
  versions : List Version
  deriving DecidableEq

namespace KeyHistory

/-- `keyHistory.get`: the value as of `atRev`, or the latest value if `atRev` is not positive. -/
def get (h : KeyHistory) (atRev : Int64) : Option (List UInt8) :=
  match h.versions.getLast? with
  | none => none
  | some latest =>
    if atRev ≤ 0 then some latest.value
    else
      match searchSlice h.versions fun v => v.modRev ≤ atRev with
      | 0 => none
      | idx + 1 => h.versions[idx]?.map Version.value

def compact (h : KeyHistory) (rev : Int64) : KeyHistory :=
  if h.versions.length ≤ 1 then h
  else
    ⟨h.versions.zipIdx.filterMap fun (v, i) =>
      let isLatest := i == h.versions.length - 1
      let superseded := !isLatest
      if superseded && v.modRev < rev then none else some v⟩

/-- The revisions ascend along the history. -/
def Ascending (versions : List Version) : Prop := versions.Pairwise fun a b => a.modRev < b.modRev

/-- The version that is visible at a revision: the last one that is not newer. -/
def asOf (versions : List Version) (atRev : Int64) : Option Version :=
  (versions.filter fun v => v.modRev ≤ atRev).getLast?

theorem get_asOf {versions : List Version} (hascending : Ascending versions) {atRev : Int64}
    (hpos : 0 < atRev) : get ⟨versions⟩ atRev = (asOf versions atRev).map Version.value := by
  have hmono : versions.Pairwise fun a b =>
      decide (b.modRev ≤ atRev) = true → decide (a.modRev ≤ atRev) = true := by
    refine hascending.imp fun {a b} hlt hb => ?_
    simp only [decide_eq_true_eq] at hb ⊢
    exact Int64.le_trans (Int64.le_of_lt hlt) hb
  obtain ⟨front, back, hsplit, hlength, hfront, hback⟩ := searchSlice_split hmono
  have hasOf : asOf versions atRev = front.getLast? := by
    rw [asOf, hsplit, filter_append, filter_eq_self.mpr hfront,
      filter_eq_nil_iff.mpr (by simpa using hback), append_nil]
  rw [hasOf]
  unfold get
  simp only [← hlength, Int64.not_le.mpr hpos, if_false]
  rcases eq_nil_or_concat front with rfl | ⟨init, latest, rfl⟩
  · split <;> rfl
  obtain ⟨last, hlast⟩ : ∃ last, versions.getLast? = some last :=
    ⟨_, List.getLast?_eq_some_getLast (by simp [hsplit])⟩
  simp only [hlast]
  simp [hsplit]

theorem get_latest (versions : List Version) {atRev : Int64} (hnonpos : atRev ≤ 0) :
    get ⟨versions⟩ atRev = versions.getLast?.map Version.value := by
  simp only [get, hnonpos, if_true]
  cases versions.getLast? <;> rfl

theorem compact_eq (front : List Version) (latest : Version) (rev : Int64) :
    (compact ⟨front ++ [latest]⟩ rev).versions =
      (front.filter fun v => rev ≤ v.modRev) ++ [latest] := by
  cases front with
  | nil => rfl
  | cons first rest =>
    generalize hfront : first :: rest = front
    have hlength : ¬ (front ++ [latest]).length ≤ 1 := by simp [← hfront]
    have hkeep : front.zipIdx.filterMap (fun (v, i) =>
          if (!i == (front ++ [latest]).length - 1) && decide (v.modRev < rev) then none
          else some v) =
        front.zipIdx.filterMap ((Option.guard fun v => decide (rev ≤ v.modRev)) ∘ Prod.fst) := by
      refine filterMap_congr fun x hx => ?_
      have hi := snd_lt_of_mem_zipIdx hx
      have hnotLatest : x.2 ≠ front.length := Nat.ne_of_lt hi
      by_cases hrev : rev ≤ x.1.modRev
      · simp [hrev, Option.guard, Int64.not_lt.mpr hrev]
      · simp [hnotLatest, hrev, Option.guard, Int64.not_le.mp hrev]
    simp only [compact, hlength, if_false, zipIdx_append, filterMap_append, hkeep,
      ← filterMap_map, zipIdx_map_fst, filterMap_eq_filter]
    simp

end KeyHistory

/-- The revision store, with the histories that its index points to. -/
structure Store where
  rev : Int64
  index : Btree Nat
  heap : List KeyHistory
  log : List Event

namespace Store

def new : Store where
  rev := 0
  index := newBtree defaultDegree
  heap := []
  log := []

/-- The history that `Put` appends to: the one the index points to, or else a new one. -/
def findOrCreate (s : Store) (key : Str) : Option (Nat × Store) := do
  match ← s.index.get key with
  | some p => some (p, s)
  | none =>
    let p := s.heap.length
    let index ← s.index.insert key p
    some (p, { s with index, heap := s.heap ++ [⟨[]⟩] })

/-- `Store.Put`. It returns the new revision. -/
def put (s : Store) (key : Str) (val : List UInt8) : Option (Int64 × Store) := do
  let rev := s.rev + 1
  let (p, s) ← s.findOrCreate key
  let h ← s.heap[p]?
  some (rev, { s with
    rev
    heap := s.heap.set p ⟨h.versions ++ [⟨rev, val⟩]⟩
    log := s.log ++ [⟨rev, key, val⟩] })

/-- `Store.Get`. The inner `none` means not found. -/
def get (s : Store) (key : Str) (atRev : Int64) : Option (Option (List UInt8)) := do
  match ← s.index.get key with
  | none => some none
  | some p => s.heap[p]?.map fun h => h.get atRev

def range (s : Store) (start stop : Str) : Option (List Str) :=
  s.index.rangeKeys start stop

def watch (s : Store) (fromRev : Int64) : List Event := s.log.filter fun e => e.rev > fromRev

/-- The loop of `Store.Compact` over the histories of the index. -/
def compactHistories (rev : Int64) : List Nat → List KeyHistory → Option (List KeyHistory)
  | [], heap => some heap
  | p :: rest, heap => do
    let h ← heap[p]?
    compactHistories rev rest (heap.set p (h.compact rev))

def compact (s : Store) (rev : Int64) : Option Store := do
  let heap ← compactHistories rev (← s.index.allHistories) s.heap
  some { s with heap }

/-! ## What the store holds -/

/-- The entries of the index in ascending order. -/
def entries (s : Store) : List (Entry Nat) := s.index.root.inorder

/-- The versions that the store holds for a key. -/
def history (s : Store) (key : Str) : List Version :=
  ((lookupEntry s.entries key).bind fun p => s.heap[p]?).elim [] KeyHistory.versions

/-- The invariant of the store: a valid index whose pointers are distinct and on the heap. -/
structure Valid (s : Store) : Prop where
  index : s.index.Valid
  nodup : (s.entries.map Entry.hist).Nodup
  onHeap : ∀ e ∈ s.entries, e.hist < s.heap.length

theorem new_valid : new.Valid where
  index := newBtree_valid _
  nodup := nodup_nil
  onHeap := by simp [entries, new, newBtree]

variable {s : Store}

variable {key : Str}

theorem Valid.history_eq (hvalid : s.Valid) {p : Nat} (hmem : ⟨key, p⟩ ∈ s.entries) {h : KeyHistory}
    (hheap : s.heap[p]? = some h) : s.history key = h.versions := by
  have hlookup := (lookupEntry_eq_some hvalid.index.sorted).mpr hmem
  simp only [history, entries] at hlookup ⊢
  simp [hlookup, hheap]

theorem history_eq_nil (habsent : ∀ e ∈ s.entries, e.key ≠ key) : s.history key = [] := by
  simp [history, lookupEntry_eq_none.mpr habsent]

section

variable (hvalid : s.Valid)

include hvalid

theorem Valid.index_get (key : Str) : s.index.get key = some (lookupEntry s.entries key) := by
  obtain ⟨h, hbalanced⟩ := hvalid.index.balanced
  exact hbalanced.get_eq hvalid.index.sorted key

theorem Valid.key_cases (key : Str) :
    (lookupEntry s.entries key = none ∧ ∀ e ∈ s.entries, e.key ≠ key) ∨
      ∃ p h, lookupEntry s.entries key = some p ∧ ⟨key, p⟩ ∈ s.entries ∧ s.heap[p]? = some h := by
  cases hlookup : lookupEntry s.entries key with
  | none => exact .inl ⟨rfl, lookupEntry_eq_none.mp hlookup⟩
  | some p =>
    have hmem := (lookupEntry_eq_some hvalid.index.sorted).mp hlookup
    exact .inr ⟨p, _, rfl, hmem, List.getElem?_eq_getElem (hvalid.onHeap _ hmem)⟩

/-! ## Specifications of the operations -/

theorem Valid.get_eq (key : Str) (atRev : Int64) :
    s.get key atRev = some (KeyHistory.get ⟨s.history key⟩ atRev) := by
  simp only [get, hvalid.index_get, bind_eq_bind, bind_some]
  rcases hvalid.key_cases key with ⟨hlookup, habsent⟩ | ⟨p, h, hlookup, hmem, hheap⟩
  · simp [hlookup, history_eq_nil habsent, KeyHistory.get]
  · simp [hlookup, hheap, hvalid.history_eq hmem hheap]

theorem Valid.range_eq (start stop : Str) :
    s.range start stop = some (keysIn start stop s.entries) := by
  obtain ⟨h, hbalanced⟩ := hvalid.index.balanced
  exact hbalanced.rangeWalk_eq start stop

theorem Valid.history_set {p : Nat} (hmem : ⟨key, p⟩ ∈ s.entries)
    (h : KeyHistory) (rev : Int64) (log : List Event) (k : Str) :
    history ⟨rev, s.index, s.heap.set p h, log⟩ k =
      if k = key then h.versions else s.history k := by
  have hlookup := (lookupEntry_eq_some hvalid.index.sorted).mpr hmem
  split_ifs with heq
  · subst heq
    have hp := hvalid.onHeap _ hmem
    simp only [history, entries] at hlookup ⊢
    simp [hlookup, hp]
  · rcases hvalid.key_cases k with ⟨hnone, -⟩ | ⟨q, h', hsome, hmem', hheap⟩
    · simp only [history, entries] at hnone ⊢
      simp [hnone]
    -- distinct keys have distinct pointers
    have hqp : p ≠ q := by
      rintro rfl
      have := inj_on_of_nodup_map hvalid.nodup hmem hmem' rfl
      exact heq (congrArg Entry.key this).symm
    simp only [history, entries] at hsome ⊢
    simp [hsome, List.getElem?_set_ne hqp]

theorem Valid.findOrCreate_spec (key : Str) :
    ∃ p s', s.findOrCreate key = some (p, s') ∧ s'.Valid ∧ ⟨key, p⟩ ∈ s'.entries ∧
      s'.rev = s.rev ∧ s'.log = s.log ∧ (∀ k, s'.history k = s.history k) ∧
      ∀ k, k ∈ s'.entries.map Entry.key ↔ k = key ∨ k ∈ s.entries.map Entry.key := by
  simp only [findOrCreate, hvalid.index_get, bind_eq_bind, bind_some]
  rcases hvalid.key_cases key with ⟨hlookup, habsent⟩ | ⟨p, h, hlookup, hmem, hheap⟩
  · obtain ⟨index, hinsert, hindex, hinserted⟩ := hvalid.index.insert_spec key s.heap.length
    have hperm : index.root.inorder.Perm (⟨key, s.heap.length⟩ :: s.entries) :=
      hinserted.perm habsent
    have hvalid' : Valid ⟨s.rev, index, s.heap ++ [⟨[]⟩], s.log⟩ := by
      refine ⟨hindex, ?_, ?_⟩
      · refine (hperm.map Entry.hist).nodup_iff.mpr (nodup_cons.mpr ⟨?_, hvalid.nodup⟩)
        intro hused
        obtain ⟨e, he, hhist⟩ := mem_map.mp hused
        exact absurd hhist (hvalid.onHeap e he).ne
      intro e he
      rw [length_append, length_singleton]
      rcases mem_cons.mp (hperm.mem_iff.mp he) with rfl | he
      · exact Nat.lt_succ_self _
      · exact Nat.lt_succ_of_lt (hvalid.onHeap e he)
    simp only [hlookup, hinsert, bind_some]
    refine ⟨_, _, rfl, hvalid', hperm.mem_iff.mpr (by simp), rfl, rfl, fun k => ?_, fun k => ?_⟩
    · rcases hvalid'.key_cases k with ⟨-, habsent'⟩ | ⟨q, h, -, hmem, hheap⟩
      · rw [history_eq_nil habsent', history_eq_nil]
        exact fun e he => habsent' e (hperm.mem_iff.mpr (mem_cons_of_mem _ he))
      · rw [hvalid'.history_eq hmem hheap]
        rcases mem_cons.mp (hperm.mem_iff.mp hmem) with hnew | hold
        · obtain ⟨rfl, rfl⟩ := Entry.mk.inj hnew
          have hempty : (⟨[]⟩ : KeyHistory) = h := by simpa using hheap
          rw [history_eq_nil habsent, ← hempty]
        · rw [List.getElem?_append_left (hvalid.onHeap _ hold)] at hheap
          exact (hvalid.history_eq hold hheap).symm
    · exact (hperm.map Entry.key).mem_iff.trans mem_cons
  · simp only [hlookup]
    refine ⟨_, _, rfl, hvalid, hmem, rfl, rfl, fun _ => rfl, fun k => ?_⟩
    have hkey : key ∈ s.entries.map Entry.key := mem_map_of_mem hmem
    constructor
    · exact .inr
    intro h
    rcases h with rfl | hk
    · exact hkey
    · exact hk

theorem Valid.put_spec (key : Str) (val : List UInt8) :
    ∃ s', s.put key val = some (s.rev + 1, s') ∧ s'.Valid ∧ s'.rev = s.rev + 1 ∧
      s'.log = s.log ++ [⟨s.rev + 1, key, val⟩] ∧
      (∀ k, s'.history k = if k = key then s.history key ++ [⟨s.rev + 1, val⟩] else s.history k) ∧
      ∀ k, k ∈ s'.entries.map Entry.key ↔ k = key ∨ k ∈ s.entries.map Entry.key := by
  obtain ⟨p, s₁, hfind, hvalid₁, hmem, hrev, hlog, hhistory, hkeys⟩ := hvalid.findOrCreate_spec key
  have hheap := List.getElem?_eq_getElem (hvalid₁.onHeap _ hmem)
  simp only [put, hfind, hheap, bind_eq_bind, bind_some]
  refine ⟨_, rfl, ⟨hvalid₁.index, hvalid₁.nodup, ?_⟩, rfl, by rw [hlog], fun k => ?_, hkeys⟩
  · intro e he
    rw [length_set]
    exact hvalid₁.onHeap e he
  · rw [hvalid₁.history_set hmem, ← hvalid₁.history_eq hmem hheap, hhistory, hhistory]

end

theorem compactHistories_spec (rev : Int64) {pointers : List Nat} {heap : List KeyHistory}
    (hnodup : pointers.Nodup) (hbound : ∀ p ∈ pointers, p < heap.length) :
    ∃ heap', compactHistories rev pointers heap = some heap' ∧ heap'.length = heap.length ∧
      ∀ i : Nat, heap'[i]? =
        if i ∈ pointers then heap[i]?.map (KeyHistory.compact · rev) else heap[i]? := by
  induction pointers generalizing heap with
  | nil => exact ⟨heap, rfl, rfl, by simp⟩
  | cons p rest ih =>
    obtain ⟨hp, hrest⟩ := nodup_cons.mp hnodup
    obtain ⟨h, hheap⟩ : ∃ h, heap[p]? = some h :=
      ⟨_, List.getElem?_eq_getElem (hbound p mem_cons_self)⟩
    have hbound' : ∀ q ∈ rest, q < (heap.set p (h.compact rev)).length := by
      intro q hq
      rw [length_set]
      exact hbound q (mem_cons_of_mem _ hq)
    obtain ⟨heap', hloop, hlength, hindex⟩ := ih hrest hbound'
    refine ⟨heap', by simp [compactHistories, hheap, hloop], by simpa using hlength, ?_⟩
    intro i
    rw [hindex]
    rcases eq_or_ne i p with rfl | hi
    · have hi : i < heap.length := hbound i mem_cons_self
      rw [if_neg hp, List.getElem?_set_self hi, if_pos mem_cons_self, hheap]
      rfl
    · rw [List.getElem?_set_ne (Ne.symm hi)]
      simp [hi]

theorem Valid.compact_spec (hvalid : s.Valid) (rev : Int64) :
    ∃ s', s.compact rev = some s' ∧ s'.Valid ∧ s'.rev = s.rev ∧ s'.log = s.log ∧
      s'.entries = s.entries ∧
      ∀ k, s'.history k = (KeyHistory.compact ⟨s.history k⟩ rev).versions := by
  obtain ⟨h, hbalanced⟩ := hvalid.index.balanced
  have hpointers : s.index.allHistories = some (s.entries.map Entry.hist) := hbalanced.histories_eq
  obtain ⟨heap', hloop, hlength, hindex⟩ := compactHistories_spec rev hvalid.nodup
    fun p hp => by
      obtain ⟨e, he, rfl⟩ := mem_map.mp hp
      exact hvalid.onHeap e he
  have hvalid' : Valid ⟨s.rev, s.index, heap', s.log⟩ := by
    refine ⟨hvalid.index, hvalid.nodup, fun e he => ?_⟩
    rw [hlength]
    exact hvalid.onHeap e he
  simp only [compact, hpointers, hloop, bind_eq_bind, bind_some]
  refine ⟨_, rfl, hvalid', rfl, rfl, rfl, fun k => ?_⟩
  rcases hvalid.key_cases k with ⟨-, habsent⟩ | ⟨p, h, -, hmem, hheap⟩
  · rw [history_eq_nil habsent]
    exact history_eq_nil habsent
  have hcompacted : heap'[p]? = some (h.compact rev) := by
    rw [hindex, if_pos (mem_map_of_mem hmem), hheap]
    rfl
  rw [hvalid.history_eq hmem hheap, hvalid'.history_eq hmem hcompacted]

end Store

end HelixCluster.Mvcc
