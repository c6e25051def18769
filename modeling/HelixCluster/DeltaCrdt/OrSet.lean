import HelixCluster.Lib.DeltaNetwork
import HelixCluster.Lib.GoMap
import HelixCluster.Lib.Quote

/-!
# The observed-remove set

The `ORSet` of `pkg/deltacrdt/orset.go`. A Go `map[tag]struct` is a finite set of tags.
-/

namespace HelixCluster.DeltaCrdt

open GoMap DeltaNetwork

/-- The identifier of a single `Add`. -/
abbrev Tag := Str

/-- The observed add-tags and tombstones of an element. -/
structure ElementState where
  adds : Finset Tag
  removes : Finset Tag
  deriving DecidableEq

namespace ElementState

/-- The state that `stateFor` creates. -/
def empty : ElementState := ⟨∅, ∅⟩

def live (s : ElementState) : Bool := decide (∃ t ∈ s.adds, t ∉ s.removes)

def liveTags (s : ElementState) : Finset Tag := s.adds.filter fun t => t ∉ s.removes

theorem mem_liveTags {s : ElementState} {t : Tag} : t ∈ s.liveTags ↔ t ∈ s.adds ∧ t ∉ s.removes :=
  Finset.mem_filter

end ElementState

structure OrSet where
  nodeID : Str
  seq : UInt64
  elements : GoMap Str ElementState

structure OrSetDelta where
  added : GoMap Str (Finset Tag)
  removed : GoMap Str (Finset Tag)

def newOrSet (nodeID : Str) : OrSet where
  nodeID := nodeID
  seq := 0
  elements := ∅

/-- The text that `makeTag` hashes. -/
def tagPayload (isPrintWide : Char → Bool) (nodeID elem : Str) (seq : UInt64) :
    Str :=
  quote isPrintWide nodeID ++ 0 :: (quote isPrintWide elem ++ 0 :: formatUint seq.toNat 10)

/-- The bytes in hexadecimal, as `%x` prints them. -/
def hexBytes (bytes : Str) : Str := bytes.flatMap fun b => hexDigits 2 b.toNat

def makeTag (sha256 : Str → Str) (isPrintWide : Char → Bool) (nodeID elem : Str)
    (seq : UInt64) : Tag :=
  hexBytes (sha256 (tagPayload isPrintWide nodeID elem seq))

/-- SHA-256 on the payloads for the first two calls of `Add` for `x` at the node `a`. -/
def digestTable (payload : Str) : Str :=
  if payload = [34, 97, 34, 0, 34, 120, 34, 0, 49] then
    [66, 156, 146, 90, 154, 13, 76, 175, 156, 15, 164, 246, 241, 2, 186, 52, 116, 152, 190, 139,
      143, 51, 47, 19, 222, 64, 119, 135, 60, 183, 184, 140]
  else if payload = [34, 97, 34, 0, 34, 120, 34, 0, 50] then
    [100, 174, 29, 80, 29, 22, 53, 83, 41, 132, 194, 15, 190, 204, 224, 17, 47, 208, 183, 179, 31,
      55, 158, 207, 78, 118, 108, 95, 121, 28, 244, 166]
  else []

namespace OrSet

/-- `ORSet.stateFor`, without the insertion of the created state. -/
def stateFor (o : OrSet) (elem : Str) : ElementState := (o.elements.lookup elem).getD .empty

def add (sha256 : Str → Str) (isPrintWide : Char → Bool) (o : OrSet)
    (elem : Str) : OrSet × OrSetDelta :=
  let seq := o.seq + 1
  let t := makeTag sha256 isPrintWide o.nodeID elem seq
  let s := o.stateFor elem
  ({ o with seq, elements := o.elements.insert elem { s with adds := insert t s.adds } },
    ⟨AList.singleton elem {t}, ∅⟩)

def remove (o : OrSet) (elem : Str) : OrSet × OrSetDelta :=
  match o.elements.lookup elem with
  | none => (o, ⟨∅, ∅⟩)
  | some s =>
    let live := s.liveTags
    if live = ∅ then (o, ⟨∅, ∅⟩)
    else
      ({ o with elements := o.elements.insert elem { s with removes := s.removes ∪ live } },
        ⟨∅, AList.singleton elem live⟩)

/-- The body of the first loop of `ORSet.Merge`. -/
def mergeAdded (elements : GoMap Str ElementState) (elem : Str)
    (newTags : Finset Tag) : GoMap Str ElementState :=
  if newTags = ∅ then elements
  else
    let s := (elements.lookup elem).getD .empty
    elements.insert elem { s with adds := s.adds ∪ newTags }

/-- The body of the second loop of `ORSet.Merge`. -/
def mergeRemoved (elements : GoMap Str ElementState) (elem : Str)
    (removedTags : Finset Tag) : GoMap Str ElementState :=
  if removedTags = ∅ then elements
  else
    let s := (elements.lookup elem).getD .empty
    elements.insert elem { s with removes := s.removes ∪ removedTags }

def merge (o : OrSet) (d : OrSetDelta) : OrSet :=
  { o with elements := d.removed.foldl mergeRemoved (d.added.foldl mergeAdded o.elements) }

def contains (o : OrSet) (elem : Str) : Bool :=
  match o.elements.lookup elem with
  | none => false
  | some s => s.live

/-- `ORSet.Elements`. -/
def elementList (o : OrSet) : List Str :=
  ((o.elements.entries.filter fun e => e.2.live).map Sigma.fst).insertionSort (· ≤ ·)

def state (o : OrSet) : OrSetDelta where
  added := o.elements.foldl
    (fun added elem s => if s.liveTags = ∅ then added else added.insert elem s.liveTags) ∅
  removed := ∅

end OrSet

/-- The tags that a delta adds for an element. -/
def OrSetDelta.addedTags (d : OrSetDelta) (elem : Str) : Finset Tag :=
  (d.added.lookup elem).getD ∅

/-- The tags that a delta removes for an element. -/
def OrSetDelta.removedTags (d : OrSetDelta) (elem : Str) : Finset Tag :=
  (d.removed.lookup elem).getD ∅

/-! ## The state of an element after each operation -/

namespace OrSet

variable (o : OrSet) (elem : Str)

theorem contains_iff :
    o.contains elem = true ↔ ∃ t ∈ (o.stateFor elem).adds, t ∉ (o.stateFor elem).removes := by
  rw [contains, stateFor]
  cases o.elements.lookup elem <;> simp [ElementState.live, ElementState.empty]

variable (sha256 : Str → Str) (isPrintWide : Char → Bool) (k : Str)

theorem stateFor_add (o : OrSet) (elem k : Str) :
    (o.add sha256 isPrintWide elem).1.stateFor k = if k = elem then
        ⟨insert (makeTag sha256 isPrintWide o.nodeID elem (o.seq + 1)) (o.stateFor elem).adds,
          (o.stateFor elem).removes⟩ else o.stateFor k := by
  simp only [add, stateFor, lookup_insert_if]
  split <;> rfl

theorem stateFor_remove : (o.remove elem).1.stateFor k = if k = elem then
        ⟨(o.stateFor elem).adds, (o.stateFor elem).removes ∪ (o.stateFor elem).liveTags⟩
      else o.stateFor k := by
  unfold remove stateFor
  by_cases hk : k = elem
  · subst hk
    cases hlookup : o.elements.lookup k with
    | none => simp [hlookup, ElementState.empty, ElementState.liveTags]
    | some s => by_cases hlive : s.liveTags = ∅ <;> simp [hlookup, hlive]
  cases o.elements.lookup elem with
  | none => simp [hk]
  | some s => by_cases hlive : s.liveTags = ∅ <;> simp [hk, hlive]

theorem removedTags_remove :
    (o.remove elem).2.removedTags k = if k = elem then (o.stateFor elem).liveTags else ∅ := by
  unfold remove stateFor OrSetDelta.removedTags
  cases hlookup : o.elements.lookup elem with
  | none => simp [ElementState.empty, ElementState.liveTags]
  | some s =>
    by_cases hlive : s.liveTags = ∅
    · simp [hlive]
    · by_cases hk : k = elem <;> simp [hk, hlive, lookup_singleton_if]

theorem addedTags_remove : (o.remove elem).2.addedTags k = ∅ := by
  unfold remove OrSetDelta.addedTags
  cases o.elements.lookup elem with
  | none => rfl
  | some s => by_cases hlive : s.liveTags = ∅ <;> simp [hlive]

theorem addedTags_add (o : OrSet) (elem k : Str) :
    (o.add sha256 isPrintWide elem).2.addedTags k =
      if k = elem then {makeTag sha256 isPrintWide o.nodeID elem (o.seq + 1)} else ∅ := by
  simp only [add, OrSetDelta.addedTags, lookup_singleton_if]
  split <;> rfl

theorem removedTags_add (o : OrSet) (elem k : Str) :
    (o.add sha256 isPrintWide elem).2.removedTags k = ∅ := rfl

theorem mergeAdded_updates : GoMap.Updates mergeAdded fun newTags old => if newTags = ∅ then old
    else some { old.getD .empty with adds := (old.getD .empty).adds ∪ newTags } := by
  intro elements elem newTags j
  unfold mergeAdded
  by_cases hempty : newTags = ∅
  · simp [hempty]
  simp only [hempty, if_false, lookup_insert_if]
  split
  · next hj => rw [hj]
  · rfl

theorem mergeRemoved_updates : GoMap.Updates mergeRemoved fun removedTags old =>
    if removedTags = ∅ then old
    else some { old.getD .empty with removes := (old.getD .empty).removes ∪ removedTags } := by
  intro elements elem removedTags j
  unfold mergeRemoved
  by_cases hempty : removedTags = ∅
  · simp [hempty]
  simp only [hempty, if_false, lookup_insert_if]
  split
  · next hj => rw [hj]
  · rfl

theorem stateFor_merge (d : OrSetDelta) (k : Str) : (o.merge d).stateFor k =
      ⟨(o.stateFor k).adds ∪ d.addedTags k, (o.stateFor k).removes ∪ d.removedTags k⟩ := by
  simp only [merge, stateFor, OrSetDelta.addedTags, OrSetDelta.removedTags,
    lookup_foldl_update mergeRemoved_updates, lookup_foldl_update mergeAdded_updates]
  cases d.added.lookup k with
  | none =>
    cases d.removed.lookup k with
    | none => simp
    | some removedTags => by_cases hr : removedTags = ∅ <;> simp [hr]
  | some newTags =>
    cases d.removed.lookup k with
    | none => by_cases ha : newTags = ∅ <;> simp [ha]
    | some removedTags =>
      by_cases ha : newTags = ∅ <;> by_cases hr : removedTags = ∅ <;> simp [ha, hr]

theorem addedTags_state : o.state.addedTags k = (o.stateFor k).liveTags := by
  have hupdates : GoMap.Updates (fun (added : GoMap Str (Finset Tag)) elem s =>
      if ElementState.liveTags s = ∅ then added else added.insert elem s.liveTags)
      fun s old => if s.liveTags = ∅ then old else some s.liveTags := by
    intro added elem s j
    by_cases hempty : s.liveTags = ∅
    · simp [hempty]
    · simp only [hempty, if_false, lookup_insert_if]
  simp only [state, OrSetDelta.addedTags, stateFor, lookup_foldl_update hupdates]
  cases o.elements.lookup k with
  | none => rfl
  | some s => by_cases hempty : s.liveTags = ∅ <;> simp [hempty]

end OrSet

end HelixCluster.DeltaCrdt
