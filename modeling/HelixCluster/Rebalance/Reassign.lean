import HelixCluster.Lib.GoMap

/-!
# Cooperative-sticky reassignment

`Reassign` of `pkg/rebalance`.
-/

namespace HelixCluster.Rebalance

/-- Maps a consumer ID to the partition IDs it owns. -/
abbrev Assignment := GoMap Str (List Str)

/-- `sort.Strings`. -/
def sortStrings (xs : List Str) : List Str := xs.insertionSort (· ≤ ·)

/-- `a[m]`. -/
def Assignment.parts (a : Assignment) (m : Str) : List Str := a.read m []

/-- `len(a[m])`. -/
def Assignment.load (a : Assignment) (m : Str) : ℕ := (a.parts m).length

/-- `a[m] = append(a[m], p)`. -/
def Assignment.add (a : Assignment) (m p : Str) : Assignment := a.insert m (a.parts m ++ [p])

/-! ### The least loaded member -/

/-- The part of the loops that compares a load with the best one so far. -/
def consider (a : Assignment) (best : Str × ℤ) (m : Str) : Str × ℤ :=
  if best.2 = -1 ∨ (a.load m : ℤ) < best.2 then (m, a.load m) else best

/-- One turn of a loop that passes over the members at `cap` or above. -/
def considerUnder (a : Assignment) (cap : ℕ) (best : Str × ℤ) (m : Str) : Str × ℤ :=
  if cap ≤ a.load m then best else consider a best m

def leastLoadedUnderCap (a : Assignment) (members : List Str) (cap : ℕ) : Str :=
  let best := members.foldl (considerUnder a cap) ([], -1)
  if best.1 ≠ [] then best.1
  else (members.foldl (consider a) best).1

def leastLoadedReceiver (a : Assignment) (members : List Str) (cap : ℕ) : Str :=
  (members.foldl (considerUnder a cap) ([], -1)).1

/-! ### Moves -/

def moveOne (a : Assignment) (donor receiver : Str) : Assignment :=
  let parts := sortStrings (a.parts donor)
  match parts.getLast? with
  | none => a
  | some moved => Assignment.add (a.insert donor parts.dropLast) receiver moved

/-- The first member with a load that `p` accepts, or `""`. -/
def firstWith (a : Assignment) (members : List Str) (p : ℕ → Bool) : Str :=
  (members.find? fun m => p (a.load m)).getD []

/-- One turn of the loop of `rebalanceDown`; `none` where the function returns. -/
def rebalanceStep (a : Assignment) (members : List Str) (floor ceil : ℕ) : Option Assignment :=
  let donor := firstWith a members fun l => ceil < l
  if donor = [] then
    let receiver := firstWith a members fun l => l < floor
    if receiver = [] then none
    else
      let donor := firstWith a members fun l => floor < l
      if donor = [] then none else some (moveOne a donor receiver)
  else
    let receiver := leastLoadedReceiver a members ceil
    if receiver = [] ∨ receiver = donor then none else some (moveOne a donor receiver)

def rebalanceDown (members : List Str) (floor ceil : ℕ) : ℕ → Assignment → Option Assignment
  | 0, _ => none
  | fuel + 1, a =>
    match rebalanceStep a members floor ceil with
    | none => some a
    | some a => rebalanceDown members floor ceil fuel a

/-! ### Reassign -/

/-- The members, each once, in the order of their IDs. -/
def sortedMembers (members : List Str) : List Str := sortStrings (distinct members).2

/-- The partitions, each once, in the order of their IDs. -/
def sortedParts (partitions : List Str) : List Str := sortStrings (distinct partitions).2

/-- The assignment that gives nothing to each member. -/
def unassigned (members : List Str) : Assignment :=
  members.foldl (fun next m => next.insert m []) ∅

/-- The variables of the first step: the owner of each partition that is kept, and the assignment. -/
structure Keeping where
  owned : GoMap Str Str
  next : Assignment

/-- Step 1 for one partition that member `m` owned. -/
def keepPart (valid : GoMap Str Unit) (m : Str) (s : Keeping) (p : Str) : Keeping :=
  if p ∉ valid then s
  else if p ∈ s.owned then s
  else ⟨s.owned.insert p m, s.next.add m p⟩

/-- Step 1 for one member. -/
def keepSticky (prev : Assignment) (valid : GoMap Str Unit) (s : Keeping) (m : Str) : Keeping :=
  (sortStrings (prev.parts m)).foldl (keepPart valid m) s

/-- Step 1: what the members keep. -/
def keepAll (prev : Assignment) (members partitions : List Str) : Keeping :=
  (sortedMembers members).foldl (keepSticky prev (distinct partitions).1)
    ⟨∅, unassigned (sortedMembers members)⟩

/-- The partitions that nobody keeps. -/
def freeParts (owned : GoMap Str Str) (partitions : List Str) : List Str :=
  (sortedParts partitions).filter fun p => p ∉ owned

/-- `P / N`. -/
def floorLoad (members partitions : List Str) : ℕ :=
  (sortedParts partitions).length / (sortedMembers members).length

/-- `P / N` rounded up. -/
def ceilLoad (members partitions : List Str) : ℕ :=
  if (sortedParts partitions).length % (sortedMembers members).length > 0 then
    floorLoad members partitions + 1
  else floorLoad members partitions

/-- Step 2: the free partitions go to the least loaded members. -/
def assignFree (members : List Str) (ceil : ℕ) (next : Assignment) (free : List Str) :
    Assignment :=
  free.foldl (fun next p => next.add (leastLoadedUnderCap next members ceil) p) next

/-- The list of each member is sorted. -/
def sortAll (members : List Str) (next : Assignment) : Assignment :=
  members.foldl (fun next m => next.insert m (sortStrings (next.parts m))) next

def reassign (fuel : ℕ) (prev : Assignment) (members partitions : List Str) :
    Option Assignment :=
  if (sortedMembers members).length = 0 then some (unassigned (sortedMembers members))
  else
    let kept := keepAll prev members partitions
    let filled := assignFree (sortedMembers members) (ceilLoad members partitions) kept.next
      (freeParts kept.owned partitions)
    (rebalanceDown (sortedMembers members) (floorLoad members partitions)
      (ceilLoad members partitions) fuel filled).map (sortAll (sortedMembers members))

end HelixCluster.Rebalance
