import HelixCluster.Lib.GoMap
import HelixCluster.Lib.Order
import HelixCluster.Porcupine.UsedKey

/-!
# The linearizability checker

`CheckOperations` of `pkg/porcupine`: the operations are sorted by call and return time, and
`search` linearizes one after another, backtracking out of dead ends.
-/

namespace HelixCluster.Porcupine

/-- A sequential specification. `equal` is `none` where the source has a nil function. -/
structure Model (σ ι ο : Type) where
  init : σ
  step : σ → ι → ο → Bool × σ
  equal : Option (σ → σ → Bool)

/-- A completed operation with its real-time window. -/
structure Operation (ι ο : Type) where
  clientID : Int
  input : ι
  output : ο
  call : Int64
  ret : Int64

/-- The verdict. `offending` is `none` where the source leaves the zero `Operation`. -/
structure CheckResult (ι ο : Type) where
  ok : Bool
  offending : Option (Operation ι ο)
  memoHits : Nat

variable {σ ι ο : Type}

/-- The comparison given to `sort.Slice`: by call time, then by return time. -/
def opLess (a b : Operation ι ο) : Bool :=
  if a.call ≠ b.call then a.call < b.call else a.ret < b.ret

/-- What the search shares with its recursive calls. `deepestStuck` is `none` for the index `-1`. -/
structure SearchState (σ : Type) (n : Nat) where
  used : Fin n → Bool
  visited : GoMap Str (List σ)
  memoHits : Nat
  deepestStuck : Option (Fin n)
  deepestDepth : Int

/-- The variables before the first call. -/
def SearchState.start (σ : Type) (n : Nat) : SearchState σ n where
  used := fun _ => false
  visited := ∅
  memoHits := 0
  deepestStuck := none
  deepestDepth := -1

/-- `used[i] = value`. -/
def SearchState.mark {n : Nat} (s : SearchState σ n) (i : Fin n) (value : Bool) : SearchState σ n :=
  { s with used := Function.update s.used i value }

variable (model : Model σ ι ο) (ops : List (Operation ι ο))

/-- The earliest return time among the unused operations, or the largest `int64`. -/
def minReturn (used : Fin ops.length → Bool) : Int64 :=
  (List.finRange ops.length).foldl
    (fun least i =>
      if used i = false ∧ (ops.get i).ret < least then (ops.get i).ret else least)
    Int64.maxValue

/-- The memo probe: some dead end filed under `key` is equal to the state. -/
def probe (s : SearchState σ ops.length) (key : Str) (state : σ) : Bool :=
  match model.equal with
  | none => false
  | some equal => (s.visited.read key []).any fun seen => equal seen state

/-- File the state as a dead end under `key`. -/
def remember (s : SearchState σ ops.length) (key : Str) (state : σ) :
    SearchState σ ops.length :=
  match model.equal with
  | none => s
  | some _ => { s with visited := s.visited.insert key (s.visited.read key [] ++ [state]) }

/-- Record a failure at a new depth, with the first unused operation, if possible one that real time
admits. -/
def noteStuck (least : Int64) (depth : Nat) (s : SearchState σ ops.length) :
    SearchState σ ops.length :=
  if (depth : Int) > s.deepestDepth then
    { s with
      deepestDepth := depth
      deepestStuck :=
        ((List.finRange ops.length).find? fun i => !s.used i && (ops.get i).call ≤ least).or
          ((List.finRange ops.length).find? fun i => !s.used i) }
  else s

/-- The loop over the candidates, where `search` explores what is left after one. -/
def tryCandidates (search : σ → SearchState σ ops.length → Bool × SearchState σ ops.length)
    (state : σ) (least : Int64) :
    List (Fin ops.length) → SearchState σ ops.length → Bool × SearchState σ ops.length
  | [], s => (false, s)
  | i :: rest, s =>
    if s.used i then tryCandidates search state least rest s
    else if (ops.get i).call > least then tryCandidates search state least rest s
    else
      let (ok, next) := model.step state (ops.get i).input (ops.get i).output
      if !ok then tryCandidates search state least rest s
      else
        let (found, s) := search next (s.mark i true)
        if found then (true, s.mark i false)
        else tryCandidates search state least rest (s.mark i false)

/-- The search with this many operations left, which is `n - depth` in the source. -/
def search : Nat → σ → SearchState σ ops.length → Bool × SearchState σ ops.length
  | 0, _, s => (true, s)
  | left + 1, state, s =>
    let key := usedKey s.used
    if probe model ops s key state then (false, { s with memoHits := s.memoHits + 1 })
    else
      let least := minReturn ops s.used
      let (found, s) :=
        tryCandidates model ops (search left) state least (List.finRange ops.length) s
      if found then (true, s)
      else
        (false, noteStuck ops least (ops.length - (left + 1)) (remember model ops s key state))

/-- `CheckOperationsVerbose` on operations that are already sorted. -/
def checkSorted : CheckResult ι ο :=
  if ops.length = 0 then ⟨true, none, 0⟩
  else
    let (found, s) := search model ops ops.length model.init (.start σ ops.length)
    if found then ⟨true, none, s.memoHits⟩
    else ⟨false, s.deepestStuck.map ops.get, s.memoHits⟩

/-- `CheckOperationsVerbose`, for any implementation of `sort.Slice`. -/
def checkOperationsVerbose (sorting : SortSlice (@opLess ι ο)) (model : Model σ ι ο)
    (history : List (Operation ι ο)) : CheckResult ι ο :=
  checkSorted model (sorting.sort history)

def checkOperations (sorting : SortSlice (@opLess ι ο)) (model : Model σ ι ο)
    (history : List (Operation ι ο)) : Bool :=
  (checkOperationsVerbose sorting model history).ok

end HelixCluster.Porcupine
