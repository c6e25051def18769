import HelixCluster.Lib.DeltaNetwork
import HelixCluster.Lib.GoMap
import HelixCluster.Pair

/-!
# The increment/decrement counter

The `PNCounter` of `pkg/deltacrdt/pncounter.go`: two maps from node IDs to wrapping 64-bit totals.
-/

namespace HelixCluster.DeltaCrdt

open GoMap List DeltaNetwork

structure PnCounter where
  nodeID : Str
  pos : GoMap Str UInt64
  neg : GoMap Str UInt64

structure PnCounterDelta where
  pos : GoMap Str UInt64
  neg : GoMap Str UInt64

def newPnCounter (nodeID : Str) : PnCounter where
  nodeID := nodeID
  pos := ∅
  neg := ∅

/-- The loops of `Value`. -/
def sumCounts (counts : GoMap Str UInt64) : UInt64 := counts.foldl (fun sum _ v => sum + v) 0

namespace PnCounter

def increment (p : PnCounter) (n : UInt64) : PnCounter × PnCounterDelta :=
  let total := p.pos.read p.nodeID 0 + n
  ({ p with pos := p.pos.insert p.nodeID total }, ⟨AList.singleton p.nodeID total, ∅⟩)

def decrement (p : PnCounter) (n : UInt64) : PnCounter × PnCounterDelta :=
  let total := p.neg.read p.nodeID 0 + n
  ({ p with neg := p.neg.insert p.nodeID total }, ⟨∅, AList.singleton p.nodeID total⟩)

def merge (p : PnCounter) (d : PnCounterDelta) : PnCounter :=
  { p with pos := d.pos.foldl (GoMap.raise 0) p.pos, neg := d.neg.foldl (GoMap.raise 0) p.neg }

def value (p : PnCounter) : Int64 := (sumCounts p.pos).toInt64 - (sumCounts p.neg).toInt64

def state (p : PnCounter) : PnCounterDelta where
  pos := p.pos
  neg := p.neg

end PnCounter

/-- The calls of a replica whose result may be delivered. -/
inductive PnOp where
  | increment (n : UInt64)
  | decrement (n : UInt64)
  | state
  deriving DecidableEq

/-- The counter as a replicated object. `State` emits a full state. -/
def pnObject : DeltaObject PnCounter PnOp PnCounterDelta where
  mutate
    | .increment n, p => p.increment n
    | .decrement n, p => p.decrement n
    | .state, p => (p, p.state)
  merge := PnCounter.merge
  full
    | .state => true
    | _ => false

theorem sumCounts_eq (counts : GoMap Str UInt64) :
    sumCounts counts = UInt64.ofNat (counts.entries.map fun e => e.2.toNat).sum := by
  have hfold : ∀ (entries : List (Σ _ : Str, UInt64)) (start : UInt64),
      entries.foldl (fun sum e => sum + e.2) start =
        start + UInt64.ofNat (entries.map fun e => e.2.toNat).sum := by
    intro entries
    induction entries with
    | nil => simp
    | cons e rest ih =>
      intro start
      rw [foldl_cons, ih, map_cons, sum_cons, UInt64.ofNat_add,
        UInt64.ofNat_toNat, UInt64.add_assoc]
  rw [sumCounts, AList.foldl, hfold]
  simp

/-! ## The two sides -/

/-- The increment side and the decrement side. -/
inductive Side where
  | pos
  | neg
  deriving DecidableEq

/-- The slots of a counter as natural numbers. -/
def PnCounter.slot (p : PnCounter) : Side → Str → ℕ
  | .pos, node => (p.pos.read node 0).toNat
  | .neg, node => (p.neg.read node 0).toNat

/-- The slots of a delta as natural numbers. -/
def PnCounterDelta.slot (d : PnCounterDelta) : Side → Str → ℕ
  | .pos, node => (d.pos.read node 0).toNat
  | .neg, node => (d.neg.read node 0).toNat

/-- What a call adds to a side. -/
def PnOp.amount : PnOp → Side → ℕ
  | increment n, .pos => n.toNat
  | decrement n, .neg => n.toNat
  | _, _ => 0

/-- The call emits the total of this side. -/
def PnOp.touches : PnOp → Side → Bool
  | increment _, .pos => true
  | decrement _, .neg => true
  | _, _ => false

/-- The call does not overflow the slot of its node. -/
def PnOp.Fits (op : PnOp) (p : PnCounter) : Prop :=
  ∀ side, p.slot side p.nodeID + op.amount side < 2 ^ 64

theorem slot_merge (p : PnCounter) (d : PnCounterDelta) : (p.merge d).slot = p.slot ⊔ d.slot := by
  funext side k
  cases side <;>
    exact read_foldl_raise (fun _ _ => UInt64.lt_iff_toNat_lt) rfl _ _ k

variable {op : PnOp} {p : PnCounter}

theorem slot_mutate (hfits : op.Fits p) (side : Side) (k : Str) :
    (pnObject.mutate op p).1.slot side k =
      p.slot side k + if k = p.nodeID then op.amount side else 0 := by
  have hside := hfits side
  cases op <;> cases side <;>
    simp only [pnObject, PnCounter.increment, PnCounter.decrement, PnCounter.slot, PnOp.amount,
      read_insert_if] at hside ⊢
  all_goals split
  all_goals simp_all [UInt64.toNat_add, Nat.mod_eq_of_lt]

theorem slot_delta_eq {side : Side} (htouches : op.touches side = true) :
    (pnObject.mutate op p).2.slot side p.nodeID = (pnObject.mutate op p).1.slot side p.nodeID := by
  cases op <;> cases side <;> simp_all [PnOp.touches, pnObject, PnCounter.increment,
    PnCounter.decrement, PnCounter.slot, PnCounterDelta.slot, GoMap.read,
    lookup_singleton_if]

theorem slot_delta_le (op : PnOp) (p : PnCounter) :
    (pnObject.mutate op p).2.slot ≤ (pnObject.mutate op p).1.slot := by
  intro side k
  cases op with
  | state => cases side <;> exact Nat.le_refl _
  | increment n =>
    cases side with
    | pos =>
      simp only [pnObject, PnCounter.increment, PnCounter.slot, PnCounterDelta.slot, GoMap.read,
        lookup_singleton_if, lookup_insert_if]
      split <;> simp
    | neg => exact Nat.zero_le _
  | decrement n =>
    cases side with
    | pos => exact Nat.zero_le _
    | neg =>
      simp only [pnObject, PnCounter.decrement, PnCounter.slot, PnCounterDelta.slot, GoMap.read,
        lookup_singleton_if, lookup_insert_if]
      split <;> simp

theorem exists_last_or_none {α : Type} (p : α → Prop) (list : List α) : (∀ x ∈ list, ¬ p x) ∨
      ∃ before x after, list = before ++ x :: after ∧ p x ∧ ∀ y ∈ after, ¬ p y := by
  induction list with
  | nil => exact .inl (by simp)
  | cons first rest ih =>
    rcases ih with hnone | ⟨before, x, after, rfl, hx, hafter⟩
    · by_cases hfirst : p first
      · exact .inr ⟨[], first, rest, rfl, hfirst, hnone⟩
      · refine .inl fun x hx => ?_
        rcases mem_cons.mp hx with rfl | hx
        · exact hfirst
        · exact hnone x hx
    · exact .inr ⟨first :: before, x, after, rfl, hx, hafter⟩

/-! ## Replicas as joins of deltas -/

section Runs

variable {ι : Type} [DecidableEq ι] {node : ι → Str} {w : World ι PnCounter PnOp PnCounterDelta}

theorem pn_simulation :
    Simulation pnObject (fun i => newPnCounter (node i)) PnOp.Fits PnCounter.slot
      PnCounterDelta.slot where
  start i := by
    funext side k
    cases side <;> rfl
  issue {w} _ i op hfits := by
    have hgrows : (w.replica i).slot ≤ (pnObject.mutate op (w.replica i)).1.slot := by
      intro side k
      rw [slot_mutate hfits]
      exact Nat.le_add_right _ _
    refine le_antisymm ?_ (sup_le hgrows (slot_delta_le op _))
    intro side k
    by_cases htouches : op.touches side = true ∧ k = (w.replica i).nodeID
    · obtain ⟨htouches, rfl⟩ := htouches
      exact le_sup_of_le_right (slot_delta_eq htouches).ge
    refine le_sup_of_le_left ?_
    rw [slot_mutate hfits]
    cases op <;> cases side <;> simp_all [PnOp.touches, PnOp.amount]
  deliver _ _ _ _ := slot_merge _ _
  full op p hfull := by
    cases op with
    | state =>
      funext side k
      cases side <;> rfl
    | increment n => exact nomatch hfull
    | decrement n => exact nomatch hfull

/-- The total that the node with this ID has added to a side. -/
def sideTotal (node : ι → Str) (log : List (Emission ι PnOp PnCounterDelta)) (side : Side)
    (k : Str) : ℕ :=
  (log.map fun e => if k = node e.source then e.op.amount side else 0).sum

omit [DecidableEq ι] in
theorem sideTotal_append (log log' : List (Emission ι PnOp PnCounterDelta)) (side : Side)
    (k : Str) : sideTotal node (log ++ log') side k =
      sideTotal node log side k + sideTotal node log' side k := by
  simp [sideTotal]

omit [DecidableEq ι] in
theorem sideTotal_cons (e : Emission ι PnOp PnCounterDelta)
    (log : List (Emission ι PnOp PnCounterDelta)) (side : Side) (k : Str) :
    sideTotal node (e :: log) side k =
      (if k = node e.source then e.op.amount side else 0) + sideTotal node log side k := by
  simp [sideTotal]

variable {side : Side}

theorem amount_eq_zero (h : op.touches side = false) : op.amount side = 0 := by
  cases op <;> cases side <;> simp_all [PnOp.touches, PnOp.amount]

variable {log : List (Emission ι PnOp PnCounterDelta)}

omit [DecidableEq ι] in
theorem sideTotal_eq_zero (hnode : Function.Injective node) {j : ι}
    (hlog : ∀ e ∈ log, ¬ (e.source = j ∧ e.op.touches side = true)) :
    sideTotal node log side (node j) = 0 := by
  induction log with
  | nil => rfl
  | cons e log ih =>
    rw [sideTotal_cons, ih fun x hx => hlog x (mem_cons_of_mem _ hx)]
    split_ifs with hsource
    · have htouches := hlog e mem_cons_self
      rw [hnode hsource] at htouches
      simpa using amount_eq_zero (by simpa using htouches)
    · rfl

theorem sideTotal_issue (i : ι) (op : PnOp) (side : Side) (k : Str) :
    sideTotal node (w.issue pnObject i op).log side k =
      sideTotal node w.log side k + if k = node i then op.amount side else 0 := by
  rw [World.issue_log, sideTotal_append]
  simp [sideTotal, World.emission]

/-- Every slot is bounded by the total of its node, which the node itself knows. -/
structure CounterInvariant (node : ι → Str) (w : World ι PnCounter PnOp PnCounterDelta) :
    Prop where
  nodeID : ∀ i, (w.replica i).nodeID = node i
  own : ∀ i side, (w.replica i).slot side (node i) = sideTotal node w.log side (node i)
  replica_le : ∀ i, (w.replica i).slot ≤ sideTotal node w.log
  delta_le : ∀ e ∈ w.log, e.delta.slot ≤ sideTotal node w.log

theorem mutate_nodeID (op : PnOp) (p : PnCounter) : (pnObject.mutate op p).1.nodeID = p.nodeID := by
  cases op <;> rfl

theorem CounterInvariant.issue (hnode : Function.Injective node) (hinv : CounterInvariant node w)
    (i : ι) (hfits : op.Fits (w.replica i)) :
    CounterInvariant node (w.issue pnObject i op) := by
  have hgrows : sideTotal node w.log ≤ sideTotal node (w.issue pnObject i op).log := by
    intro side k
    rw [sideTotal_issue]
    exact Nat.le_add_right _ _
  have hslot : (pnObject.mutate op (w.replica i)).1.slot ≤
      sideTotal node (w.issue pnObject i op).log := by
    intro side k
    rw [slot_mutate hfits, sideTotal_issue, hinv.nodeID]
    exact Nat.add_le_add_right (hinv.replica_le i side k) _
  refine ⟨fun j => ?_, fun j side => ?_, fun j => ?_, fun e he => ?_⟩
  · rcases eq_or_ne j i with rfl | hj
    · rw [World.issue_replica_self, mutate_nodeID]
      exact hinv.nodeID j
    · rw [w.issue_replica_ne _ _ hj]
      exact hinv.nodeID j
  · rcases eq_or_ne j i with rfl | hj
    · rw [World.issue_replica_self, slot_mutate hfits, sideTotal_issue, hinv.own, hinv.nodeID]
    · rw [w.issue_replica_ne _ _ hj, sideTotal_issue, if_neg fun h => hj (hnode h)]
      exact hinv.own j side
  · rcases eq_or_ne j i with rfl | hj
    · rw [World.issue_replica_self]
      exact hslot
    · rw [w.issue_replica_ne _ _ hj]
      exact (hinv.replica_le j).trans hgrows
  rcases mem_append.mp he with he | he
  · exact (hinv.delta_le e he).trans hgrows
  · obtain rfl := mem_singleton.mp he
    exact (slot_delta_le op _).trans hslot

theorem CounterInvariant.deliver (hinv : CounterInvariant node w) (i : ι)
    {e : Emission ι PnOp PnCounterDelta} (he : e ∈ w.log) :
    CounterInvariant node (w.deliver pnObject i e) := by
  have hmerge : ((w.deliver pnObject i e).replica i).slot = (w.replica i).slot ⊔ e.delta.slot := by
    rw [World.deliver_replica_self]
    exact slot_merge _ _
  refine ⟨fun j => ?_, fun j side => ?_, fun j => ?_, hinv.delta_le⟩
  · rcases eq_or_ne j i with rfl | hj
    · rw [World.deliver_replica_self]
      exact hinv.nodeID j
    · rw [w.deliver_replica_ne _ _ hj]
      exact hinv.nodeID j
  · rcases eq_or_ne j i with rfl | hj
    · rw [hmerge, Pi.sup_apply, Pi.sup_apply, hinv.own]
      exact sup_eq_left.mpr (hinv.delta_le e he side (node j))
    · rw [w.deliver_replica_ne _ _ hj]
      exact hinv.own j side
  rcases eq_or_ne j i with rfl | hj
  · rw [hmerge]
    exact sup_le (hinv.replica_le j) (hinv.delta_le e he)
  · rw [w.deliver_replica_ne _ _ hj]
    exact hinv.replica_le j

theorem counterInvariant_of_reachable (hnode : Function.Injective node)
    (hw : Reachable pnObject (fun i => newPnCounter (node i)) PnOp.Fits w) :
    CounterInvariant node w := by
  induction hw with
  | start =>
    refine ⟨fun _ => rfl, fun i side => ?_, fun i side k => ?_, by simp [World.start]⟩
    · cases side <;> rfl
    · cases side <;> exact Nat.le_refl 0
  | issue i _ _ hfits ih => exact ih.issue hnode i hfits
  | deliver i _ he ih => exact ih.deliver i he

theorem reachable_fits (hnode : Function.Injective node)
    (hw : Reachable pnObject (fun i => newPnCounter (node i)) (fun _ _ => True) w)
    (hbound : ∀ i side, sideTotal node w.log side (node i) ≤ 2 ^ 64 - 1) :
    Reachable pnObject (fun i => newPnCounter (node i)) PnOp.Fits w := by
  induction hw with
  | start => exact .start
  | @issue w i op _ _ ih =>
    simp only [sideTotal_issue] at hbound
    have hw := ih fun j side => by
      have := hbound j side
      omega
    refine .issue i op hw fun side => ?_
    have hinv := counterInvariant_of_reachable hnode hw
    have hside := hbound i side
    rw [if_pos rfl] at hside
    rw [hinv.nodeID, hinv.own]
    exact Nat.lt_of_le_of_lt hside (by decide)
  | deliver i _ he ih => exact .deliver i (ih hbound) he

/-- The replica has received the last delta of a side of a node, if there is one. -/
def ReceivedLast (w : World ι PnCounter PnOp PnCounterDelta) (i j : ι) (side : Side) : Prop :=
  ∀ (n : ℕ) e, w.log[n]? = some e → e.source = j → e.op.touches side = true →
    (∀ (m : ℕ) e', n < m → w.log[m]? = some e' → e'.source = j → e'.op.touches side = false) →
    n ∈ w.applied i

theorem slot_eq_of_receivedLast (hnode : Function.Injective node)
    (hw : Reachable pnObject (fun i => newPnCounter (node i)) PnOp.Fits w) {i j : ι}
    (hreceived : ReceivedLast w i j side) :
    (w.replica i).slot side (node j) = sideTotal node w.log side (node j) := by
  have hinv := counterInvariant_of_reachable hnode hw
  refine le_antisymm (hinv.replica_le i side (node j)) ?_
  rcases exists_last_or_none (fun e => e.source = j ∧ e.op.touches side = true) w.log with
    hnone | ⟨before, e, after, hlog, ⟨rfl, htouches⟩, hafter⟩
  · rw [sideTotal_eq_zero hnode hnone]
    exact Nat.zero_le _
  have he : w.log[before.length]? = some e := by simp [hlog]
  have happlied : before.length ∈ w.applied i := by
    refine hreceived _ e he rfl htouches fun m e' hm he' hsource => ?_
    have hmem : e' ∈ after := by
      rw [hlog, List.getElem?_append_right (by omega)] at he'
      obtain ⟨k, hk⟩ : ∃ k, m - before.length = k + 1 := ⟨m - before.length - 1, by omega⟩
      rw [hk, List.getElem?_cons_succ] at he'
      exact mem_of_getElem? he'
    simpa [hsource] using hafter e' hmem
  -- the delta carries the total up to and including its call, and later calls add nothing
  obtain ⟨w', hw', hinitial, hfits, hdelta, -⟩ := hw.origin he
  rw [hlog, take_left] at hinitial
  have hinv' := counterInvariant_of_reachable hnode hw'
  have htotal : e.delta.slot side (node e.source) = sideTotal node w.log side (node e.source) := by
    rw [hdelta, ← hinv'.nodeID e.source, slot_delta_eq htouches, slot_mutate hfits, if_pos rfl,
      hinv'.nodeID, hinv'.own, hinitial, hlog, sideTotal_append, sideTotal_cons, if_pos rfl,
      sideTotal_eq_zero hnode hafter, Nat.add_zero]
  have hle := Finset.le_sup (f := w.contribution PnCounterDelta.slot) happlied
  rw [← pn_simulation.abs_replica hw i, contribution_eq he] at hle
  exact htotal ▸ hle side (node e.source)

omit [DecidableEq ι] in
theorem sum_sideTotal (keys : Finset Str) (log : List (Emission ι PnOp PnCounterDelta))
    (side : Side) : ∑ k ∈ keys, sideTotal node log side k =
      (log.map fun e => if node e.source ∈ keys then e.op.amount side else 0).sum := by
  induction log with
  | nil => simp [sideTotal]
  | cons e log ih =>
    simp only [sideTotal_cons, Finset.sum_add_distrib, ih, map_cons, sum_cons]
    congr 1
    simp

omit [DecidableEq ι] in
theorem sum_entries_eq {counts : GoMap Str UInt64}
    (hslots : ∀ k, (counts.read k 0).toNat = sideTotal node log side k) :
    (counts.entries.map fun e => e.2.toNat).sum = (log.map fun e => e.op.amount side).sum := by
  have hentries : (counts.entries.map fun e => e.2.toNat) =
      (counts.keys.map fun k => sideTotal node log side k) := by
    rw [AList.keys, List.keys, map_map]
    refine map_congr_left fun e he => ?_
    rw [Function.comp_apply, ← hslots, GoMap.read, AList.mem_lookup_iff.mpr he]
    rfl
  rw [hentries, ← sum_toFinset _ counts.keys_nodup, sum_sideTotal]
  refine congrArg List.sum (map_congr_left fun e he => ?_)
  split_ifs with habsent
  · rfl
  · -- an absent slot is zero, so the calls of its node have added nothing
    have hlookup : counts.lookup (node e.source) = none := by
      rw [AList.lookup_eq_none]
      simpa [AList.mem_keys] using habsent
    have hzero : sideTotal node log side (node e.source) = 0 := by
      rw [← hslots, GoMap.read, hlookup]
      rfl
    have hterm := sum_eq_zero_iff.mp hzero _ (mem_map_of_mem he)
    rw [if_pos rfl] at hterm
    exact hterm.symm

/-- The sum of all amounts that calls have added to a side. -/
def grandTotal (log : List (Emission ι PnOp PnCounterDelta)) (side : Side) : ℕ :=
  (log.map fun e => e.op.amount side).sum

/-- With the last deltas the value is the increments minus the decrements. `Merge` never lowers a
slot. -/
theorem counter_exact (hnode : Function.Injective node)
    (hw : Reachable pnObject (fun i => newPnCounter (node i)) (fun _ _ => True) w)
    (hbound : ∀ i side, sideTotal node w.log side (node i) ≤ 2 ^ 64 - 1) :
    (∀ i, (∀ j side, ReceivedLast w i j side) →
      (w.replica i).value = Int64.ofInt (grandTotal w.log .pos - grandTotal w.log .neg)) ∧
    ∀ (p : PnCounter) (d : PnCounterDelta) side k, p.slot side k ≤ (p.merge d).slot side k := by
  have hfits := reachable_fits hnode hw hbound
  have hinv := counterInvariant_of_reachable hnode hfits
  refine ⟨fun i hreceived => ?_, fun p d side k => ?_⟩
  · have hslots (side : Side) (k : Str) :
        (w.replica i).slot side k = sideTotal node w.log side k := by
      by_cases hk : ∃ j, k = node j
      · obtain ⟨j, rfl⟩ := hk
        exact slot_eq_of_receivedLast hnode hfits (hreceived j side)
      have hzero : sideTotal node w.log side k = 0 := by
        simp [sideTotal, show ∀ j, k ≠ node j from fun j h => hk ⟨j, h⟩]
      rw [hzero]
      exact Nat.le_zero.mp (hzero ▸ hinv.replica_le i side k)
    rw [PnCounter.value, sumCounts_eq, sumCounts_eq, sum_entries_eq (hslots .pos),
      sum_entries_eq (hslots .neg), UInt64.toInt64_ofNat', UInt64.toInt64_ofNat',
      ← Int64.ofInt_eq_ofNat, ← Int64.ofInt_eq_ofNat, ← Int64.ofInt_sub]
    rfl
  · rw [slot_merge]
    exact le_sup_left

end Runs

/-! ## A snapshot delivered -/

/-- `a` has incremented by 5, `b` has decremented by 3, and `b` has received the increment. -/
def bothCounted : World Site PnCounter PnOp PnCounterDelta :=
  let start : World Site PnCounter PnOp PnCounterDelta :=
    World.start fun i => newPnCounter (twoNames i)
  ((start.issue pnObject .a (.increment 5)).issue pnObject .b (.decrement 3)).deliver pnObject .b
    (start.emission pnObject .a (.increment 5))

/-- `b` has then taken a snapshot, and `a` has received it. -/
def snapshotReceived : World Site PnCounter PnOp PnCounterDelta :=
  (bothCounted.issue pnObject .b .state).deliver pnObject .a
    (bothCounted.emission pnObject .b .state)

/-- The snapshot carries the last delta of `b`, so `a` has the exact value. -/
theorem snapshotReceived_value : (snapshotReceived.replica .a).value = 2 := by
  have hw : Reachable pnObject (fun i => newPnCounter (twoNames i)) (fun _ _ => True)
      snapshotReceived := by
    refine .deliver Site.a (.issue Site.b _ (.deliver Site.b (.issue Site.b _ (.issue Site.a _ .start trivial) trivial)
      mem_cons_self) trivial) ?_
    exact mem_cons_of_mem _ (mem_cons_of_mem _ mem_cons_self)
  have hbound : ∀ i side,
      sideTotal twoNames snapshotReceived.log side (twoNames i) ≤ 2 ^ 64 - 1 := by
    intro i side
    cases i <;> cases side <;> decide
  refine ((counter_exact twoNames_injective hw hbound).1 .a fun j side n e he _ _ _ => ?_).trans
    (by decide)
  have happlied : snapshotReceived.applied .a = Finset.range snapshotReceived.log.length := by
    decide
  rw [happlied, Finset.mem_range]
  exact (List.getElem?_eq_some_iff.mp he).1

end HelixCluster.DeltaCrdt
