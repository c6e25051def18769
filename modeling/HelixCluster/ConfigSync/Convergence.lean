import HelixCluster.ConfigSync.Store
import HelixCluster.Crdt.OrSetRuns
import HelixCluster.Lib.Incorporated
import HelixCluster.Pair

/-!
# Convergence of configuration stores

Stores with IDs of their own take calls and merge each other's states, of any age. Those that have
incorporated the same calls agree (`stores_converge`).
-/

namespace HelixCluster.ConfigSync

open Crdt StateNetwork

/-- The calls of a store. -/
inductive StoreOp where
  | set (key value : Str) (timestamp : UInt64)
  | delete (key : Str)
  deriving DecidableEq

/-- What a call does to the live keys. -/
def StoreOp.orSetOp : StoreOp → OrSetOp
  | set key _ _ => .add key
  | delete key => .remove key

/-- The call is a `Set`. -/
def StoreOp.isSet : StoreOp → Bool
  | set _ _ _ => true
  | delete _ => false

variable {ι : Type}

/-- The store as a replicated object. -/
def storeObject (ι : Type) : StateObject ι ConfigStore StoreOp where
  apply _
    | .set key value timestamp, s => s.set key value timestamp
    | .delete key, s => s.delete key
  merge := ConfigStore.merge

/-- The empty stores. -/
def newStores (node : ι → Str) (i : ι) : ConfigStore := newConfigStore (node i)

/-! ### What the operations gain -/

def addFacts (s : ConfigStore) : Set (Str × Tag) := {x | x.2 ∈ s.liveKeys.adds.tags x.1}

def tombFacts (s : ConfigStore) : Set (Str × Tag) := {x | x.2 ∈ s.liveKeys.tombs.tags x.1}

/-- The stamps that a register beats or has. -/
def stampFacts (s : ConfigStore) : Set (Str × Stamp) :=
  {x | (x.2 : WithBot Stamp) ≤ (reg s.regs x.1).stamp}

/-- The tag of a `Set`. -/
def newTag (s : ConfigStore) : Tag := s.liveKeys.nextTag s.replica

def addGain (_ : ι) : StoreOp → ConfigStore → Set (Str × Tag)
  | .set key _ _, s => {(key, newTag s)}
  | .delete _, _ => ∅

def tombGain (_ : ι) : StoreOp → ConfigStore → Set (Str × Tag)
  | .set _ _ _, _ => ∅
  | .delete key, s => {x | x.1 = key ∧ x.2 ∈ s.liveKeys.adds.tags key}

def stampGain (_ : ι) : StoreOp → ConfigStore → Set (Str × Stamp)
  | .set key _ timestamp, s => {x | x.1 = key ∧ x.2 ≤ stampOf timestamp s.replica}
  | .delete _, _ => ∅

variable {node : ι → Str}

theorem addGains : Gains (storeObject ι) (newStores node) addFacts addGain where
  start _ := Set.eq_empty_of_forall_notMem fun x => Finset.notMem_empty x.2
  apply i op s := by
    ext ⟨k, t⟩
    cases op with
    | set key value timestamp =>
      simp only [addFacts, storeObject, ConfigStore.set, OrSet.adds_add, addGain, newTag,
        Set.mem_union, Set.mem_ofPred_eq, Set.mem_singleton_iff, Prod.mk.injEq]
      rcases eq_or_ne k key with rfl | hk
      · simp [or_comm]
      · simp [hk]
    | delete key =>
      simp only [addFacts, storeObject, ConfigStore.delete, OrSet.adds_remove, addGain, Set.union_empty]
  merge s t := by
    ext ⟨k, x⟩
    simp only [addFacts, storeObject, ConfigStore.merge, OrSet.adds_merge, Set.mem_union,
      Set.mem_ofPred_eq, Finset.mem_union]

theorem tombGains : Gains (storeObject ι) (newStores node) tombFacts tombGain where
  start _ := Set.eq_empty_of_forall_notMem fun x => Finset.notMem_empty x.2
  apply i op s := by
    ext ⟨k, t⟩
    cases op with
    | set key value timestamp =>
      simp only [tombFacts, storeObject, ConfigStore.set, tombGain, Set.union_empty]
      rfl
    | delete key =>
      simp only [tombFacts, storeObject, ConfigStore.delete, OrSet.tombs_remove, tombGain,
        Set.mem_union, Set.mem_ofPred_eq]
      rcases eq_or_ne k key with rfl | hk
      · simp
      · simp [hk]
  merge s t := by
    ext ⟨k, x⟩
    simp only [tombFacts, storeObject, ConfigStore.merge, OrSet.tombs_merge, Set.mem_union,
      Set.mem_ofPred_eq, Finset.mem_union]

theorem stampGains : Gains (storeObject ι) (newStores node) stampFacts stampGain where
  start _ := by
    ext ⟨k, x⟩
    exact iff_of_false (WithBot.not_coe_le_bot x) (Set.notMem_empty _)
  apply i op s := by
    ext ⟨k, x⟩
    cases op with
    | set key value timestamp =>
      simp only [stampFacts, storeObject, ConfigStore.set, reg_insert, stampGain, Set.mem_union,
        Set.mem_ofPred_eq]
      rcases eq_or_ne k key with rfl | hk
      · rw [if_pos rfl, LwwRegister.stamp_set, le_max_iff, WithBot.coe_le_coe]
        simp
      · simp [hk]
    | delete key => simp only [stampFacts, storeObject, ConfigStore.delete, stampGain, Set.union_empty]
  merge s t := by
    ext ⟨k, x⟩
    simp only [stampFacts, storeObject, ConfigStore.merge, reg_merge, LwwRegister.stamp_merge,
      le_max_iff, Set.mem_union, Set.mem_ofPred_eq]

/-! ### Runs -/

/-- A call of a run. -/
abbrev StoreCall (ι : Type) := Call ι (Traced ι ConfigStore) StoreOp

variable [DecidableEq ι]

/-- The number of `Set` calls of a store. -/
def setCount (i : ι) (calls : List (StoreCall ι)) : ℕ :=
  calls.countP fun c => decide (c.caller = i) && c.op.isSet

variable {w : World ι (Traced ι ConfigStore) StoreOp}
  (hw : Reachable (traced (storeObject ι)) (untouched (newStores node)) w)
include hw

theorem replica_kept :
    (∀ i, (w.replica i).state.replica = node i) ∧ ∀ c ∈ w.calls, c.before.state.replica = node c.caller := by
  refine hw.kept (f := fun s => s.state.replica) (fun i op s => ?_) (fun _ _ => rfl)
  cases op <;> rfl

theorem liveKeys_reachable :
    Reachable (orSetObject node) (fun _ => newOrSet) (w.map (fun s => s.state.liveKeys) StoreOp.orSetOp) := by
  have hmerge (s t : Traced ι ConfigStore) : ((traced (storeObject ι)).merge s t).state.liveKeys =
      (orSetObject node).merge s.state.liveKeys t.state.liveKeys := rfl
  refine Reachable.map (f := fun s => s.state.liveKeys) (fun {w} hw i op => ?_) hmerge hw
  have hid := (replica_kept hw).1 i
  cases op with
  | set key value timestamp =>
    show (w.replica i).state.liveKeys.add key (w.replica i).state.replica = _
    rw [hid]
    rfl
  | delete key => rfl

variable {key : Str}

theorem call_eq_of_newTag_eq (hnode : Function.Injective node)
    (hcount : ∀ i, setCount i w.calls < 2 ^ 64) {c d : StoreCall ι}
    (hc : c ∈ w.calls) (hd : d ∈ w.calls) {value value' : Str} {ts ts' : UInt64}
    (hop : c.op = .set key value ts) (hop' : d.op = .set key value' ts')
    (htag : newTag c.before.state = newTag d.before.state) : c = d := by
  have hadds (i : ι) : addCount i (w.map (fun s => s.state.liveKeys) StoreOp.orSetOp).calls =
      setCount i w.calls := by
    refine List.countP_map.trans (List.countP_congr fun c _ => ?_)
    cases hop : c.op <;> simp [Call.map, hop, StoreOp.orSetOp, OrSetOp.isAdd, StoreOp.isSet]
  have hwrap := noWrap_of_addCount hnode (liveKeys_reachable hw) fun i => hadds i ▸ hcount i
  have hfresh := List.pairwise_map.mp (tags_fresh hnode (liveKeys_reachable hw) hwrap)
  have hreplica := (replica_kept hw).2
  rw [newTag, newTag, hreplica c hc, hreplica d hd] at htag
  have hadd := congrArg StoreOp.orSetOp hop
  have hadd' := congrArg StoreOp.orSetOp hop'
  by_contra hne
  rcases pairwise_cases hfresh hc hd hne with hclash | hclash
  · exact hclash key key hadd hadd' htag
  · exact hclash key key hadd' hadd htag.symm

/-- A call has written the register of a key. -/
def Wrote (c : StoreCall ι) (key : Str) (r : LwwRegister) : Prop :=
  ∃ value timestamp, c.op = .set key value timestamp ∧
    ¬(reg c.before.state.regs key).dominates timestamp c.before.state.replica = true ∧
    r = ⟨value, timestamp, c.before.state.replica, true⟩

variable {s : Traced ι ConfigStore}

theorem exists_wrote (hs : w.Snapshot (untouched (newStores node)) s)
    (hset : (reg s.state.regs key).isSet = true) :
    ∃ c ∈ w.calls, Wrote c key (reg s.state.regs key) := by
  revert key
  refine hw.forall_snapshot (P := fun calls s => ∀ {key}, (reg s.state.regs key).isSet = true →
    ∃ c ∈ calls, Wrote c key (reg s.state.regs key)) (fun _ _ hset => ?_) (fun calls d s h key hset => ?_)
    (fun calls i op s h key hset => ?_) (fun calls s t h h' key hset => ?_) hs
  · cases hset
  · obtain ⟨c, hc, hwrote⟩ := h hset
    exact ⟨c, List.mem_append_left _ hc, hwrote⟩
  · have hold (hset : (reg s.state.regs key).isSet = true) :
        ∃ c ∈ calls ++ [⟨i, op, s⟩], Wrote c key (reg s.state.regs key) := by
      obtain ⟨c, hc, hwrote⟩ := h hset
      exact ⟨c, List.mem_append_left _ hc, hwrote⟩
    cases op with
    | delete k => exact hold hset
    | set k value timestamp =>
      simp only [traced, storeObject, ConfigStore.set, reg_insert] at hset ⊢
      split_ifs at hset with hk
      · subst hk
        rw [if_pos rfl]
        unfold LwwRegister.set at hset ⊢
        split_ifs at hset with hdominated
        · rw [if_pos hdominated]
          exact hold hset
        · rw [if_neg hdominated]
          exact ⟨_, List.mem_append_right _ (List.mem_singleton_self _), value, timestamp, rfl,
            hdominated, rfl⟩
      · rw [if_neg hk]
        exact hold hset
  · simp only [traced, storeObject, ConfigStore.merge, reg_merge] at hset ⊢
    rcases (reg s.state.regs key).merge_eq (reg t.state.regs key) with heq | heq
    · rw [heq] at hset ⊢
      exact h hset
    · rw [heq] at hset ⊢
      exact h' hset

theorem own_stamps : w.calls.Pairwise fun c d => c.caller = d.caller → ∀ key value timestamp,
    c.op = .set key value timestamp →
      (stampOf timestamp c.before.state.replica : WithBot Stamp) ≤ (reg d.before.state.regs key).stamp := by
  refine (hw.calls_ordered (R := fun c s => ∀ key value timestamp, c.op = .set key value timestamp →
    (stampOf timestamp c.before.state.replica : WithBot Stamp) ≤ (reg s.state.regs key).stamp) ?_ ?_ ?_).2
  · rintro i op s key value timestamp rfl
    simp only [traced, storeObject, ConfigStore.set, reg_insert, if_true, LwwRegister.stamp_set]
    exact le_max_right _ _
  · intro c op s h key value timestamp hop
    have hle := h key value timestamp hop
    cases op with
    | delete k => exact hle
    | set k v ts =>
      simp only [traced, storeObject, ConfigStore.set, reg_insert]
      split_ifs with hk
      · subst hk
        rw [LwwRegister.stamp_set]
        exact le_max_of_le_left hle
      · exact hle
  intro c s t h key value timestamp hop
  simp only [traced, storeObject, ConfigStore.merge, reg_merge, LwwRegister.stamp_merge]
  exact le_max_of_le_left (h key value timestamp hop)

/-- Two calls that have written with the same stamp are one, since the later one would have been
dropped. -/
theorem eq_of_wrote (hnode : Function.Injective node) {c d : StoreCall ι} (hc : c ∈ w.calls)
    (hd : d ∈ w.calls) {r r' : LwwRegister} (hr : Wrote c key r) (hr' : Wrote d key r')
    (hstamp : r.stamp = r'.stamp) : r = r' := by
  obtain ⟨value, ts, hop, hfree, rfl⟩ := hr
  obtain ⟨value', ts', hop', hfree', rfl⟩ := hr'
  have hsame : ts = ts' ∧ c.before.state.replica = d.before.state.replica :=
    stampOf_inj (WithBot.coe_injective hstamp)
  obtain ⟨rfl, hid⟩ := hsame
  have hreplica := (replica_kept hw).2
  have hcaller : c.caller = d.caller := by
    rw [hreplica c hc, hreplica d hd] at hid
    exact hnode hid
  by_cases heq : c = d
  · subst heq
    rw [hop] at hop'
    obtain ⟨-, rfl, -⟩ := StoreOp.set.inj hop'
    rfl
  rcases pairwise_cases (own_stamps hw) hc hd heq with hbefore | hbefore
  · have hle := hbefore hcaller key value ts hop
    rw [hid] at hle
    exact absurd ((LwwRegister.dominates_iff ..).mpr hle) hfree'
  have hle := hbefore hcaller.symm key value' ts hop'
  rw [← hid] at hle
  exact absurd ((LwwRegister.dominates_iff ..).mpr hle) hfree

theorem read_eq_of_stamp_eq (hnode : Function.Injective node) {t : Traced ι ConfigStore}
    (hs : w.Snapshot (untouched (newStores node)) s)
    (ht : w.Snapshot (untouched (newStores node)) t)
    (hstamp : (reg s.state.regs key).stamp = (reg t.state.regs key).stamp) :
    (reg s.state.regs key).read = (reg t.state.regs key).read := by
  by_cases hbot : (reg s.state.regs key).stamp = ⊥
  · rw [(LwwRegister.read_eq_none_iff _).mpr hbot, (LwwRegister.read_eq_none_iff _).mpr (hstamp ▸ hbot)]
  obtain ⟨c, hc, hwrote⟩ := exists_wrote hw hs (LwwRegister.isSet_of_stamp hbot)
  obtain ⟨d, hd, hwrote'⟩ := exists_wrote hw ht (LwwRegister.isSet_of_stamp (hstamp ▸ hbot))
  rw [eq_of_wrote hw hnode hc hd hwrote hwrote' hstamp]

/-! ### The snapshots -/

section

variable (hs : w.Snapshot (untouched (newStores node)) s)

include hs

theorem mem_adds_iff {t : Tag} : t ∈ s.state.liveKeys.adds.tags key ↔ ∃ c ∈ w.calls, c.id ∈ s.ops ∧
      (∃ value timestamp, c.op = .set key value timestamp) ∧ t = newTag c.before.state := by
  have hmem := addGains.mem_iff hw hs (x := (key, t))
  refine hmem.trans (exists_congr fun c => and_congr_right fun _ => and_congr_right fun _ => ?_)
  cases hop : c.op with
  | set k value timestamp =>
    simp only [addGain, Set.mem_singleton_iff, Prod.mk.injEq]
    constructor
    · rintro ⟨rfl, rfl⟩
      exact ⟨⟨value, timestamp, rfl⟩, rfl⟩
    · rintro ⟨⟨value', timestamp', hset⟩, rfl⟩
      exact ⟨(StoreOp.set.inj hset).1.symm, rfl⟩
  | delete k => simp [addGain]

theorem mem_tombs_iff {t : Tag} :
    t ∈ s.state.liveKeys.tombs.tags key ↔ ∃ d ∈ w.calls, d.id ∈ s.ops ∧ d.op = .delete key ∧
      t ∈ d.before.state.liveKeys.adds.tags key := by
  have hmem := tombGains.mem_iff hw hs (x := (key, t))
  refine hmem.trans (exists_congr fun d => and_congr_right fun _ => and_congr_right fun _ => ?_)
  cases hop : d.op with
  | set k value timestamp => simp [tombGain]
  | delete k =>
    simp only [tombGain, Set.mem_ofPred_eq, StoreOp.delete.injEq]
    constructor
    · rintro ⟨rfl, ht⟩
      exact ⟨rfl, ht⟩
    · rintro ⟨rfl, ht⟩
      exact ⟨rfl, ht⟩

theorem read_ne_none
    (hlive : s.state.liveKeys.contains key = true) : (reg s.state.regs key).read ≠ none := by
  obtain ⟨t, ht, -⟩ := (OrSet.contains_iff _ key).mp hlive
  obtain ⟨c, hc, hid, ⟨value, timestamp, hop⟩, -⟩ := (mem_adds_iff hw hs).mp ht
  have hstamp : (key, stampOf timestamp c.before.state.replica) ∈ stampFacts s.state := by
    refine (stampGains.mem_iff hw hs).mpr ⟨c, hc, hid, ?_⟩
    rw [hop]
    exact ⟨rfl, le_refl _⟩
  intro hnone
  rw [LwwRegister.read_eq_none_iff] at hnone
  rw [stampFacts, Set.mem_ofPred_eq, hnone] at hstamp
  exact WithBot.not_coe_le_bot _ hstamp

end

theorem lookup_eq_none_iff (hnode : Function.Injective node)
    (hcount : ∀ i, setCount i w.calls < 2 ^ 64)
    (hs : w.Snapshot (untouched (newStores node)) s) (key : Str) :
    s.state.snapshot.lookup key = none ↔
      ∀ c ∈ w.calls, c.id ∈ s.ops → (∃ value timestamp, c.op = .set key value timestamp) →
        ∃ d ∈ w.calls, d.id ∈ s.ops ∧ d.op = .delete key ∧ c.id ∈ d.before.ops := by
  have hdead : s.state.snapshot.lookup key = none ↔ ¬s.state.liveKeys.contains key = true := by
    rw [ConfigStore.lookup_snapshot, ConfigStore.get_eq]
    split_ifs with hlive
    · exact iff_of_false (read_ne_none hw hs hlive) (not_not.mpr hlive)
    · exact iff_of_true rfl hlive
  rw [hdead, OrSet.contains_iff]
  push Not
  constructor
  · intro htombs c hc hid hset
    obtain ⟨d, hd, hdid, hdelete, hseen⟩ :=
      (mem_tombs_iff hw hs).mp (htombs _ ((mem_adds_iff hw hs).mpr ⟨c, hc, hid, hset, rfl⟩))
    obtain ⟨c', hc', hid', ⟨value', timestamp', hop'⟩, htag⟩ :=
      (mem_adds_iff hw (hw.call_snapshot hd)).mp hseen
    obtain ⟨value, timestamp, hop⟩ := hset
    obtain rfl := call_eq_of_newTag_eq hw hnode hcount hc hc' hop hop' htag
    exact ⟨d, hd, hdid, hdelete, hid'⟩
  intro hseen t ht
  obtain ⟨c, hc, hid, hset, rfl⟩ := (mem_adds_iff hw hs).mp ht
  obtain ⟨d, hd, hdid, hdelete, hbefore⟩ := hseen c hc hid hset
  exact (mem_tombs_iff hw hs).mpr ⟨d, hd, hdid, hdelete,
    (mem_adds_iff hw (hw.call_snapshot hd)).mpr ⟨c, hc, hbefore, hset, rfl⟩⟩

theorem lookup_eq_of_ops_eq (hnode : Function.Injective node) {t : Traced ι ConfigStore}
    (hs : w.Snapshot (untouched (newStores node)) s)
    (ht : w.Snapshot (untouched (newStores node)) t) (hops : s.ops = t.ops) (key : Str) :
    s.state.snapshot.lookup key = t.state.snapshot.lookup key := by
  have hadds (x : Tag) : x ∈ s.state.liveKeys.adds.tags key ↔ x ∈ t.state.liveKeys.adds.tags key := by
    rw [mem_adds_iff hw hs, mem_adds_iff hw ht, hops]
  have htombs (x : Tag) : x ∈ s.state.liveKeys.tombs.tags key ↔ x ∈ t.state.liveKeys.tombs.tags key := by
    rw [mem_tombs_iff hw hs, mem_tombs_iff hw ht, hops]
  have hlive : s.state.liveKeys.contains key = t.state.liveKeys.contains key := by
    rw [Bool.eq_iff_iff, OrSet.contains_iff, OrSet.contains_iff]
    simp only [hadds, htombs]
  have hfacts := stampGains.facts_eq hw hs ht hops
  have hstamp : (reg s.state.regs key).stamp = (reg t.state.regs key).stamp := by
    refine stamp_eq fun x => ?_
    exact Set.ext_iff.mp hfacts (key, x)
  rw [ConfigStore.lookup_snapshot, ConfigStore.lookup_snapshot, ConfigStore.get_eq, ConfigStore.get_eq, hlive,
    read_eq_of_stamp_eq hw hnode hs ht hstamp]

/-- States with the same operations have one `Snapshot`, where a key is absent if each `Set` was
seen by a `Delete`. -/
theorem stores_converge (hnode : Function.Injective node) :
    (w.calls.Pairwise fun c d => c.id ≠ d.id) ∧
    (∀ s t, w.Snapshot (untouched (newStores node)) s → w.Snapshot (untouched (newStores node)) t →
      s.ops = t.ops → ∀ key, s.state.snapshot.lookup key = t.state.snapshot.lookup key) ∧
    ((∀ i, setCount i w.calls < 2 ^ 64) →
      ∀ s, w.Snapshot (untouched (newStores node)) s → ∀ key, s.state.snapshot.lookup key = none ↔
        ∀ c ∈ w.calls, c.id ∈ s.ops → (∃ value timestamp, c.op = .set key value timestamp) →
          ∃ d ∈ w.calls, d.id ∈ s.ops ∧ d.op = .delete key ∧ c.id ∈ d.before.ops) := by
  refine ⟨hw.ids_distinct, fun s t hs ht hops key => ?_, fun hcount s hs key => ?_⟩
  · exact lookup_eq_of_ops_eq hw hnode hs ht hops key
  · exact lookup_eq_none_iff hw hnode hcount hs key

omit hw

/-- `a` sets `k`, and `b` merges it. -/
def setMerged : World Site (Traced Site ConfigStore) StoreOp :=
  let written := (World.start (untouched (newStores twoNames))).call (traced (storeObject Site)) .a
    (.set [107] [118] 5)
  written.mergeState (traced (storeObject Site)) .b (written.replica .a)

theorem setMerged_reachable :
    Reachable (traced (storeObject Site)) (untouched (newStores twoNames)) setMerged := by
  have hwritten : Reachable (traced (storeObject Site)) (untouched (newStores twoNames))
      ((World.start (untouched (newStores twoNames))).call (traced (storeObject Site)) .a
        (.set [107] [118] 5)) := .call Site.a _ .start
  exact .merge Site.b hwritten (hwritten.replica_snapshot .a)

/-- Both stores have the value. -/
theorem setMerged_converged : (setMerged.replica .a).state.snapshot.lookup [107] = some [118] ∧
      (setMerged.replica .a).state.snapshot.lookup [107] =
        (setMerged.replica .b).state.snapshot.lookup [107] :=
  ⟨by decide,
    (stores_converge setMerged_reachable twoNames_injective).2.1 _ _ (setMerged_reachable.replica_snapshot .a)
      (setMerged_reachable.replica_snapshot .b) rfl [107]⟩

end HelixCluster.ConfigSync
