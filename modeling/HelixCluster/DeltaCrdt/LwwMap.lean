import HelixCluster.Lib.DeltaNetwork
import HelixCluster.Lib.GoMap
import HelixCluster.Pair

/-!
# The last-writer-wins map

The `LWWMap` of `pkg/deltacrdt/lwwmap.go`.
-/

namespace HelixCluster.DeltaCrdt

open GoMap List DeltaNetwork

/-- A map entry with its logical timestamp and writer identity. -/
structure LwwEntry where
  value : Str
  ts : UInt64
  nodeID : Str
  tombstone : Bool
  deriving DecidableEq

structure LwwMap where
  nodeID : Str
  entries : GoMap Str LwwEntry

structure LwwMapDelta where
  entries : GoMap Str LwwEntry

def newLwwMap (nodeID : Str) : LwwMap where
  nodeID := nodeID
  entries := ∅

def lwwWins (candidate incumbent : LwwEntry) : Bool :=
  if candidate.ts ≠ incumbent.ts then candidate.ts > incumbent.ts
  else if candidate.nodeID = incumbent.nodeID then candidate.tombstone && !incumbent.tombstone
  else candidate.nodeID > incumbent.nodeID

namespace LwwMap

/-- The local write of an entry and its delta. -/
def write (m : LwwMap) (key : Str) (e : LwwEntry) : LwwMap × LwwMapDelta :=
  ({ m with entries := m.entries.insert key e }, ⟨AList.singleton key e⟩)

def put (m : LwwMap) (key value : Str) (ts : UInt64) : LwwMap × LwwMapDelta :=
  m.write key { value, ts, nodeID := m.nodeID, tombstone := false }

def delete (m : LwwMap) (key : Str) (ts : UInt64) : LwwMap × LwwMapDelta :=
  m.write key { value := [], ts, nodeID := m.nodeID, tombstone := true }

/-- The body of the loop of `LWWMap.Merge`. -/
def mergeEntry (entries : GoMap Str LwwEntry) (key : Str) (incoming : LwwEntry) :
    GoMap Str LwwEntry :=
  match entries.lookup key with
  | none => entries.insert key incoming
  | some existing => if lwwWins incoming existing then entries.insert key incoming else entries

def merge (m : LwwMap) (d : LwwMapDelta) : LwwMap :=
  { m with entries := d.entries.foldl mergeEntry m.entries }

def get (m : LwwMap) (key : Str) : Str × Bool :=
  match m.entries.lookup key with
  | none => ([], false)
  | some e => if e.tombstone then ([], false) else (e.value, true)

end LwwMap

/-- The calls of a replica. -/
inductive LwwOp where
  | put (key value : Str) (ts : UInt64)
  | delete (key : Str) (ts : UInt64)
  deriving DecidableEq

namespace LwwOp

/-- The key that a call writes. -/
def key : LwwOp → Str
  | put key _ _ => key
  | delete key _ => key

/-- The entry that a call writes on the replica with this node ID. -/
def entry (nodeID : Str) : LwwOp → LwwEntry
  | put _ value ts => { value, ts, nodeID, tombstone := false }
  | delete _ ts => { value := [], ts, nodeID, tombstone := true }

/-- Run a call. -/
def run (m : LwwMap) : LwwOp → LwwMap × LwwMapDelta
  | put key value ts => m.put key value ts
  | delete key ts => m.delete key ts

theorem entry_nodeID (op : LwwOp) (nodeID : Str) : (op.entry nodeID).nodeID = nodeID := by
  cases op <;> rfl

theorem run_eq (op : LwwOp) (m : LwwMap) : op.run m = m.write op.key (op.entry m.nodeID) := by
  cases op <;> rfl

/-- The local write meets no entry for its key, or one that it beats or repeats. -/
def TakesEffect (op : LwwOp) (m : LwwMap) : Prop :=
  ∀ held ∈ m.entries.lookup op.key,
    lwwWins (op.entry m.nodeID) held = true ∨ op.entry m.nodeID = held

end LwwOp

/-- The map as a replicated object. -/
def lwwObject : DeltaObject LwwMap LwwOp LwwMapDelta where
  mutate op m := op.run m
  merge := LwwMap.merge
  full _ := false

/-! ## The order of the entries -/

/-- The part of an entry that `lwwWins` compares. -/
def LwwEntry.rank (e : LwwEntry) : ℕ ×ₗ Str ×ₗ Bool :=
  toLex (e.ts.toNat, toLex (e.nodeID, e.tombstone))

theorem lwwWins_iff (candidate incumbent : LwwEntry) :
    lwwWins candidate incumbent = true ↔ incumbent.rank < candidate.rank := by
  simp only [lwwWins, LwwEntry.rank, Prod.Lex.toLex_lt_toLex]
  by_cases hts : candidate.ts = incumbent.ts
  · by_cases hnode : candidate.nodeID = incumbent.nodeID
    · cases candidate.tombstone <;> cases incumbent.tombstone <;> simp [hts, hnode]
    · simp [hts, hnode, Ne.symm hnode]
  · have hne : candidate.ts.toNat ≠ incumbent.ts.toNat := fun h => hts (UInt64.toNat_inj.mp h)
    simp [hts, Ne.symm hne, UInt64.lt_iff_toNat_lt]

theorem LwwEntry.nodeID_eq_of_rank_eq {e e' : LwwEntry} (h : e.rank = e'.rank) :
    e.nodeID = e'.nodeID := by
  simp only [rank, EmbeddingLike.apply_eq_iff_eq, Prod.mk.injEq] at h
  exact h.2.1

/-- The position in a linear order of all entries that extends `lwwWins`. -/
def LwwEntry.position (e : LwwEntry) : (ℕ ×ₗ Str ×ₗ Bool) ×ₗ Str :=
  toLex (e.rank, e.value)

theorem LwwEntry.position_injective : Function.Injective LwwEntry.position := by
  rintro ⟨value, ts, nodeID, tombstone⟩ ⟨value', ts', nodeID', tombstone'⟩ h
  simp only [position, rank, EmbeddingLike.apply_eq_iff_eq, Prod.mk.injEq] at h
  obtain ⟨⟨hts, hnode, htombstone⟩, hvalue⟩ := h
  rw [UInt64.toNat_inj.mp hts, hnode, htombstone, hvalue]

/-- The position of an entry that may be absent, which is below every entry. -/
def place : Option LwwEntry → WithBot ((ℕ ×ₗ Str ×ₗ Bool) ×ₗ Str)
  | none => ⊥
  | some e => e.position

theorem place_injective : Function.Injective place := by
  intro a b h
  cases a <;> cases b
  · rfl
  · exact absurd h WithBot.bot_ne_coe
  · exact absurd h WithBot.coe_ne_bot
  · rw [LwwEntry.position_injective (WithBot.coe_injective h)]

/-- The positions of the entries of a map. -/
def positions (entries : GoMap Str LwwEntry) (key : Str) :
    WithBot ((ℕ ×ₗ Str ×ₗ Bool) ×ₗ Str) :=
  place (entries.lookup key)

theorem place_le {old : Option LwwEntry} {e : LwwEntry}
    (h : ∀ held ∈ old, held.rank < e.rank ∨ held = e) : place old ≤ place (some e) := by
  cases old with
  | none => exact bot_le
  | some held =>
    refine WithBot.coe_le_coe.mpr ?_
    rcases h held rfl with hlt | rfl
    · exact (Prod.Lex.toLex_lt_toLex.mpr (.inl hlt)).le
    · exact le_refl _

/-! ## Lookups -/

/-- What the loop body of `Merge` leaves at the key of the incoming entry. -/
def winner (incoming : LwwEntry) : Option LwwEntry → Option LwwEntry
  | none => some incoming
  | some existing => if lwwWins incoming existing then some incoming else some existing

theorem mergeEntry_updates : GoMap.Updates LwwMap.mergeEntry winner := by
  intro entries key incoming j
  by_cases hj : j = key
  · subst hj
    rw [if_pos rfl, LwwMap.mergeEntry]
    cases hlookup : entries.lookup j with
    | none => simp [winner]
    | some existing => cases hwins : lwwWins incoming existing <;> simp [winner, hwins, hlookup]
  rw [if_neg hj, LwwMap.mergeEntry]
  cases entries.lookup key with
  | none => exact AList.lookup_insert_ne hj
  | some existing => cases hwins : lwwWins incoming existing <;>
      simp [hwins, AList.lookup_insert_ne hj]

theorem lookup_merge_singleton (m : LwwMap) (key : Str) (e : LwwEntry) (j : Str) :
    (m.merge ⟨AList.singleton key e⟩).entries.lookup j =
      if j = key then winner e (m.entries.lookup j) else m.entries.lookup j := by
  rw [LwwMap.merge, lookup_foldl_update mergeEntry_updates, lookup_singleton_if]
  by_cases h : j = key <;> simp [h]

/-! ## The invariant of the runs whose writes take effect -/

section Runs

variable {ι : Type} [DecidableEq ι] (node : ι → Str)

/-- The entry that an emission carries. -/
def written (e : Emission ι LwwOp LwwMapDelta) : LwwEntry := e.op.entry (node e.source)

/-- A replica holds entries of the log, its own writes or larger ones, and entries that tie are
equal. -/
structure LwwInvariant (w : World ι LwwMap LwwOp LwwMapDelta) : Prop where
  nodeID : ∀ i, (w.replica i).nodeID = node i
  delta : ∀ e ∈ w.log, e.delta = ⟨AList.singleton e.op.key (written node e)⟩
  held : ∀ i k, ∀ h ∈ (w.replica i).entries.lookup k, ∃ e ∈ w.log, e.op.key = k ∧ written node e = h
  own : ∀ e ∈ w.log, ∃ h ∈ (w.replica e.source).entries.lookup e.op.key,
    (written node e).rank < h.rank ∨ written node e = h
  unique : ∀ e ∈ w.log, ∀ e' ∈ w.log, e.op.key = e'.op.key →
    (written node e).rank = (written node e').rank → written node e = written node e'

variable {node} {w : World ι LwwMap LwwOp LwwMapDelta}

omit [DecidableEq ι] in
theorem LwwInvariant.mutate_eq (hinv : LwwInvariant node w) (i : ι) (op : LwwOp) :
    lwwObject.mutate op (w.replica i) = (w.replica i).write op.key (op.entry (node i)) := by
  rw [← hinv.nodeID i]
  exact op.run_eq _

theorem LwwInvariant.lookup_issue (hinv : LwwInvariant node w) (i j : ι) (op : LwwOp)
    (k : Str) : ((w.issue lwwObject i op).replica j).entries.lookup k =
      if j = i ∧ k = op.key then some (op.entry (node i)) else (w.replica j).entries.lookup k := by
  by_cases hj : j = i
  · subst hj
    rw [World.issue_replica_self, hinv.mutate_eq]
    simp only [LwwMap.write, lookup_insert_if, true_and]
  · rw [w.issue_replica_ne _ _ hj, if_neg fun h => hj h.1]

variable {e : Emission ι LwwOp LwwMapDelta}

omit [DecidableEq ι] in
theorem LwwInvariant.own_below (hinv : LwwInvariant node w) {op : LwwOp} (he : e ∈ w.log)
    (heffect : op.TakesEffect (w.replica e.source)) (hkey : e.op.key = op.key) :
    (written node e).rank < (op.entry (node e.source)).rank ∨
      written node e = op.entry (node e.source) := by
  rw [LwwOp.TakesEffect, hinv.nodeID] at heffect
  obtain ⟨h, hh, hle⟩ := hinv.own e he
  rw [hkey] at hh
  rcases heffect h hh with hwins | heq
  · rw [lwwWins_iff] at hwins
    rcases hle with hlt | heq
    · exact .inl (hlt.trans hwins)
    · exact .inl (heq ▸ hwins)
  · exact heq ▸ hle

omit [DecidableEq ι] in
theorem LwwInvariant.eq_of_tie (hnode : Function.Injective node) (hinv : LwwInvariant node w)
    {i : ι} {op : LwwOp} (heffect : op.TakesEffect (w.replica i)) (he : e ∈ w.log)
    (hkey : e.op.key = op.key) (hrank : (written node e).rank = (op.entry (node i)).rank) :
    written node e = op.entry (node i) := by
  have hid := LwwEntry.nodeID_eq_of_rank_eq hrank
  rw [written, LwwOp.entry_nodeID, LwwOp.entry_nodeID] at hid
  obtain rfl := hnode hid
  exact (hinv.own_below he heffect hkey).resolve_left hrank.not_lt

theorem LwwInvariant.issue (hnode : Function.Injective node) (hinv : LwwInvariant node w) (i : ι)
    (op : LwwOp) (heffect : op.TakesEffect (w.replica i)) :
    LwwInvariant node (w.issue lwwObject i op) := by
  refine ⟨fun j => ?_, fun e he => ?_, fun j k h hh => ?_, fun e he => ?_, ?_⟩
  · rcases eq_or_ne j i with rfl | hj
    · rw [World.issue_replica_self, hinv.mutate_eq]
      exact hinv.nodeID j
    · rw [w.issue_replica_ne _ _ hj]
      exact hinv.nodeID j
  · rcases mem_append.mp he with he | he
    · exact hinv.delta e he
    · obtain rfl := mem_singleton.mp he
      simp only [World.emission, hinv.mutate_eq]
      rfl
  · rw [hinv.lookup_issue] at hh
    split_ifs at hh with hk
    · cases hh
      exact ⟨_, mem_append_right _ (mem_singleton_self _), hk.2.symm, rfl⟩
    · obtain ⟨e, he, hkey, hentry⟩ := hinv.held j k h hh
      exact ⟨e, mem_append_left _ he, hkey, hentry⟩
  · rw [hinv.lookup_issue]
    rcases mem_append.mp he with hold | hnew
    · split_ifs with hown
      · obtain ⟨rfl, hkey⟩ := hown
        exact ⟨_, rfl, hinv.own_below hold heffect hkey⟩
      · exact hinv.own e hold
    · obtain rfl := mem_singleton.mp hnew
      exact ⟨op.entry (node i), if_pos ⟨rfl, rfl⟩, .inr rfl⟩
  intro e he e' he' hkey hrank
  rcases mem_append.mp he with he | he <;> rcases mem_append.mp he' with he' | he'
  · exact hinv.unique e he e' he' hkey hrank
  · obtain rfl := mem_singleton.mp he'
    exact hinv.eq_of_tie hnode heffect he hkey hrank
  · obtain rfl := mem_singleton.mp he
    exact (hinv.eq_of_tie hnode heffect he' hkey.symm hrank.symm).symm
  obtain rfl := mem_singleton.mp he
  obtain rfl := mem_singleton.mp he'
  rfl

variable {incoming : LwwEntry} {existing : Option LwwEntry}

theorem winner_cases {h : LwwEntry} (hh : h ∈ winner incoming existing) :
    (h ∈ existing ∧ ¬ h.rank < incoming.rank) ∨
      (h = incoming ∧ ∀ old ∈ existing, old.rank < incoming.rank) := by
  cases existing with
  | none =>
    cases hh
    exact .inr ⟨rfl, by simp⟩
  | some old =>
    rw [winner] at hh
    split_ifs at hh with hwins
    · cases hh
      exact .inr ⟨rfl, by simpa [lwwWins_iff] using hwins⟩
    · cases hh
      exact .inl ⟨rfl, by simpa [lwwWins_iff] using hwins⟩

theorem winner_isSome (incoming : LwwEntry) (existing : Option LwwEntry) :
    ∃ h, h ∈ winner incoming existing := by
  cases existing with
  | none => exact ⟨_, rfl⟩
  | some old =>
    rw [winner]
    split
    · exact ⟨_, rfl⟩
    · exact ⟨_, rfl⟩

theorem LwwInvariant.lookup_deliver (hinv : LwwInvariant node w) (i j : ι)
    {d : Emission ι LwwOp LwwMapDelta} (hd : d ∈ w.log) (k : Str) :
    ((w.deliver lwwObject i d).replica j).entries.lookup k =
      if j = i ∧ k = d.op.key then winner (written node d) ((w.replica j).entries.lookup k)
      else (w.replica j).entries.lookup k := by
  by_cases hj : j = i
  · subst hj
    rw [World.deliver_replica_self, hinv.delta d hd]
    simp only [true_and]
    exact lookup_merge_singleton ..
  · rw [w.deliver_replica_ne _ _ hj, if_neg fun h => hj h.1]

theorem le_winner {old e : LwwEntry} (hle : e.rank < old.rank ∨ e = old) :
    ∃ h ∈ winner incoming (some old), e.rank < h.rank ∨ e = h := by
  obtain ⟨h, hh⟩ := winner_isSome incoming (some old)
  refine ⟨h, hh, ?_⟩
  rcases winner_cases hh with ⟨hsame, -⟩ | ⟨rfl, hlarger⟩
  · cases hsame
    exact hle
  have hlt := hlarger old rfl
  rcases hle with hle | rfl
  · exact .inl (hle.trans hlt)
  · exact .inl hlt

theorem LwwInvariant.deliver (hinv : LwwInvariant node w) (i : ι)
    {d : Emission ι LwwOp LwwMapDelta} (hd : d ∈ w.log) :
    LwwInvariant node (w.deliver lwwObject i d) := by
  refine ⟨fun j => ?_, hinv.delta, fun j k h hh => ?_, fun e he => ?_, hinv.unique⟩
  · rcases eq_or_ne j i with rfl | hj
    · rw [World.deliver_replica_self]
      exact hinv.nodeID j
    · rw [w.deliver_replica_ne _ _ hj]
      exact hinv.nodeID j
  · rw [hinv.lookup_deliver i j hd] at hh
    split_ifs at hh with hk
    · rcases winner_cases hh with ⟨hold, -⟩ | ⟨rfl, -⟩
      · exact hinv.held j k h hold
      · exact ⟨d, hd, hk.2.symm, rfl⟩
    · exact hinv.held j k h hh
  obtain ⟨old, hold, hle⟩ := hinv.own e he
  rw [hinv.lookup_deliver i e.source hd]
  split
  · rw [show (w.replica e.source).entries.lookup e.op.key = some old from hold]
    exact le_winner hle
  · exact ⟨old, hold, hle⟩

theorem lwwInvariant_of_reachable (hnode : Function.Injective node)
    (hw : Reachable lwwObject (fun i => newLwwMap (node i)) LwwOp.TakesEffect w) :
    LwwInvariant node w := by
  induction hw with
  | start =>
    refine ⟨fun _ => rfl, ?_, ?_, ?_, ?_⟩
    all_goals simp [World.start, newLwwMap]
  | issue i op _ heffect ih => exact ih.issue hnode i op heffect
  | deliver i _ he ih => exact ih.deliver i he

theorem place_winner
    (htie : ∀ old ∈ existing, old.rank = incoming.rank → old = incoming) :
    place (winner incoming existing) = place existing ⊔ place (some incoming) := by
  obtain ⟨h, hh⟩ := winner_isSome incoming existing
  rw [show winner incoming existing = some h from hh]
  rcases winner_cases hh with ⟨hold, hge⟩ | ⟨rfl, hlarger⟩
  · rw [show existing = some h from hold]
    refine (sup_eq_left.mpr (place_le fun e he => ?_)).symm
    cases he
    rcases eq_or_lt_of_le (not_lt.mp hge) with heq | hlt
    · exact .inr (htie h hold heq.symm).symm
    · exact .inl hlt
  · exact (sup_eq_right.mpr (place_le fun old hold => .inl (hlarger old hold))).symm

theorem lww_simulation (hnode : Function.Injective node) :
    Simulation lwwObject (fun i => newLwwMap (node i)) LwwOp.TakesEffect
      (fun m => positions m.entries) (fun d => positions d.entries) where
  start _ := rfl
  issue {w} hw i op heffect := by
    rw [show lwwObject.mutate op (w.replica i) = _ from op.run_eq _]
    funext k
    simp only [LwwMap.write, positions, Pi.sup_apply, lookup_insert_if, lookup_singleton_if]
    split_ifs with hk
    · subst hk
      refine (sup_eq_right.mpr (place_le fun held hheld => ?_)).symm
      rw [← lwwWins_iff]
      exact (heffect held hheld).imp_right Eq.symm
    · exact (sup_bot_eq _).symm
  deliver {w} hw i e he := by
    have hinv := lwwInvariant_of_reachable hnode hw
    funext k
    simp only [positions, Pi.sup_apply, hinv.delta e he, lookup_singleton_if]
    rw [show lwwObject.merge _ _ = LwwMap.merge _ _ from rfl, lookup_merge_singleton]
    split_ifs with hk
    · refine place_winner fun old hold hrank => ?_
      obtain ⟨e', he', hkey, rfl⟩ := hinv.held i k old hold
      exact hinv.unique e' he' e he (hkey.trans hk) hrank
    · exact (sup_bot_eq _).symm
  full _ _ h := nomatch h

/-- Replicas with the same deltas answer `Get` alike, if all local writes take effect. -/
theorem converges_of_takesEffect (hnode : Function.Injective node)
    (hw : Reachable lwwObject (fun i => newLwwMap (node i)) LwwOp.TakesEffect w) {i j : ι}
    (hsame : w.deltas i = w.deltas j) (key : Str) :
    (w.replica i).get key = (w.replica j).get key := by
  have hpositions := congrFun ((lww_simulation hnode).converges hw hsame) key
  rw [LwwMap.get, LwwMap.get, place_injective hpositions]

end Runs

/-! ## Two replicas -/

/-- The two replicas before the first call. -/
def twoMaps : World Site LwwMap LwwOp LwwMapDelta := World.start fun i => newLwwMap (twoNames i)

/-- `a` has written `x` at time 5. -/
def firstWrite : World Site LwwMap LwwOp LwwMapDelta :=
  twoMaps.issue lwwObject .a (.put [107] [120] 5)

/-- `b` has then written `y` at time 7, and the two deltas were exchanged. -/
def concurrentWrites : World Site LwwMap LwwOp LwwMapDelta :=
  ((firstWrite.issue lwwObject .b (.put [107] [121] 7)).deliver lwwObject .b
    (twoMaps.emission lwwObject .a (.put [107] [120] 5))).deliver lwwObject .a
    (firstWrite.emission lwwObject .b (.put [107] [121] 7))

/-- Each write meets no entry for its key, so the exchange makes the replicas agree. -/
theorem concurrentWrites_converge :
    (concurrentWrites.replica .a).get [107] = (concurrentWrites.replica .b).get [107] := by
  have hw : Reachable lwwObject (fun i => newLwwMap (twoNames i)) LwwOp.TakesEffect
      concurrentWrites := by
    refine .deliver Site.a (.deliver Site.b (.issue Site.b _ (.issue Site.a _ .start ?_) ?_) ?_) ?_
    · exact fun held hheld => nomatch hheld
    · exact fun held hheld => nomatch hheld
    · exact mem_cons_self
    · exact mem_cons_of_mem _ mem_cons_self
  have happlied : concurrentWrites.applied .a = concurrentWrites.applied .b := by decide
  refine converges_of_takesEffect twoNames_injective hw ?_ [107]
  rw [World.deltas, World.deltas, happlied]

/-- `a` has then written `y` at time 3, and both deltas were delivered to `b`. -/
def losingWrite : World Site LwwMap LwwOp LwwMapDelta :=
  ((firstWrite.issue lwwObject .a (.put [107] [121] 3)).deliver lwwObject .b
    (twoMaps.emission lwwObject .a (.put [107] [120] 5))).deliver lwwObject .b
    (firstWrite.emission lwwObject .a (.put [107] [121] 3))

/-- The second write loses against the entry it replaces, and `a` answers `y` and `b` answers `x`.
-/
theorem losingWrite_diverges :
    Reachable lwwObject (fun i => newLwwMap (twoNames i)) (fun _ _ => True) losingWrite ∧
      losingWrite.deltas .a = losingWrite.deltas .b ∧
      (losingWrite.replica .a).get [107] = ([121], true) ∧
      (losingWrite.replica .b).get [107] = ([120], true) := by
  refine ⟨?_, ?_, by decide, by decide⟩
  · exact .deliver Site.b (.deliver Site.b (.issue Site.a _ (.issue Site.a _ .start trivial) trivial)
      mem_cons_self) (mem_cons_of_mem _ mem_cons_self)
  · have happlied : losingWrite.applied .a = losingWrite.applied .b := by decide
    rw [World.deltas, World.deltas, happlied]

end HelixCluster.DeltaCrdt
