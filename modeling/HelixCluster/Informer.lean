import HelixCluster.Lib.GoMap
import HelixCluster.Lib.Runs

/-!
# The cache of an informer and its indexes

The store keeps the objects of a delta stream under the text `Namespace/Name`, and for every index
function the keys of the objects in each of its buckets (`indexes_coherent`).
-/

namespace HelixCluster.Informer

open List

structure Object where
  ns : Str
  name : Str
  value : Str
  labels : GoMap Str Str

def Object.key (o : Object) : Str := if o.ns = [] then o.name else o.ns ++ 47 :: o.name

def Object.identity (o : Object) : Str × Str := (o.ns, o.name)

inductive EventType where
  | added
  | updated
  | deleted
  | unknown

structure Event where
  type : EventType
  object : Object

abbrev IndexFunc := Object → List Str

/-- The keys in each bucket of one index. -/
abbrev Buckets := GoMap Str (Finset Str)

structure Store where
  items : GoMap Str Object
  indexes : GoMap Str IndexFunc
  indexed : GoMap Str Buckets

def newStore : Store := ⟨∅, ∅, ∅⟩

def addKey (key : Str) (buckets : Buckets) (v : Str) : Buckets :=
  buckets.insert v (insert key (buckets.read v ∅))

def addToIndexLocked (fn : IndexFunc) (key : Str) (obj : Object) (buckets : Buckets) : Buckets :=
  (fn obj).foldl (addKey key) buckets

def removeKey (key : Str) (buckets : Buckets) (v : Str) : Buckets :=
  match buckets.lookup v with
  | none => buckets
  | some bucket =>
    if bucket.erase key = ∅ then buckets.erase v else buckets.insert v (bucket.erase key)

def removeFromIndexLocked (fn : IndexFunc) (key : Str) (obj : Object) (buckets : Buckets) : Buckets :=
  (fn obj).foldl (removeKey key) buckets

/-- The loops over the registered indexes, which change their buckets. -/
def changeAll (change : IndexFunc → Buckets → Buckets) (s : Store) : Store :=
  { s with indexed := s.indexes.foldl (fun indexed name fn =>
      indexed.insert name (change fn (indexed.read name ∅))) s.indexed }

namespace Store

variable (s : Store)

def addIndexer (name : Str) (fn : IndexFunc) : Store :=
  { s with
    indexes := s.indexes.insert name fn
    indexed := s.indexed.insert name
      (s.items.foldl (fun buckets key obj => addToIndexLocked fn key obj buckets) ∅) }

def indexAllLocked (key : Str) (obj : Object) : Store :=
  changeAll (fun fn => addToIndexLocked fn key obj) s

def deindexAllLocked (key : Str) (obj : Object) : Store :=
  changeAll (fun fn => removeFromIndexLocked fn key obj) s

def list : List Object := s.items.inKeyOrder

def byIndex (name value : Str) : List Object :=
  match s.indexed.lookup name with
  | none => []
  | some buckets =>
    match buckets.lookup value with
    | none => []
    | some bucket => (bucket.sort (· ≤ ·)).filterMap fun k => s.items.lookup k

end Store

/-- A call of a handler. -/
inductive Notification where
  | onAdd (new : Object)
  | onUpdate (old new : Object)
  | onDelete (old : Object)

/-- `apply`, with the notification that `dispatch` hands to the handlers. -/
def Store.apply (s : Store) (ev : Event) : Store × Option Notification :=
  let key := ev.object.key
  match ev.type with
  | .added | .updated =>
    match s.items.lookup key with
    | some prev =>
      let s := s.deindexAllLocked key prev
      (Store.indexAllLocked { s with items := s.items.insert key ev.object } key ev.object,
        some (.onUpdate prev ev.object))
    | none =>
      (Store.indexAllLocked { s with items := s.items.insert key ev.object } key ev.object,
        some (.onAdd ev.object))
  | .deleted =>
    match s.items.lookup key with
    | none => (s, none)
    | some prev =>
      let s := s.deindexAllLocked key prev
      ({ s with items := s.items.erase key }, some (.onDelete prev))
  | .unknown => (s, none)

/-! ### The buckets of an index -/

/-- The buckets hold the keys for which the predicate holds, and none of them is empty. -/
structure Built (buckets : Buckets) (P : Str → Str → Prop) : Prop where
  mem : ∀ v k, k ∈ buckets.read v ∅ ↔ P v k
  nonempty : ∀ v bucket, buckets.lookup v = some bucket → bucket ≠ ∅

section

variable {buckets : Buckets} {P Q : Str → Str → Prop} {key : Str}

theorem Built.congr (h : Built buckets P) (hiff : ∀ v k, P v k ↔ Q v k) : Built buckets Q :=
  ⟨fun v k => (h.mem v k).trans (hiff v k), h.nonempty⟩

theorem built_empty : Built ∅ fun _ _ => False :=
  ⟨fun v k => by simp, fun v bucket h => by simp at h⟩

section

variable (h : Built buckets P)

include h

theorem Built.addKey (v : Str) :
    Built (addKey key buckets v) fun w k => P w k ∨ k = key ∧ w = v := by
  constructor
  · intro w k
    rw [Informer.addKey, GoMap.read_insert_if, ← h.mem]
    split_ifs with hw
    · simp [hw, or_comm]
    · simp [hw]
  intro w bucket hbucket
  rw [Informer.addKey, GoMap.lookup_insert_if] at hbucket
  split at hbucket
  · rw [← Option.some.inj hbucket]
    exact Finset.insert_ne_empty _ _
  · exact h.nonempty w bucket hbucket

theorem Built.removeKey (v : Str) :
    Built (removeKey key buckets v) fun w k => P w k ∧ ¬ (k = key ∧ w = v) := by
  unfold Informer.removeKey
  split
  · next hv =>
    -- There is no such bucket, so the key is in none of that name.
    refine h.congr fun w k => ⟨fun hp => ⟨hp, ?_⟩, And.left⟩
    rintro ⟨-, rfl⟩
    have hmem := (h.mem w k).mpr hp
    simp [GoMap.read, hv] at hmem
  · next bucket hv =>
    have hread : buckets.read v ∅ = bucket := by rw [GoMap.read, hv]; rfl
    have hmem : ∀ k, k ∈ bucket.erase key ↔ P v k ∧ k ≠ key := by
      intro k
      rw [Finset.mem_erase, ← h.mem, hread, and_comm]
    split
    · next hempty =>
      constructor
      · intro w k
        rw [GoMap.read_erase_if]
        split
        · next hw =>
          have := hmem k
          rw [hempty] at this
          simpa [hw] using this
        · next hw => simp [h.mem, hw]
      intro w other hother
      rw [GoMap.lookup_erase_if] at hother
      split at hother
      · cases hother
      · exact h.nonempty w other hother
    · next hne =>
      constructor
      · intro w k
        rw [GoMap.read_insert_if]
        split
        · next hw => simp [hw, hmem]
        · next hw => simp [h.mem, hw]
      intro w other hother
      rw [GoMap.lookup_insert_if] at hother
      split at hother
      · exact Option.some.inj hother ▸ hne
      · exact h.nonempty w other hother

variable (fn : IndexFunc) (obj : Object)

theorem Built.addToIndex :
    Built (addToIndexLocked fn key obj buckets) fun v k => P v k ∨ k = key ∧ v ∈ fn obj := by
  unfold addToIndexLocked
  generalize fn obj = values
  induction values generalizing buckets P with
  | nil => exact h.congr (by simp)
  | cons v values ih => exact (ih (h.addKey v)).congr fun w k => by simp only [mem_cons]; tauto

theorem Built.removeFromIndex :
    Built (removeFromIndexLocked fn key obj buckets) fun v k => P v k ∧ ¬ (k = key ∧ v ∈ fn obj) := by
  unfold removeFromIndexLocked
  generalize fn obj = values
  induction values generalizing buckets P with
  | nil => exact h.congr (by simp)
  | cons v values ih => exact (ih (h.removeKey v)).congr fun w k => by simp only [mem_cons]; tauto

end

end

/-- The buckets of an index function over the cache. -/
def Indexes (items : GoMap Str Object) (fn : IndexFunc) (buckets : Buckets) : Prop :=
  Built buckets fun v k => ∃ o, items.lookup k = some o ∧ v ∈ fn o

theorem indexes_build (items : GoMap Str Object) (fn : IndexFunc) : Indexes items fn
    (items.foldl (fun buckets key obj => addToIndexLocked fn key obj buckets) ∅) := by
  have hall : ∀ (entries : List (Σ _ : Str, Object)) (buckets : Buckets)
      (P : Str → Str → Prop), Built buckets P →
      Built (entries.foldl (fun buckets e => addToIndexLocked fn e.1 e.2 buckets) buckets)
        fun v k => P v k ∨ ∃ o, ⟨k, o⟩ ∈ entries ∧ v ∈ fn o := by
    intro entries
    induction entries with
    | nil => exact fun buckets P h => h.congr (by simp)
    | cons e entries ih =>
      intro buckets P h
      refine (ih _ _ (h.addToIndex fn e.2)).congr fun v k => ?_
      obtain ⟨key, obj⟩ := e
      simp only [mem_cons, Sigma.mk.injEq, heq_eq_eq, or_and_right, exists_or, or_assoc]
      refine or_congr_right (or_congr_left ⟨?_, ?_⟩)
      · rintro ⟨rfl, hv⟩
        exact ⟨obj, ⟨rfl, rfl⟩, hv⟩
      · rintro ⟨o, ⟨rfl, rfl⟩, hv⟩
        exact ⟨rfl, hv⟩
  refine (hall items.entries ∅ _ built_empty).congr fun v k => ?_
  simp only [false_or]
  exact exists_congr fun o => and_congr_left fun _ => AList.mem_lookup_iff.symm

/-! ### Coherence -/

/-- Every registered index has the buckets of its function, and no other index has any. -/
def Coherent (s : Store) : Prop :=
  ∀ name, Option.Rel (Indexes s.items) (s.indexes.lookup name) (s.indexed.lookup name)

variable {s : Store}

theorem Coherent.addIndexer (h : Coherent s) (name : Str) (fn : IndexFunc) :
    Coherent (s.addIndexer name fn) := by
  intro other
  simp only [Store.addIndexer, GoMap.lookup_insert_if]
  split
  · exact .some (indexes_build s.items fn)
  · exact h other

theorem Coherent.changeAll (h : Coherent s) {change : IndexFunc → Buckets → Buckets}
    {items : GoMap Str Object}
    (hchange : ∀ fn buckets, Indexes s.items fn buckets → Indexes items fn (change fn buckets)) :
    Coherent { changeAll change s with items := items } := by
  intro name
  have hupdates : GoMap.Updates (fun (indexed : GoMap Str Buckets) name fn =>
      indexed.insert name (change fn (indexed.read name ∅)))
      fun fn old => some (change fn (old.getD ∅)) := by
    intro m k v j
    rw [GoMap.lookup_insert_if]
    split
    · next hj => rw [hj]; rfl
    · rfl
  show Option.Rel _ (s.indexes.lookup name) ((s.indexes.foldl _ s.indexed).lookup name)
  rw [GoMap.lookup_foldl_update hupdates]
  have hname := h name
  revert hname
  cases s.indexes.lookup name <;> cases s.indexed.lookup name
  · exact fun _ => .none
  · rintro ⟨⟩
  · rintro ⟨⟩
  · rintro ⟨hbuilt⟩
    exact .some (hchange _ _ hbuilt)

variable {key : Str} {obj prev : Object}

theorem Coherent.deindex (h : Coherent s) (hprev : s.items.lookup key = some prev) :
    Coherent { s.deindexAllLocked key prev with items := s.items.erase key } := by
  refine h.changeAll fun fn buckets hbuilt => (hbuilt.removeFromIndex fn prev).congr fun v k => ?_
  simp only [GoMap.lookup_erase_if]
  split_ifs with hk
  · subst hk
    simp [hprev]
  · simp [hk]

variable {items : GoMap Str Object}

theorem Coherent.index (h : Coherent s)
    (hitems : ∀ k, s.items.lookup k = if k = key then none else items.lookup k) :
    Coherent (Store.indexAllLocked { s with items := items.insert key obj } key obj) := by
  show Coherent { Informer.changeAll (fun fn => addToIndexLocked fn key obj) s with items := items.insert key obj }
  refine h.changeAll fun fn buckets hbuilt => (hbuilt.addToIndex fn obj).congr fun v k => ?_
  simp only [GoMap.lookup_insert_if, hitems]
  split_ifs with hk
  · simp [hk]
  · simp [hk]

/-- What a delta leaves under its key. -/
def Event.left (ev : Event) (old : Option Object) : Option Object :=
  match ev.type with
  | .added | .updated => some ev.object
  | .deleted => none
  | .unknown => old

theorem lookup_apply (s : Store) (ev : Event) (k : Str) : (s.apply ev).1.items.lookup k =
      if k = ev.object.key then ev.left (s.items.lookup k) else s.items.lookup k := by
  obtain ⟨type, obj⟩ := ev
  cases type with
  | added | updated =>
    simp only [Store.apply]
    split <;> exact GoMap.lookup_insert_if ..
  | deleted =>
    simp only [Store.apply]
    split
    · next hnone =>
      split
      · next hk => rw [hk, hnone]; rfl
      · rfl
    · exact GoMap.lookup_erase_if ..
  | unknown => exact (ite_self _).symm

theorem Coherent.apply (h : Coherent s) (ev : Event) : Coherent (s.apply ev).1 := by
  obtain ⟨type, obj⟩ := ev
  cases type with
  | added | updated =>
    simp only [Store.apply]
    split
    · next hprev => exact (h.deindex hprev).index fun k => GoMap.lookup_erase_if ..
    · next hfree =>
      refine h.index fun k => ?_
      split
      · next hk => rw [hk, hfree]
      · rfl
  | deleted =>
    simp only [Store.apply]
    split
    · exact h
    · next prev hprev => exact h.deindex hprev
  | unknown => exact h

theorem sort_eq_filter {bucket : Finset Str} (h : ∀ k ∈ bucket, k ∈ items) :
    bucket.sort (· ≤ ·) = items.sortedKeys.filter (· ∈ bucket) := by
  refine Perm.eq_of_pairwise' (bucket.pairwise_sort _) ((pairwise_insertionSort _ _).filter _) ?_
  have hnodup := (perm_insertionSort (· ≤ ·) items.keys).nodup_iff.mpr items.keys_nodup
  refine (perm_ext_iff_of_nodup (bucket.sort_nodup _) (hnodup.filter _)).mpr fun k => ?_
  simpa [AList.mem_keys] using h k

theorem byIndex_eq (h : Coherent s) (name v : Str) : s.byIndex name v =
    s.list.filter fun o => (s.indexes.lookup name).any fun fn => v ∈ fn o := by
  have hname := h name
  unfold Store.byIndex
  revert hname
  cases s.indexes.lookup name <;> cases s.indexed.lookup name
  · simp
  · rintro ⟨⟩
  · rintro ⟨⟩
  · next fn buckets =>
    rintro ⟨hbuilt⟩
    have hmem := hbuilt.mem v
    have hlist : s.list.filter (fun o => v ∈ fn o) =
        (s.items.sortedKeys.filter (· ∈ buckets.read v ∅)).filterMap fun k => s.items.lookup k := by
      rw [Store.list, GoMap.inKeyOrder, filter_filterMap, filterMap_filter]
      refine filterMap_congr fun k _ => ?_
      simp only [hmem]
      cases hlookup : s.items.lookup k with
      | none => simp
      | some o => by_cases hv : v ∈ fn o <;> simp [hv]
    rw [← sort_eq_filter] at hlist
    · show _ = s.list.filter (fun o => v ∈ fn o)
      rw [hlist]
      dsimp only [GoMap.read]
      cases buckets.lookup v <;> simp
    intro k hk
    obtain ⟨o, ho, -⟩ := (hmem k).mp hk
    exact GoMap.mem_of_lookup ho

/-! ### Runs -/

/-- Every object is cached under its own key. -/
def Keyed (s : Store) : Prop := ∀ k o, s.items.lookup k = some o → o.key = k

/-- A delta keeps every object under its own key, whatever the keys are. -/
theorem key_eq_of_left {K : Type} [DecidableEq K] {key : Object → K} {m m' : GoMap K Object} {ev : Event}
    (hm' : ∀ k, m'.lookup k = if k = key ev.object then ev.left (m.lookup k) else m.lookup k)
    (h : ∀ k o, m.lookup k = some o → key o = k) (k : K) (o : Object) (ho : m'.lookup k = some o) :
    key o = k := by
  rw [hm'] at ho
  split_ifs at ho with hk
  · obtain ⟨type, obj⟩ := ev
    cases type with
    | added | updated => rw [hk, ← Option.some.inj ho]
    | deleted => cases ho
    | unknown => exact h k o ho
  · exact h k o ho

theorem Keyed.apply (h : Keyed s) (ev : Event) : Keyed (s.apply ev).1 :=
  key_eq_of_left (lookup_apply s ev) h

/-- What a handler does with a cache of its own. -/
def replay (cache : GoMap Str Object) : Notification → GoMap Str Object
  | .onAdd new | .onUpdate _ new => cache.insert new.key new
  | .onDelete old => cache.erase old.key

theorem lookup_replay (hkeyed : Keyed s) (ev : Event) {cache : GoMap Str Object}
    (h : ∀ k, cache.lookup k = s.items.lookup k) (k : Str) :
    ((s.apply ev).2.toList.foldl replay cache).lookup k = (s.apply ev).1.items.lookup k := by
  rw [lookup_apply]
  obtain ⟨type, obj⟩ := ev
  cases type with
  | added | updated =>
    simp only [Store.apply]
    split <;> exact (GoMap.lookup_insert_if ..).trans (by rw [h]; rfl)
  | deleted =>
    simp only [Store.apply]
    split
    · next hfree =>
      show cache.lookup k = _
      rw [h]
      split
      · next hk => rw [hk, hfree]; rfl
      · rfl
    · next prev hprev =>
      show (cache.erase prev.key).lookup k = _
      rw [GoMap.lookup_erase_if, hkeyed _ _ hprev, h]
      rfl
  | unknown => exact (h k).trans (ite_self _).symm

inductive Op where
  | addIndexer (name : Str) (fn : IndexFunc)
  | delta (ev : Event)

/-- The store, and the notifications sent to the handlers so far. -/
structure World where
  store : Store
  sent : List Notification

def World.step (w : World) : Op → World
  | .addIndexer name fn => { w with store := w.store.addIndexer name fn }
  | .delta ev => ⟨(w.store.apply ev).1, w.sent ++ (w.store.apply ev).2.toList⟩

structure World.Sound (w : World) : Prop where
  coherent : Coherent w.store
  keyed : Keyed w.store
  replayed : ∀ k, (w.sent.foldl replay ∅).lookup k = w.store.items.lookup k

theorem World.Sound.step {w : World} (h : w.Sound) (op : Op) : (w.step op).Sound := by
  cases op with
  | addIndexer name fn => exact ⟨h.coherent.addIndexer name fn, h.keyed, h.replayed⟩
  | delta ev =>
    refine ⟨h.coherent.apply ev, h.keyed.apply ev, fun k => ?_⟩
    show ((w.sent ++ _).foldl replay ∅).lookup k = _
    rw [foldl_append]
    exact lookup_replay h.keyed ev h.replayed k

/-- An index yields the cached objects with the value in order, no bucket is empty, and the
notifications replay to the cache. -/
theorem indexes_coherent (run : List Op) :
    let w := run.foldl World.step ⟨newStore, []⟩
    (∀ name v, w.store.byIndex name v =
      w.store.list.filter fun o => (w.store.indexes.lookup name).any fun fn => v ∈ fn o) ∧
    (∀ name buckets v bucket, w.store.indexed.lookup name = some buckets →
      buckets.lookup v = some bucket → bucket ≠ ∅) ∧
    ∀ k, (w.sent.foldl replay ∅).lookup k = w.store.items.lookup k := by
  intro w
  have h : w.Sound := by
    refine forall_states (I := World.Sound) (fun _ e hw => hw.step e) ?_ run w (foldl_mem_states _ run)
    exact ⟨fun _ => .none, by rintro k o ⟨⟩, fun _ => rfl⟩
  refine ⟨byIndex_eq h.coherent, fun name buckets v bucket hindexed => ?_, h.replayed⟩
  have hname := h.coherent name
  rw [hindexed] at hname
  revert hname
  cases w.store.indexes.lookup name with
  | none => rintro ⟨⟩
  | some fn =>
    rintro ⟨hbuilt⟩
    exact hbuilt.nonempty v bucket

/-! ### Identity -/

/-- The map over the pairs of namespace and name, after one more delta. -/
def fold (m : GoMap (Str × Str) Object) (ev : Event) : GoMap (Str × Str) Object :=
  match ev.type with
  | .added | .updated => m.insert ev.object.identity ev.object
  | .deleted => m.erase ev.object.identity
  | .unknown => m

def deltaStep (w : Store × GoMap (Str × Str) Object) (ev : Event) :
    Store × GoMap (Str × Str) Object :=
  ((w.1.apply ev).1, fold w.2 ev)

/-- The cache holds the objects of the map. -/
def SameObjects (w : Store × GoMap (Str × Str) Object) : Prop :=
  ∀ o, (∃ k, w.1.items.lookup k = some o) ↔ ∃ id, w.2.lookup id = some o

theorem lookup_fold (m : GoMap (Str × Str) Object) (ev : Event) (id : Str × Str) :
    (fold m ev).lookup id = if id = ev.object.identity then ev.left (m.lookup id) else m.lookup id := by
  obtain ⟨type, obj⟩ := ev
  cases type with
  | added | updated => exact GoMap.lookup_insert_if ..
  | deleted => exact GoMap.lookup_erase_if ..
  | unknown => exact (ite_self _).symm

/-- No object of another identity is cached under the key of the delta. -/
def Apart (w : Store × GoMap (Str × Str) Object) (ev : Event) : Prop :=
  ev.type ≠ .unknown → ∀ p, w.1.items.lookup ev.object.key = some p → p.identity = ev.object.identity

theorem key_eq_of_identity {o p : Object} (h : o.identity = p.identity) : o.key = p.key := by
  obtain ⟨hns, hname⟩ := Prod.mk.inj h
  rw [Object.key, Object.key, hns, hname]

/-- Both maps list every object under its own key and hold the same objects. -/
structure Linked (w : Store × GoMap (Str × Str) Object) : Prop where
  keyed : Keyed w.1
  paired : ∀ id o, w.2.lookup id = some o → o.identity = id
  same : SameObjects w

variable {w : Store × GoMap (Str × Str) Object} {ev : Event}

theorem Linked.lookup_iff (h : Linked w) (o : Object) :
    w.1.items.lookup o.key = some o ↔ w.2.lookup o.identity = some o := by
  constructor
  · intro ho
    obtain ⟨id, hid⟩ := (h.same o).mp ⟨o.key, ho⟩
    rwa [h.paired id o hid]
  intro ho
  obtain ⟨k, hk⟩ := (h.same o).mpr ⟨o.identity, ho⟩
  rwa [h.keyed k o hk]

theorem Event.left_eq (hev : ev.type ≠ .unknown) (old : Option Object) :
    ev.left old = ev.left none ∧ ∀ o ∈ ev.left none, o = ev.object := by
  obtain ⟨type, obj⟩ := ev
  cases type with
  | added | updated => exact ⟨rfl, fun o ho => (Option.some.inj ho).symm⟩
  | deleted => exact ⟨rfl, by rintro o ⟨⟩⟩
  | unknown => exact absurd rfl hev

theorem sameObjects_step_iff (h : Linked w) : SameObjects (deltaStep w ev) ↔ Apart w ev := by
  by_cases hev : ev.type = .unknown
  · have hsame : deltaStep w ev = w := by simp [deltaStep, Store.apply, fold, hev]
    rw [hsame]
    exact iff_of_true h.same fun hne => absurd hev hne
  obtain ⟨hleft, hobj⟩ : (∀ old, ev.left old = ev.left none) ∧ ∀ o ∈ ev.left none, o = ev.object :=
    ⟨fun old => (Event.left_eq hev old).1, (Event.left_eq hev none).2⟩
  have hitems : ∀ k, (deltaStep w ev).1.items.lookup k =
      if k = ev.object.key then ev.left none else w.1.items.lookup k :=
    fun k => (lookup_apply w.1 ev k).trans (by rw [hleft])
  have hpairs : ∀ id, (deltaStep w ev).2.lookup id =
      if id = ev.object.identity then ev.left none else w.2.lookup id :=
    fun id => (lookup_fold w.2 ev id).trans (by rw [hleft])
  constructor
  · intro hsame _ p hp
    by_contra hne
    have hkey := h.keyed _ p hp
    have hpair := (h.lookup_iff p).mp (hkey ▸ hp)
    -- The pair map keeps `p`, and the only place for it in the cache is taken.
    obtain ⟨k, hk⟩ := (hsame p).mpr ⟨p.identity, by rw [hpairs, if_neg hne, hpair]⟩
    rw [hitems] at hk
    split_ifs at hk with hother
    · exact hne (congrArg Object.identity (hobj p hk))
    · exact hother ((h.keyed k p hk).symm.trans hkey)
  intro hapart o
  constructor
  · rintro ⟨k, hk⟩
    rw [hitems] at hk
    split_ifs at hk with hother
    · exact ⟨ev.object.identity, by rw [hpairs, if_pos rfl, hk]⟩
    · have hkey := h.keyed k o hk
      refine ⟨o.identity, ?_⟩
      rw [hpairs, if_neg fun hid => hother (hkey ▸ key_eq_of_identity hid)]
      exact (h.lookup_iff o).mp (hkey ▸ hk)
  rintro ⟨id, hid⟩
  rw [hpairs] at hid
  split_ifs at hid with hother
  · exact ⟨ev.object.key, by rw [hitems, if_pos rfl, hid]⟩
  · have hpair := h.paired id o hid
    have hcached := (h.lookup_iff o).mpr (hpair ▸ hid)
    have hkey : o.key ≠ ev.object.key :=
      fun hkey => hother (hpair ▸ hapart hev o (hkey ▸ hcached))
    exact ⟨o.key, by rw [hitems, if_neg hkey, hcached]⟩

/-- What `Key` puts before the name. -/
def Object.path (o : Object) : Str := if o.ns = [] then [] else o.ns ++ [47]

/-- The name of the first object begins with the rest of the path of the second one. -/
def Reaches (o p : Object) : Prop := ∃ rest, rest ≠ [] ∧ p.path = o.path ++ rest ∧ o.name = rest ++ p.name

theorem Object.key_eq (o : Object) : o.key = o.path ++ o.name := by
  unfold key path
  split
  · rfl
  · rw [append_assoc]
    rfl

theorem key_eq_iff {o p : Object} (hne : o.identity ≠ p.identity) :
    o.key = p.key ↔ Reaches o p ∨ Reaches p o := by
  -- with equal paths the namespaces and the names are equal
  have hpath : o.path = p.path → o.name ≠ p.name := by
    intro hpath hname
    refine hne (Prod.ext ?_ hname)
    unfold Object.path at hpath
    split at hpath
    · next ho =>
      split at hpath
      · next hp => exact ho.trans hp.symm
      · simp at hpath
    · split at hpath
      · simp at hpath
      · exact append_cancel_right hpath
  rw [o.key_eq, p.key_eq, append_eq_append_iff]
  constructor
  · rintro (⟨rest, hp, ho⟩ | ⟨rest, ho, hp⟩)
    · refine .inl ⟨rest, ?_, hp, ho⟩
      rintro rfl
      exact hpath (by simpa using hp.symm) ho
    · refine .inr ⟨rest, ?_, ho, hp⟩
      rintro rfl
      exact hpath (by simpa using ho) hp.symm
  · rintro (⟨rest, -, hp, ho⟩ | ⟨rest, -, ho, hp⟩)
    · exact .inl ⟨rest, hp, ho⟩
    · exact .inr ⟨rest, ho, hp⟩

/-- The cache is the map over the pairs exactly if no delta meets another identity under its key.
Two identities have one key exactly if the name of one begins with more of the path of the other. -/
theorem cache_by_identity_iff (run : List Event) :
    ((∀ w ∈ states deltaStep (newStore, ∅) run, SameObjects w) ↔
      Along deltaStep Apart (newStore, ∅) run) ∧
    ∀ o p : Object, o.identity ≠ p.identity → (o.key = p.key ↔ Reaches o p ∨ Reaches p o) := by
  refine ⟨?_, fun o p => key_eq_iff⟩
  refine forall_states_iff_along (I := Linked) (fun w ev h hapart => ?_) (fun w ev => sameObjects_step_iff)
    ?_ ?_ run
  · exact ⟨h.keyed.apply ev, key_eq_of_left (lookup_fold w.2 ev) h.paired, (sameObjects_step_iff h).mpr hapart⟩
  · refine ⟨by rintro k o ⟨⟩, by rintro id o ⟨⟩, fun o => iff_of_false ?_ ?_⟩ <;> rintro ⟨_, ⟨⟩⟩
  · refine fun o => iff_of_false ?_ ?_ <;> rintro ⟨_, ⟨⟩⟩

theorem identity_lost : ¬ ∀ w ∈ states deltaStep (newStore, ∅)
    [⟨.added, ⟨[97], [98], [49], ∅⟩⟩, ⟨.added, ⟨[], [97, 47, 98], [50], ∅⟩⟩], SameObjects w := by
  intro h
  have hlast := h _ (foldl_mem_states _ _) ⟨[97], [98], [49], ∅⟩
  obtain ⟨k, hk⟩ := hlast.mpr ⟨([97], [98]), rfl⟩
  simp only [foldl_cons, foldl_nil, deltaStep, lookup_apply] at hk
  split at hk
  · cases hk
  · next hother =>
    split at hk
    · next hkey => exact hother hkey
    · cases hk

end HelixCluster.Informer
