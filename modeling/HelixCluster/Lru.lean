import HelixCluster.Lib.GoMap
import HelixCluster.Lib.LinkedList

/-!
# The LRU cache

The `Cache` of `pkg/lru`, a map into a linked list.
-/

namespace HelixCluster.Lru

open List

variable {V : Type}

structure Cache (V : Type) where
  cap : ℕ
  /-- The element of each key, by its identity. -/
  items : GoMap Str ℕ
  order : LinkedList (Str × V)

def newCache (capacity : ℕ) : Cache V := ⟨capacity, ∅, .empty⟩

namespace Cache

variable (c : Cache V) (key : Str) (value : V)

/-- The entry that an element holds. -/
def entry (id : ℕ) : Option (Str × V) :=
  (c.order.elements.find? fun e => e.id = id).map Element.value

def get : Cache V × Option V :=
  match c.items.lookup key with
  | some id => ({ c with order := c.order.moveToFront id }, (c.entry id).map Prod.snd)
  | none => (c, none)

/-- The back is dropped if the list is full. -/
def evict : Cache V :=
  if c.cap ≤ c.order.elements.length then
    match c.order.back with
    | some back => { c with order := c.order.remove back.id, items := c.items.erase back.value.1 }
    | none => c
  else c

def pushFront : Cache V :=
  { c with order := c.order.pushFront (key, value), items := c.items.insert key c.order.next }

def put : Cache V :=
  match c.items.lookup key with
  | some id =>
    -- The entry keeps its key and gets the new value.
    { c with order := (c.order.moveToFront id).setValue id ((c.entry id).elim key Prod.fst, value) }
  | none => c.evict.pushFront key value

end Cache

inductive Op (V : Type) where
  | get (key : Str)
  | put (key : Str) (value : V)

def Cache.step (c : Cache V) : Op V → Cache V
  | .get key => (c.get key).1
  | .put key value => c.put key value

/-- The keys by last use with their values. A `Get` is a use if the key is among the first `cap`. -/
def recentStep (cap : ℕ) (recent : List (Str × V)) : Op V → List (Str × V)
  | .put key value => (key, value) :: recent.filter (·.1 ≠ key)
  | .get key =>
    match (recent.take cap).find? (·.1 = key) with
    | some p => p :: recent.filter (·.1 ≠ key)
    | none => recent

/-- The value of the last `Put` of the key. -/
def lastPut (run : List (Op V)) (key : Str) : Option V :=
  run.foldl (fun last op =>
    match op with
    | .put k v => if k = key then some v else last
    | .get _ => last) none

section

variable {α β : Type} [DecidableEq β] {f : α → β} {l : List α} {n : ℕ} {b : β}

theorem filter_of_mem (hnodup : (l.map f).Nodup) {a : α} (ha : a ∈ l) :
    l.filter (f · = f a) = [a] := by
  induction l with
  | nil => cases ha
  | cons d l ih =>
    rw [map_cons, nodup_cons] at hnodup
    rcases mem_cons.mp ha with rfl | hmem
    · have hrest : l.filter (f · = f a) = [] :=
        filter_eq_nil_iff.mpr fun e he heq => hnodup.1 (mem_map.mpr ⟨e, he, by simpa using heq⟩)
      simp [hrest]
    · have hne : f d ≠ f a := fun heq => hnodup.1 (heq ▸ mem_map_of_mem hmem)
      simp [hne, ih hnodup.2 hmem]

theorem filter_of_notMem (h : b ∉ l.map f) : l.filter (f · ≠ b) = l := by
  refine filter_eq_self.mpr fun a ha => decide_eq_true ?_
  rintro rfl
  exact h (mem_map_of_mem ha)

theorem take_filter_of_mem (hnodup : (l.map f).Nodup) (hb : b ∈ (l.take (n + 1)).map f) :
    (l.filter (f · ≠ b)).take n = (l.take (n + 1)).filter (f · ≠ b) := by
  induction l generalizing n with
  | nil => simp at hb
  | cons a l ih =>
    rw [map_cons, nodup_cons] at hnodup
    rw [take_succ_cons]
    by_cases ha : f a = b
    · subst ha
      have htake : f a ∉ (l.take n).map f := fun h => hnodup.1 (((take_sublist n l).map f).subset h)
      rw [filter_cons_of_neg (by simp), filter_cons_of_neg (by simp), filter_of_notMem hnodup.1,
        filter_of_notMem htake]
    have hmem : b ∈ (l.take n).map f := by simpa [Ne.symm ha] using hb
    rw [filter_cons_of_pos (by simpa using ha), filter_cons_of_pos (by simpa using ha)]
    cases n with
    | zero => simp at hmem
    | succ n => rw [take_succ_cons, ih hnodup.2 hmem]

theorem take_filter_of_notMem (hb : b ∉ (l.take n).map f) :
    (l.filter (f · ≠ b)).take n = l.take n := by
  induction l generalizing n with
  | nil => rfl
  | cons a l ih =>
    cases n with
    | zero => simp
    | succ n =>
      simp only [take_succ_cons, map_cons, mem_cons, not_or] at hb
      rw [filter_cons_of_pos (by simpa using Ne.symm hb.1), take_succ_cons, take_succ_cons, ih hb.2]

end

/-- The linked list is the beginning of the recent keys, and the map leads to its elements. -/
structure Holds (c : Cache V) (n : ℕ) (recent : List (Str × V)) : Prop where
  distinct : (recent.map Prod.fst).Nodup
  entries : c.order.elements.map Element.value = recent.take n
  items : ∀ key id, c.items.lookup key = some id ↔ ∃ v, ⟨id, key, v⟩ ∈ c.order.elements

variable {c : Cache V} {n id : ℕ} {recent : List (Str × V)} {key : Str}

namespace Holds

theorem mem_keys_iff (h : Holds c n recent) :
    key ∈ (recent.take n).map Prod.fst ↔ ∃ id, c.items.lookup key = some id := by
  rw [← h.entries]
  simp only [h.items, mem_map]
  constructor
  · rintro ⟨p, ⟨e, he, rfl⟩, rfl⟩
    exact ⟨e.id, e.value.2, he⟩
  · rintro ⟨id, v, he⟩
    exact ⟨_, ⟨_, he, rfl⟩, rfl⟩

theorem id_eq_iff (h : Holds c n recent) (hid : c.items.lookup key = some id)
    {e : Element (Str × V)} (he : e ∈ c.order.elements) : e.id = id ↔ e.value.1 = key := by
  have hlookup := (h.items e.value.1 e.id).mpr ⟨e.value.2, he⟩
  constructor
  · intro heq
    obtain ⟨v, hv⟩ := (h.items key id).mp hid
    rw [LinkedList.eq_of_id he hv heq]
  intro heq
  rw [heq, hid] at hlookup
  exact (Option.some.inj hlookup).symm

theorem touch (h : Holds c (n + 1) recent) (hid : c.items.lookup key = some id) {v : V}
    {order : LinkedList (Str × V)}
    (horder : order.elements = ⟨id, key, v⟩ :: c.order.elements.filter (·.id ≠ id)) :
    Holds { c with order := order } (n + 1) ((key, v) :: recent.filter (·.1 ≠ key)) := by
  refine ⟨?_, ?_, ?_⟩
  · rw [map_cons, nodup_cons]
    exact ⟨by simp, (filter_sublist.map Prod.fst).nodup h.distinct⟩
  · have hfilter : c.order.elements.filter (·.id ≠ id) = c.order.elements.filter (·.value.1 ≠ key) :=
      filter_congr fun e he => by simp [h.id_eq_iff hid he]
    show order.elements.map Element.value = _
    rw [horder, take_succ_cons, take_filter_of_mem h.distinct (h.mem_keys_iff.mpr ⟨id, hid⟩), ← h.entries,
      map_cons, hfilter, filter_map]
    rfl
  intro other i
  show c.items.lookup other = some i ↔ ∃ w, _ ∈ order.elements
  simp only [horder, mem_cons, mem_filter]
  by_cases hi : i = id
  · subst hi
    constructor
    · intro hother
      obtain ⟨w, hw⟩ := (h.items other i).mp hother
      exact ⟨v, .inl (by rw [← (h.id_eq_iff hid hw).mp rfl])⟩
    rintro ⟨w, heq | hmem⟩
    · cases heq
      exact hid
    · simp at hmem
  · simp [hi, h.items]

theorem evict (h : Holds c (n + 1) recent) (hcap : c.cap = n + 1) : Holds c.evict n recent := by
  unfold Cache.evict
  have hlength : c.order.elements.length = min (n + 1) recent.length := by
    have hmapped := congrArg length h.entries
    rwa [length_map, length_take] at hmapped
  split_ifs with hfull
  · have hne : c.order.elements ≠ [] := ne_nil_of_length_pos (by omega)
    have hback : c.order.back = some (c.order.elements.getLast hne) := getLast?_eq_some_getLast hne
    rw [hback]
    set back := c.order.elements.getLast hne
    have hmem : back ∈ c.order.elements := getLast_mem hne
    have hid := (h.items back.value.1 back.id).mpr ⟨back.value.2, hmem⟩
    have hinit : c.order.elements.dropLast ++ [back] = c.order.elements := dropLast_append_getLast hne
    have hremove : (c.order.remove back.id).elements = c.order.elements.dropLast := by
      have hdistinct := c.order.distinct
      rw [← hinit, map_append, nodup_append] at hdistinct
      show c.order.elements.filter (·.id ≠ back.id) = _
      rw [← hinit, filter_append, filter_of_notMem]
      · simp
      · intro hold
        exact hdistinct.2.2 _ hold _ (mem_map_of_mem mem_cons_self) rfl
    refine ⟨h.distinct, ?_, fun other i => ?_⟩
    · show (c.order.remove back.id).elements.map Element.value = _
      rw [hremove, map_dropLast, h.entries, dropLast_eq_take, take_take, length_take]
      congr 1
      omega
    show (c.items.erase back.value.1).lookup other = some i ↔ ∃ w, _ ∈ (c.order.remove back.id).elements
    simp only [LinkedList.mem_remove, GoMap.lookup_erase_if]
    split_ifs with hother
    · refine iff_of_false (by simp) ?_
      rintro ⟨w, hw, hi⟩
      exact hi ((h.id_eq_iff hid hw).mpr hother)
    · rw [h.items]
      exact exists_congr fun w => ⟨fun hw => ⟨hw, mt (h.id_eq_iff hid hw).mp hother⟩, And.left⟩
  · have htake : recent.take n = recent.take (n + 1) := by
      rw [take_of_length_le (by omega), take_of_length_le (by omega)]
    exact ⟨h.distinct, h.entries.trans htake.symm, h.items⟩

section

variable (h : Holds c n recent)

include h

theorem pushFront (hkey : key ∉ (recent.take n).map Prod.fst) (v : V) :
    Holds (c.pushFront key v) (n + 1) ((key, v) :: recent.filter (·.1 ≠ key)) := by
  refine ⟨?_, ?_, ?_⟩
  · rw [map_cons, nodup_cons]
    exact ⟨by simp, (filter_sublist.map Prod.fst).nodup h.distinct⟩
  · rw [take_succ_cons, take_filter_of_notMem hkey, ← h.entries]
    rfl
  intro other i
  show (c.items.insert key c.order.next).lookup other = some i ↔
    ∃ w, _ ∈ (c.order.pushFront (key, v)).elements
  simp only [LinkedList.mem_pushFront, GoMap.lookup_insert_if, exists_or, ← h.items]
  have hfree : ∀ i, c.items.lookup key ≠ some i := fun i hi => hkey (h.mem_keys_iff.mpr ⟨i, hi⟩)
  split_ifs with heq
  · subst heq
    simp [hfree, eq_comm]
  · simp [heq]

theorem find?_eq_some {v : V} (hv : ⟨id, key, v⟩ ∈ c.order.elements) :
    (recent.take n).find? (·.1 = key) = some (key, v) ∧ c.entry id = some (key, v) := by
  have hdistinct : ((recent.take n).map Prod.fst).Nodup :=
    ((take_sublist n recent).map Prod.fst).nodup h.distinct
  have hmem : (key, v) ∈ recent.take n := h.entries ▸ mem_map_of_mem hv
  rw [Cache.entry, ← head?_filter, ← head?_filter, filter_of_mem hdistinct hmem,
    filter_of_mem c.order.distinct hv]
  exact ⟨rfl, rfl⟩

theorem find?_eq_none (hkey : c.items.lookup key = none) :
    (recent.take n).find? (·.1 = key) = none := by
  refine List.find?_eq_none.mpr fun p hp heq => ?_
  obtain ⟨i, hi⟩ := h.mem_keys_iff.mp (mem_map.mpr ⟨p, hp, of_decide_eq_true heq⟩)
  rw [hkey] at hi
  cases hi

theorem get_eq (key : Str) :
    (c.get key).2 = ((recent.take n).find? (·.1 = key)).map Prod.snd := by
  unfold Cache.get
  split
  · next id hid =>
    obtain ⟨v, hv⟩ := (h.items key id).mp hid
    rw [(h.find?_eq_some hv).1, (h.find?_eq_some hv).2]
  · next hnone => rw [h.find?_eq_none hnone]; rfl

end

theorem elements_moveToFront {v : V} (hv : ⟨id, key, v⟩ ∈ c.order.elements) :
    (c.order.moveToFront id).elements = ⟨id, key, v⟩ :: c.order.elements.filter (·.id ≠ id) := by
  show c.order.elements.filter (·.id = id) ++ c.order.elements.filter (fun e => !decide (e.id = id)) = _
  rw [filter_of_mem c.order.distinct hv, singleton_append]
  simp

theorem step (h : Holds c (n + 1) recent) (hcap : c.cap = n + 1) (op : Op V) :
    Holds (c.step op) (n + 1) (recentStep (n + 1) recent op) := by
  cases op with
  | get key =>
    simp only [Cache.step, recentStep, Cache.get]
    cases hid : c.items.lookup key with
    | none =>
      rw [h.find?_eq_none hid]
      exact h
    | some id =>
      obtain ⟨v, hv⟩ := (h.items key id).mp hid
      rw [(h.find?_eq_some hv).1]
      exact h.touch hid (elements_moveToFront hv)
  | put key value =>
    simp only [Cache.step, recentStep, Cache.put]
    cases hid : c.items.lookup key with
    | none =>
      refine (h.evict hcap).pushFront (fun hmem => ?_) value
      have hsub : recent.take n <+ recent.take (n + 1) := take_sublist_take_left (Nat.le_succ n)
      obtain ⟨i, hi⟩ := h.mem_keys_iff.mp ((hsub.map Prod.fst).subset hmem)
      rw [hid] at hi
      cases hi
    | some id =>
      obtain ⟨v, hv⟩ := (h.items key id).mp hid
      refine h.touch hid ?_
      show ((c.order.moveToFront id).elements.map _) = _
      rw [elements_moveToFront hv, (h.find?_eq_some hv).2, map_cons]
      refine congrArg₂ cons (if_pos rfl) ((map_congr_left fun e he => if_neg ?_).trans (map_id _))
      exact of_decide_eq_true (mem_filter.mp he).2

end Holds

theorem cap_step (c : Cache V) (op : Op V) : (c.step op).cap = c.cap := by
  have hevict : c.evict.cap = c.cap := by
    unfold Cache.evict
    split
    · split <;> rfl
    · rfl
  cases op with
  | get key =>
    simp only [Cache.step, Cache.get]
    split <;> rfl
  | put key value =>
    simp only [Cache.step, Cache.put]
    split
    · rfl
    · exact hevict

theorem holds_run {cap : ℕ} (hcap : 1 ≤ cap) (run : List (Op V)) :
    Holds (run.foldl Cache.step (newCache cap)) cap (run.foldl (recentStep cap) []) ∧
      (run.foldl Cache.step (newCache cap)).cap = cap := by
  obtain ⟨n, rfl⟩ := Nat.exists_eq_add_of_le' hcap
  induction run using reverseRecOn with
  | nil => exact ⟨⟨nodup_nil, rfl, fun key id => by simp [newCache, LinkedList.empty]⟩, rfl⟩
  | append_singleton run op ih =>
    rw [foldl_concat, foldl_concat]
    exact ⟨ih.1.step ih.2 op, (cap_step _ op).trans ih.2⟩

theorem lastPut_of_mem (cap : ℕ) (run : List (Op V)) :
    ∀ p ∈ run.foldl (recentStep cap) [], lastPut run p.1 = some p.2 := by
  induction run using reverseRecOn with
  | nil => simp
  | append_singleton run op ih =>
    intro p hp
    rw [foldl_concat] at hp
    rw [lastPut, foldl_concat]
    cases op with
    | get key =>
      refine ih p ?_
      simp only [recentStep] at hp
      split at hp
      · next q hq =>
        rcases mem_cons.mp hp with rfl | hp
        · exact mem_of_mem_take (mem_of_find?_eq_some hq)
        · exact mem_of_mem_filter hp
      · exact hp
    | put key value =>
      rcases mem_cons.mp hp with rfl | hp
      · exact if_pos rfl
      · obtain ⟨hmem, hne⟩ := mem_filter.mp hp
        exact (if_neg (Ne.symm (of_decide_eq_true hne))).trans (ih p hmem)

/-- The list is the first of the keys by last use, `Get` finds these alone, and the map leads to
them. -/
theorem cache_is_most_recent {cap : ℕ} (hcap : 1 ≤ cap) (run : List (Op V)) :
    let c := run.foldl Cache.step (newCache cap)
    let recent := run.foldl (recentStep cap) []
    (c.order.elements.map Element.value = recent.take cap ∧ (recent.map Prod.fst).Nodup ∧
      ∀ p ∈ recent, lastPut run p.1 = some p.2) ∧
    (∀ key, (c.get key).2 = ((recent.take cap).find? (·.1 = key)).map Prod.snd) ∧
    ∀ key id, c.items.lookup key = some id ↔ ∃ v, ⟨id, key, v⟩ ∈ c.order.elements := by
  intro c recent
  have h := (holds_run hcap run).1
  exact ⟨⟨h.entries, h.distinct, lastPut_of_mem cap run⟩, h.get_eq, h.items⟩

/-- The key `a` is used before the third key is put, so `b` goes. -/
theorem read_key_stays :
    (([.put [97] 1, .put [98] 2, .get [97], .put [99] 3].foldl Cache.step (newCache 2)).get [97]).2 = some 1 ∧
      (([.put [97] 1, .put [98] 2, .get [97], .put [99] 3].foldl Cache.step (newCache 2)).get [98]).2 = none :=
  ⟨(cache_is_most_recent (by decide) _).2.1 [97], (cache_is_most_recent (by decide) _).2.1 [98]⟩

end HelixCluster.Lru
