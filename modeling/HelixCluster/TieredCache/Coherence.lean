import HelixCluster.Lib.Runs
import HelixCluster.TieredCache.Cache

/-!
# The tiers as one map

`Get` finds the hottest copy of a key (`Cache.found`), and promotion and eviction leave its value as
it is.
-/

namespace HelixCluster.TieredCache

open Option AList GoMap

/-! ### The copies of a key -/

/-- The copies of a key in the three tiers. -/
structure Copies where
  hot : Option Record
  warm : Option (List UInt8)
  cold : Option (List UInt8)

/-- The hottest copy. -/
def Copies.found (v : Copies) : Option (List UInt8) := (v.hot.map Record.value).or (v.warm.or v.cold)

namespace Cache

variable {c : Cache} {f : Faults}

def copies (c : Cache) (key : Str) : Copies :=
  ⟨c.hot.lookup key, c.warm.lookup key, c.cold.lookup key⟩

/-- The value that `Get` finds if nothing fails. -/
def found (c : Cache) (key : Str) : Option (List UInt8) := (c.copies key).found

theorem found_eq (c : Cache) (key : Str) :
    c.found key = ((c.hot.lookup key).map Record.value).or
      ((c.warm.lookup key).or (c.cold.lookup key)) := rfl

theorem copies_hotDelete (c : Cache) (key k : Str) :
    (c.hotDelete key).copies k = if k = key then { c.copies k with hot := none } else c.copies k := by
  unfold hotDelete
  split
  · next hnone =>
    split
    · next heq =>
      subst heq
      simp only [copies, hnone]
    · rfl
  · simp only [copies, lookup_erase_if]
    split <;> rfl

variable {key : Str}

theorem found_moveToWarm {r : Record} (hr : c.hot.lookup key = some r) (k : Str) :
    ({ c with warm := c.warm.insert key r.value }.hotDelete key).found k = c.found k := by
  rw [found, copies_hotDelete]
  split_ifs with heq
  · subst heq
    simp only [copies, found, Copies.found, lookup_insert, hr, map_none, map_some, none_or, some_or]
  · simp only [copies, found, Copies.found, lookup_insert_ne heq]

theorem found_enforceHotCap (k : Str) : (c.enforceHotCap f).found k = c.found k := by
  refine enforceHotCap_rec (P := fun d : Cache => d.found k = c.found k) (fun _ _ hd _ _ => hd) ?_ rfl
  intro d back r hd _ hr
  rw [found_moveToWarm hr, hd]

theorem found_hotSet (key : Str) (value : List UInt8) (time : ℤ) (k : Str) :
    (c.hotSet f key value time).found k = if k = key then some value else c.found k := by
  unfold hotSet
  split
  · simp only [found_eq, lookup_insert_if]
    split <;> rfl
  rw [found_enforceHotCap]
  simp only [found_eq, lookup_insert_if]
  split <;> rfl

theorem found_putWarm {value : List UInt8} (h : c.found key = some value) (stats : Stats)
    (k : Str) :
    { c with warm := c.warm.insert key value, stats := stats }.found k = c.found k := by
  by_cases heq : k = key
  · subst heq
    rw [h]
    rw [found_eq] at h ⊢
    dsimp only
    cases hhot : c.hot.lookup k with
    | none => simp only [lookup_insert, map_none, none_or, some_or]
    | some r => simpa only [hhot, map_some, some_or] using h
  · simp only [found_eq, lookup_insert_ne heq]

theorem found_get (now : ℤ) (key k : Str) : (c.get f now key).1.found k = c.found k := by
  have hgot := c.get_spec f now key
  generalize c.get f now key = result at hgot
  cases hgot with
  | touched r stats hr =>
    simp only [found_eq, lookup_insert_if]
    split_ifs with heq
    · subst heq
      rw [hr]
      rfl
    · rfl
  | promoted value tier warm stats hnone hvalue hwarm =>
    have hset : (c.hotSet f key value now).found k = c.found k := by
      rw [found_hotSet]
      split_ifs with heq
      · subst heq
        rw [found_eq, hnone, hvalue]
        rfl
      · rfl
    rcases hwarm with rfl | rfl
    · exact hset
    · rw [found_putWarm (by rw [found_hotSet, if_pos rfl]), hset]
  | failed | absent => rfl

theorem found_of_get_ok {now : ℤ} {value : List UInt8} {tier : TierName}
    (h : (c.get f now key).2 = .ok (value, tier)) : c.found key = some value := by
  have hgot := c.get_spec f now key
  generalize c.get f now key = result at hgot h
  cases hgot with
  | touched r _ hr =>
    cases h
    rw [found_eq, hr]
    rfl
  | promoted v _ _ _ hnone hvalue =>
    cases h
    rw [found_eq, hnone, hvalue]
    rfl
  | failed | absent => cases h

/-- What a map with this value under the key answers. -/
def Answers : Option (List UInt8) → Except (Option TierName × Error) (List UInt8 × TierName) → Prop
  | some value, .ok (got, _) => got = value
  | none, .error (none, .notFound) => True
  | _, _ => False

theorem answers_get (c : Cache) (now : ℤ) (key : Str) :
    Answers (c.found key) (c.get .none now key).2 := by
  have hgot := c.get_spec .none now key
  generalize c.get .none now key = result at hgot
  cases hgot with
  | touched r _ hr =>
    rw [found_eq, hr]
    rfl
  | promoted v _ _ _ hnone hvalue =>
    rw [found_eq, hnone, hvalue]
    rfl
  | failed _ hfault => exact hfault.elim (fun h => by cases h) (fun h => by cases h)
  | absent hhot hwarm hcold =>
    rw [found_eq, hhot, hwarm, hcold]
    trivial

/-! ### Maintenance -/

end Cache

/-- What a turn of `RunMaintenance` makes of the copies of its key. -/
def Copies.demote (f : Faults) (deadline : ℤ) (key : Str) (v : Copies) : Copies :=
  match v.hot with
  | none => v
  | some r =>
    if r.lastAccess < deadline ∧ f.warmGet key = false then
      match v.warm with
      | some _ =>
        ⟨none, if f.warmDelete key then v.warm else none, if f.coldPut key then v.cold else some r.value⟩
      | none => if f.warmPut key then v else ⟨none, some r.value, v.cold⟩
    else v

/-- If the key leaves the Hot tier and is in the Warm tier, it is deleted or equal there, and in the
Cold tier written or equal, if there. -/
def Copies.KeepsCurrent (f : Faults) (deadline : ℤ) (key : Str) (v : Copies) : Prop :=
  ∀ r warm, v.hot = some r → r.lastAccess < deadline → f.warmGet key = false → v.warm = some warm →
    (f.warmDelete key = true → warm = r.value) ∧
    (f.warmDelete key = false → f.coldPut key = true → ∀ cold, v.cold = some cold → cold = r.value)

namespace Copies

variable {f : Faults} {deadline : ℤ} {key : Str} {v : Copies}

theorem found_of_hot {r : Record} (hr : v.hot = some r) : v.found = some r.value := by
  rw [found, hr]
  rfl

theorem demote_cases (f : Faults) (deadline : ℤ) (key : Str) (v : Copies) :
    v.demote f deadline key = v ∨
    ∃ r, v.hot = some r ∧ r.lastAccess < deadline ∧ f.warmGet key = false ∧
      ((v.warm = none ∧ v.demote f deadline key = ⟨none, some r.value, v.cold⟩) ∨
        ∃ warm, v.warm = some warm ∧ v.demote f deadline key =
          ⟨none, if f.warmDelete key then v.warm else none,
            if f.coldPut key then v.cold else some r.value⟩) := by
  unfold demote
  split
  · exact .inl rfl
  · next r hr =>
    split
    · next hidle =>
      split
      · next warm hwarm => exact .inr ⟨r, hr, hidle.1, hidle.2, .inr ⟨warm, hwarm, rfl⟩⟩
      · next hwarm =>
        split
        · exact .inl rfl
        · exact .inr ⟨r, hr, hidle.1, hidle.2, .inl ⟨hwarm, rfl⟩⟩
    · exact .inl rfl

theorem found_demote_iff (f : Faults) (deadline : ℤ) (key : Str) (v : Copies) :
    (∀ value, (v.demote f deadline key).found = some value → v.found = some value) ↔
      v.KeepsCurrent f deadline key := by
  constructor
  · intro h r warm hr hidle hget hwarm
    have hdemote : v.demote f deadline key = ⟨none, if f.warmDelete key then v.warm else none,
          if f.coldPut key then v.cold else some r.value⟩ := by
      simp only [demote, hr, hidle, hget, hwarm, and_self, if_true]
    rw [hdemote, found_of_hot hr] at h
    refine ⟨fun hdelete => ?_, fun hdelete hput cold hcold => ?_⟩
    · have hfound := h warm (by simp [found, hdelete, hwarm])
      exact (Option.some.inj hfound).symm
    · have hfound := h cold (by simp [found, hdelete, hput, hcold])
      exact (Option.some.inj hfound).symm
  intro h value hvalue
  obtain hsame | ⟨r, hr, hidle, hget, ⟨-, hdemote⟩ | ⟨warm, hwarm, hdemote⟩⟩ :=
    demote_cases f deadline key v
  · exact hsame ▸ hvalue
  · rw [hdemote] at hvalue
    rw [found_of_hot hr]
    exact hvalue
  obtain ⟨hstale, hcold⟩ := h r warm hr hidle hget hwarm
  rw [found_of_hot hr]
  rw [hdemote, found, map_none, none_or] at hvalue
  dsimp only at hvalue
  -- the hottest copy that is left: the warm one if its deletion failed, or else the cold one
  by_cases hdelete : f.warmDelete key = true
  · rw [if_pos hdelete, hwarm, some_or, hstale hdelete] at hvalue
    exact hvalue
  rw [if_neg hdelete, none_or] at hvalue
  split at hvalue
  · next hput => rw [hcold (Bool.eq_false_iff.mpr hdelete) hput value hvalue]
  · exact hvalue

theorem found_demote_none (deadline : ℤ) (key : Str) (v : Copies) :
    (v.demote .none deadline key).found = v.found := by
  obtain hsame | ⟨r, hr, -, -, ⟨-, hdemote⟩ | ⟨warm, -, hdemote⟩⟩ := demote_cases .none deadline key v
  · rw [hsame]
  · rw [hdemote, found_of_hot hr]
    rfl
  · rw [hdemote, found_of_hot hr]
    rfl

end Copies

namespace Cache

variable {c : Cache} {f : Faults}

theorem copies_demoteIdle (f : Faults) (deadline : ℤ) (c : Cache) (key k : Str) :
    (demoteIdle f deadline c key).copies k =
      if k = key then (c.copies key).demote f deadline key else c.copies k := by
  have hturn := demoteIdle_spec f deadline c key
  generalize demoteIdle f deadline c key = next at hturn
  cases hturn with
  | kept hkept =>
    have hsame : (c.copies key).demote f deadline key = c.copies key := by
      unfold Copies.demote
      split
      · rfl
      · next r hr =>
        split
        · next hidle =>
          obtain ⟨hwarm, hput⟩ := hkept r hr hidle.1 hidle.2
          simp only [copies, hwarm, hput, if_true]
        · rfl
    rw [hsame]
    split
    · next heq => rw [heq]
    · rfl
  | toWarm r hr hidle hget hwarm hput =>
    rw [copies_hotDelete]
    rcases eq_or_ne k key with rfl | heq
    · simp only [if_true, copies, Copies.demote, hr, hidle, hget, hwarm, hput, and_self,
        lookup_insert, Bool.false_eq_true, if_false]
    · simp only [if_neg heq, copies, lookup_insert_ne heq]
  | toCold r warm hr hidle hget hwarm =>
    rw [copies_hotDelete]
    rcases eq_or_ne k key with rfl | heq
    · simp only [if_true, copies, Copies.demote, hr, hidle, hget, hwarm, and_self]
      congr 1
      · split
        · exact hwarm
        · exact lookup_erase _ _
      split
      · rfl
      · exact lookup_insert _
    simp only [if_neg heq, copies]
    congr 1
    · split
      · rfl
      · exact lookup_erase_ne heq
    split
    · rfl
    · exact lookup_insert_ne heq

theorem copies_runMaintenance (f : Faults) (now : ℤ) (order : Shuffle Str) (c : Cache)
    (key : Str) : (c.runMaintenance f now order).copies key =
      (c.copies key).demote f (now - c.idleThreshold) key := by
  have hperm := order.perm c.hot.keys
  have hloop := view_foldl copies (demoteIdle f (now - c.idleThreshold))
    (Copies.demote f (now - c.idleThreshold)) (P := fun _ => True)
    (fun s k _ j => copies_demoteIdle f (now - c.idleThreshold) s k j)
    (hperm.nodup_iff.mpr c.hot.keys_nodup) (s := c) (fun _ _ => trivial) key
  refine hloop.trans ?_
  split_ifs with hcold
  · rfl
  · have hnone : (c.copies key).hot = none :=
      lookup_eq_none.mpr fun hmem => hcold (hperm.mem_iff.mpr hmem)
    simp only [Copies.demote, hnone]

end Cache

/-! ### Runs -/

/-- A cache, and the value of the last `Put` to each key. -/
structure World where
  cache : Cache
  last : GoMap Str (List UInt8)

/-- A call, with the reading of the clock. -/
inductive Call where
  | put (now : ℤ) (key : Str) (value : List UInt8)
  | get (now : ℤ) (key : Str)
  | runMaintenance (now : ℤ) (order : Shuffle Str)

namespace World

def start (maxHotEntries : ℕ) (idleThreshold : ℤ) : World := ⟨.empty maxHotEntries idleThreshold, ∅⟩

/-- A call, of which the given operations fail. -/
def step (w : World) : Faults × Call → World
  | (f, .put now key value) => ⟨w.cache.put f now key value, w.last.insert key value⟩
  | (f, .get now key) => ⟨(w.cache.get f now key).1, w.last⟩
  | (f, .runMaintenance now order) => ⟨w.cache.runMaintenance f now order, w.last⟩

/-- A call of which nothing fails. -/
def stepWell (w : World) (call : Call) : World := w.step (.none, call)

/-- A map to the values of the last `Put`, with the hot tier bounded and its keys once in the list.
-/
structure IsMap (w : World) (maxHotEntries : ℕ) : Prop where
  answers : ∀ now key, Cache.Answers (w.last.lookup key) (w.cache.get .none now key).2
  bounded : w.cache.hotCount ≤ maxHotEntries
  once : (w.cache.lru.elements.map Element.value).Nodup
  keys : ∀ key, key ∈ w.cache.lru.elements.map Element.value ↔ key ∈ w.cache.hot

/-- What the calls keep if nothing fails. -/
structure Inv (w : World) (maxHotEntries : ℕ) : Prop where
  found : ∀ key, w.cache.found key = w.last.lookup key
  inStep : w.cache.InStep
  bounded : w.cache.Bounded
  max : w.cache.maxHotEntries = maxHotEntries

variable {w : World} {maxHotEntries : ℕ}

theorem Inv.isMap (h : w.Inv maxHotEntries) : w.IsMap maxHotEntries where
  answers now key := h.found key ▸ w.cache.answers_get now key
  bounded := h.max ▸ h.bounded
  once := Linked.nodup_keys h.inStep
  keys _ := Linked.mem_keys_iff h.inStep

theorem Inv.stepWell (h : w.Inv maxHotEntries) (call : Call) : (w.stepWell call).Inv maxHotEntries := by
  cases call with
  | put now key value =>
    refine ⟨fun k => ?_, h.inStep.hotSet key value now, h.bounded.hotSet h.inStep key value now, ?_⟩
    · show (w.cache.hotSet .none key value now).found k = (w.last.insert key value).lookup k
      rw [Cache.found_hotSet, lookup_insert_if, h.found]
    · exact (Cache.hotSet_maxHotEntries ..).trans h.max
  | get now key =>
    refine ⟨fun k => ?_, h.inStep.get now key, h.bounded.get h.inStep now key, ?_⟩
    · exact (Cache.found_get now key k).trans (h.found k)
    · exact (Cache.get_maxHotEntries ..).trans h.max
  | runMaintenance now order =>
    refine ⟨fun k => ?_, h.inStep.runMaintenance now order, h.bounded.runMaintenance now order, ?_⟩
    · show ((w.cache.runMaintenance .none now order).copies k).found = w.last.lookup k
      rw [Cache.copies_runMaintenance, Copies.found_demote_none]
      exact h.found k
    · exact (Cache.runMaintenance_maxHotEntries ..).trans h.max

/-- If the lower tiers do not fail, the cache is a map in every state of every run. -/
theorem cache_is_map (maxHotEntries : ℕ) (idleThreshold : ℤ) (calls : List Call) :
    ∀ w ∈ states stepWell (start maxHotEntries idleThreshold) calls, w.IsMap maxHotEntries := by
  intro w hw
  have hstart : (start maxHotEntries idleThreshold).Inv maxHotEntries :=
    ⟨fun _ => rfl, Linked.empty, Nat.zero_le _, rfl⟩
  have hinv := forall_states (I := fun w : World => w.Inv maxHotEntries)
    (fun w call h => h.stepWell call) hstart calls w hw
  exact hinv.isMap

/-- Two keys, of which the hot tier holds one. -/
def twoPuts : List Call := [.put 0 [97] [1], .put 1 [98] [2]]

theorem evicted_value_kept : (twoPuts.foldl stepWell (start 1 10)).IsMap 1 ∧
      ((twoPuts.foldl stepWell (start 1 10)).cache.get .none 2 [97]).2 = .ok ([1], .warm) :=
  ⟨cache_is_map 1 10 twoPuts _ (foldl_mem_states ..), rfl⟩

/-! ### Runs in which the tiers fail -/

/-- A `Get` that succeeds, whatever fails in it, returns the value of the last `Put`. -/
def Current (w : World) : Prop :=
  ∀ f now key value tier, (w.cache.get f now key).2 = .ok (value, tier) → w.last.lookup key = some value

/-- The call leaves no older copy of a key as its hottest one. -/
def KeepsCurrent (w : World) : Faults × Call → Prop
  | (f, .runMaintenance now _) =>
    ∀ key, (w.cache.copies key).KeepsCurrent f (now - w.cache.idleThreshold) key
  | _ => True

theorem current_iff : w.Current ↔ ∀ key value, w.cache.found key = some value →
    w.last.lookup key = some value := by
  constructor
  · intro h key value hfound
    have hanswers := w.cache.answers_get 0 key
    rw [hfound] at hanswers
    cases hget : (w.cache.get .none 0 key).2 with
    | error e =>
      rw [hget] at hanswers
      exact hanswers.elim
    | ok got =>
      obtain ⟨got, tier⟩ := got
      rw [hget] at hanswers
      obtain rfl : got = value := hanswers
      exact h .none 0 key got tier hget
  · intro h f now key value tier hget
    exact h key value (Cache.found_of_get_ok hget)

theorem current_step_iff (h : w.Current) (call : Faults × Call) :
    (w.step call).Current ↔ w.KeepsCurrent call := by
  rw [current_iff] at h ⊢
  obtain ⟨f, call⟩ := call
  cases call with
  | put now key value =>
    refine iff_of_true (fun k v hfound => ?_) trivial
    change (w.cache.hotSet f key value now).found k = some v at hfound
    show (w.last.insert key value).lookup k = some v
    rw [Cache.found_hotSet] at hfound
    rw [lookup_insert_if]
    split_ifs at hfound with heq
    · rw [if_pos heq, hfound]
    · rw [if_neg heq]
      exact h k v hfound
  | get now key =>
    refine iff_of_true (fun k v hfound => h k v ?_) trivial
    exact (Cache.found_get now key k).symm.trans hfound
  | runMaintenance now order =>
    show (∀ key value, ((w.cache.runMaintenance f now order).copies key).found = some value →
      w.last.lookup key = some value) ↔ _
    simp only [Cache.copies_runMaintenance]
    refine forall_congr' fun key => ?_
    rw [← Copies.found_demote_iff]
    constructor
    · intro hnext value hvalue
      cases hhot : (w.cache.copies key).hot with
      | none =>
        have hsame : (w.cache.copies key).demote f (now - w.cache.idleThreshold) key =
            w.cache.copies key := by simp only [Copies.demote, hhot]
        exact hsame ▸ hvalue
      | some r =>
        have hfound := Copies.found_of_hot hhot
        have hlast := h key r.value hfound
        rw [hnext value hvalue] at hlast
        rw [hfound, hlast]
    · intro hkeeps value hvalue
      exact h key value (hkeeps value hvalue)

/-- No `Get` returns an old value in exactly the runs whose maintenance keeps all keys current. -/
theorem current_iff_keepsCurrent (maxHotEntries : ℕ) (idleThreshold : ℤ) (calls : List (Faults × Call)) :
    (∀ w ∈ states step (start maxHotEntries idleThreshold) calls, w.Current) ↔
      Along step KeepsCurrent (start maxHotEntries idleThreshold) calls := by
  have hstart : (start maxHotEntries idleThreshold).Current :=
    current_iff.mpr fun key value hfound => by cases hfound
  exact forall_states_iff (I := fun _ => True) (P := Current) (C := KeepsCurrent) (fun _ _ _ => trivial)
    (fun w call _ h => current_step_iff h call) trivial hstart calls

/-- A loop that takes the keys as they are listed. -/
def asListed : Shuffle Str := ⟨id, fun xs => .refl xs⟩

/-- A key is demoted, set again and idle once more, and cannot be deleted from the Warm tier. -/
def undeletable : List (Faults × Call) :=
  [(.none, .put 0 [107] [1]), (.none, .runMaintenance 10 asListed), (.none, .put 20 [107] [2]),
    ({ Faults.none with warmDelete := fun _ => true }, .runMaintenance 30 asListed)]

/-- The old value is back. -/
theorem undeletable_value_returns :
    (undeletable.foldl step (start 4 1)).last.lookup [107] = some [2] ∧
      ((undeletable.foldl step (start 4 1)).cache.get .none 40 [107]).2 = .ok ([1], .warm) :=
  ⟨rfl, rfl⟩

end World

end HelixCluster.TieredCache
