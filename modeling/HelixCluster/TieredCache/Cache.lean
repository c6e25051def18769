import HelixCluster.Lib.GoMap
import HelixCluster.Lib.LinkedList
import HelixCluster.Lib.Order

/-!
# The tiered cache

The `Cache` of `pkg/tieredcache`: a Hot tier in memory with a list of its keys by recency, and a
Warm and a Cold tier behind it.
-/

namespace HelixCluster.TieredCache

open GoMap List

inductive TierName where
  | hot
  | warm
  | cold
  deriving DecidableEq

/-- `ErrNotFound`, or another error of a tier such as `ErrCapabilityAbsent`. -/
inductive Error where
  | notFound
  | unavailable
  deriving DecidableEq

/-- The operations of a call that fail, by key. -/
structure Faults where
  warmGet : Str → Bool
  warmPut : Str → Bool
  warmDelete : Str → Bool
  coldGet : Str → Bool
  coldPut : Str → Bool

/-- Nothing fails. -/
def Faults.none : Faults :=
  ⟨fun _ => false, fun _ => false, fun _ => false, fun _ => false, fun _ => false⟩

/-- The contents of a tier. -/
abbrev Tier := GoMap Str (List UInt8)

namespace Tier

def get (t : Tier) (fails : Bool) (key : Str) : Except Error (List UInt8) :=
  if fails then .error .unavailable
  else
    match t.lookup key with
    | some value => .ok value
    | none => .error .notFound

/-- `Tier.Put`; it returns nothing if it fails. -/
def put (t : Tier) (fails : Bool) (key : Str) (value : List UInt8) : Option Tier :=
  if fails then none else some (t.insert key value)

/-- `Tier.Delete`; it returns nothing if it fails. -/
def delete (t : Tier) (fails : Bool) (key : Str) : Option Tier :=
  if fails then none else some (t.erase key)

end Tier

/-- `Record`. The element of the list of recency is given by its identity. -/
structure Record where
  value : List UInt8
  lastAccess : ℤ
  elem : ℕ

structure Stats where
  hotHits : Int64
  warmHits : Int64
  coldHits : Int64

structure Cache where
  hot : GoMap Str Record
  lru : LinkedList Str
  maxHotEntries : ℕ
  warm : Tier
  cold : Tier
  idleThreshold : ℤ
  stats : Stats

/-! ### New -/

/-- `Config`: the declared latencies of the tiers, and what is missing. -/
structure Config where
  warm : Option ℤ
  cold : Option ℤ
  idleThreshold : ℤ
  hasNow : Bool
  maxHotEntries : ℤ

/-- The errors of `New`. -/
inductive ConfigError where
  | warmNil
  | coldNil
  | idleThreshold
  | nowNil
  | warmLatency
  | coldLatency
  deriving DecidableEq

def defaultMaxHotEntries : ℕ := 4096

/-- A cache with nothing in any tier. -/
def Cache.empty (maxHotEntries : ℕ) (idleThreshold : ℤ) : Cache :=
  ⟨∅, .empty, maxHotEntries, ∅, ∅, idleThreshold, ⟨0, 0, 0⟩⟩

/-- `New`, with empty tiers. -/
def newCache (cfg : Config) : Except ConfigError Cache :=
  match cfg.warm with
  | none => .error .warmNil
  | some warmLatency =>
    match cfg.cold with
    | none => .error .coldNil
    | some coldLatency =>
      if cfg.idleThreshold ≤ 0 then .error .idleThreshold
      else if !cfg.hasNow then .error .nowNil
      else if warmLatency ≤ 0 then .error .warmLatency
      else if coldLatency ≤ warmLatency then .error .coldLatency
      else
        .ok (.empty (if cfg.maxHotEntries ≤ 0 then defaultMaxHotEntries else cfg.maxHotEntries.toNat)
          cfg.idleThreshold)

namespace Cache

/-! ### The hot tier -/

def hotDelete (c : Cache) (key : Str) : Cache :=
  match c.hot.lookup key with
  | none => c
  | some r => { c with lru := c.lru.remove r.elem, hot := c.hot.erase key }

/-- The loop of `enforceHotCap`. It returns nothing if it does not end within so many turns. -/
def evict (f : Faults) : ℕ → Cache → Option Cache
  | 0, _ => none
  | turns + 1, c =>
    if c.hot.len > c.maxHotEntries then
      match c.lru.back with
      | none => some c
      | some back =>
        match c.hot.lookup back.value with
        | none => evict f turns { c with lru := c.lru.remove back.id }
        | some r =>
          match c.warm.put (f.warmPut back.value) back.value r.value with
          | none => some c
          | some warm => evict f turns ({ c with warm := warm }.hotDelete back.value)
    else some c

/-- `enforceHotCap`. Each turn but the last takes a key out of the map or out of the list. -/
def enforceHotCap (c : Cache) (f : Faults) : Cache :=
  (c.evict f (c.hot.len + c.lru.elements.length + 1)).getD c

/-- `hotSet` with a new record. -/
def hotSet (c : Cache) (f : Faults) (key : Str) (value : List UInt8) (lastAccess : ℤ) : Cache :=
  match c.hot.lookup key with
  | some existing =>
    { c with
      lru := (c.lru.setValue existing.elem key).moveToFront existing.elem
      hot := c.hot.insert key ⟨value, lastAccess, existing.elem⟩ }
  | none =>
    { c with
      lru := c.lru.pushFront key
      hot := c.hot.insert key ⟨value, lastAccess, c.lru.next⟩ }.enforceHotCap f

/-! ### The calls -/

def put (c : Cache) (f : Faults) (now : ℤ) (key : Str) (value : List UInt8) : Cache :=
  c.hotSet f key value now

/-- `Get`: the cache after it, and the value or the error with its tier. -/
def get (c : Cache) (f : Faults) (now : ℤ) (key : Str) :
    Cache × Except (Option TierName × Error) (List UInt8 × TierName) :=
  match c.hot.lookup key with
  | some r =>
    ({ c with
        hot := c.hot.insert key { r with lastAccess := now }
        lru := c.lru.moveToFront r.elem
        stats := { c.stats with hotHits := c.stats.hotHits + 1 } }, .ok (r.value, .hot))
  | none =>
    match c.warm.get (f.warmGet key) key with
    | .ok value =>
      let c := c.hotSet f key value now
      ({ c with stats := { c.stats with warmHits := c.stats.warmHits + 1 } }, .ok (value, .warm))
    | .error .unavailable => (c, .error (some .warm, .unavailable))
    | .error .notFound =>
      match c.cold.get (f.coldGet key) key with
      | .ok value =>
        let c := c.hotSet f key value now
        -- the error of the write to the Warm tier is ignored
        let c := { c with warm := (c.warm.put (f.warmPut key) key value).getD c.warm }
        ({ c with stats := { c.stats with coldHits := c.stats.coldHits + 1 } }, .ok (value, .cold))
      | .error .unavailable => (c, .error (some .cold, .unavailable))
      | .error .notFound => (c, .error (none, .notFound))

/-- A turn of the loop of `RunMaintenance`. A key that is no longer hot is not visited. -/
def demoteIdle (f : Faults) (deadline : ℤ) (c : Cache) (key : Str) : Cache :=
  match c.hot.lookup key with
  | none => c
  | some r =>
    if r.lastAccess < deadline then
      match c.warm.get (f.warmGet key) key with
      | .ok _ =>
        { c with
          cold := (c.cold.put (f.coldPut key) key r.value).getD c.cold
          warm := (c.warm.delete (f.warmDelete key) key).getD c.warm }.hotDelete key
      | .error .notFound =>
        match c.warm.put (f.warmPut key) key r.value with
        | none => c
        | some warm => { c with warm := warm }.hotDelete key
      | .error .unavailable => c
    else c

def runMaintenance (c : Cache) (f : Faults) (now : ℤ) (order : Shuffle Str) : Cache :=
  (order.run c.hot.keys).foldl (demoteIdle f (now - c.idleThreshold)) c

def hotCount (c : Cache) : ℕ := c.hot.len

/-! ### The loop of `enforceHotCap` -/

section evict

variable {f : Faults} {c : Cache} {P : Cache → Prop}

/-- A turn drops the last element if its key is not hot, or else moves the key to the Warm tier. -/
theorem enforceHotCap_rec
    (hdrop : ∀ c back, P c → c.lru.back = some back → c.hot.lookup back.value = none →
      P { c with lru := c.lru.remove back.id })
    (hmove : ∀ c back r, P c → c.lru.back = some back → c.hot.lookup back.value = some r →
      P ({ c with warm := c.warm.insert back.value r.value }.hotDelete back.value))
    (h : P c) : P (c.enforceHotCap f) := by
  have hevict : ∀ (turns : ℕ) (c : Cache), P c → ∀ d ∈ c.evict f turns, P d := by
    intro turns
    induction turns with
    | zero => exact fun _ _ d hd => absurd hd (Option.not_mem_none d)
    | succ turns ih =>
      intro c h d hd
      rw [evict] at hd
      split at hd
      · split at hd
        · exact Option.some.inj hd ▸ h
        · next back hback =>
          split at hd
          · next hlookup => exact ih _ (hdrop c back h hback hlookup) d hd
          · next r hlookup =>
            split at hd
            · exact Option.some.inj hd ▸ h
            · next warm hwarm =>
              rw [Tier.put] at hwarm
              split at hwarm
              · cases hwarm
              · cases hwarm
                exact ih _ (hmove c back r h hback hlookup) d hd
      · exact Option.some.inj hd ▸ h
  rw [enforceHotCap]
  cases hresult : c.evict f (c.hot.len + c.lru.elements.length + 1) with
  | none => exact h
  | some d => exact hevict _ c h d hresult

@[simp] theorem hotDelete_maxHotEntries (c : Cache) (key : Str) :
    (c.hotDelete key).maxHotEntries = c.maxHotEntries := by
  unfold hotDelete
  split <;> rfl

theorem length_lru_remove_le (l : LinkedList Str) (id : ℕ) :
    (l.remove id).elements.length ≤ l.elements.length :=
  length_filter_le _ _

theorem hotDelete_measure {key : Str} {r : Record} (hr : c.hot.lookup key = some r) :
    (c.hotDelete key).hot.len + (c.hotDelete key).lru.elements.length <
      c.hot.len + c.lru.elements.length := by
  have hhot := len_erase_of_mem (mem_of_lookup hr)
  have hlru := length_lru_remove_le c.lru r.elem
  simp only [hotDelete, hr]
  omega

/-- Where the loop stops: within the bound, with nothing in the list, or at a key that the Warm tier
does not take. -/
def Stopped (f : Faults) (c : Cache) : Prop :=
  c.hot.len ≤ c.maxHotEntries ∨ c.lru.back = none ∨
    ∃ back r, c.lru.back = some back ∧ c.hot.lookup back.value = some r ∧ f.warmPut back.value

/-- More turns than there are keys and elements end the loop, and another one changes nothing. -/
theorem evict_stopped {turns : ℕ} (h : c.hot.len + c.lru.elements.length < turns) :
    ∃ d, c.evict f turns = some d ∧ c.evict f (turns + 1) = some d ∧ d.Stopped f := by
  induction turns generalizing c with
  | zero => exact absurd h (Nat.not_lt_zero _)
  | succ turns ih =>
    rw [evict, evict]
    split
    · split
      · next hback => exact ⟨c, rfl, rfl, .inr (.inl hback)⟩
      · next back hback =>
        split
        · have hlru : (c.lru.remove back.id).elements.length < c.lru.elements.length :=
            length_filter_lt_length_iff_exists.mpr
              ⟨back, mem_of_getLast? hback, by simp⟩
          refine ih ?_
          dsimp only
          omega
        · next r hr =>
          split
          · next hput =>
            refine ⟨c, rfl, rfl, .inr (.inr ⟨back, r, hback, hr, ?_⟩)⟩
            by_contra hfails
            simp [Tier.put, hfails] at hput
          · next warm _ =>
            have hless := hotDelete_measure (c := { c with warm := warm }) hr
            refine ih ?_
            dsimp only at hless
            omega
    · next hwithin => exact ⟨c, rfl, rfl, .inl (Nat.le_of_not_lt hwithin)⟩

theorem enforceHotCap_stopped (c : Cache) (f : Faults) : (c.enforceHotCap f).Stopped f := by
  obtain ⟨d, hd, _, hstopped⟩ :=
    evict_stopped (f := f) (Nat.lt_succ_self (c.hot.len + c.lru.elements.length))
  rwa [enforceHotCap, hd]

/-- **The loop of `enforceHotCap` ends**, whatever tiers fail, and further turns change nothing. -/
theorem evict_ends (c : Cache) (f : Faults) (more : ℕ) :
    c.evict f (c.hot.len + c.lru.elements.length + 1 + more) = some (c.enforceHotCap f) ∧
      (c.enforceHotCap f).Stopped f := by
  refine ⟨?_, c.enforceHotCap_stopped f⟩
  induction more with
  | zero =>
    obtain ⟨d, hd, _⟩ :=
      evict_stopped (f := f) (Nat.lt_succ_self (c.hot.len + c.lru.elements.length))
    exact hd.trans (by rw [enforceHotCap, hd, Option.getD_some])
  | succ more ih =>
    have hturns : c.hot.len + c.lru.elements.length <
        c.hot.len + c.lru.elements.length + 1 + more := by omega
    obtain ⟨d, hd, hnext, _⟩ := evict_stopped (f := f) hturns
    rw [← Nat.add_assoc, hnext, ← hd, ih]

@[simp] theorem hotSet_maxHotEntries (key : Str) (value : List UInt8) (time : ℤ) :
    (c.hotSet f key value time).maxHotEntries = c.maxHotEntries := by
  unfold hotSet
  split
  · rfl
  · exact enforceHotCap_rec (P := fun d : Cache => d.maxHotEntries = c.maxHotEntries)
      (fun _ _ h _ _ => h) (fun _ _ _ h _ _ => (hotDelete_maxHotEntries ..).trans h) rfl

/-- `Get` touches the record, promotes a value from a lower tier, or fails. -/
inductive Got (c : Cache) (f : Faults) (now : ℤ) (key : Str) :
    Cache × Except (Option TierName × Error) (List UInt8 × TierName) → Prop
  | touched (r : Record) (stats : Stats) (hr : c.hot.lookup key = some r) :
      Got c f now key
        ({ c with
            hot := c.hot.insert key ⟨r.value, now, r.elem⟩
            lru := c.lru.moveToFront r.elem
            stats := stats }, .ok (r.value, .hot))
  | promoted (value : List UInt8) (tier : TierName) (warm : Tier) (stats : Stats)
      (hnone : c.hot.lookup key = none)
      (hvalue : (c.warm.lookup key).or (c.cold.lookup key) = some value)
      (hwarm : warm = (c.hotSet f key value now).warm ∨
        warm = (c.hotSet f key value now).warm.insert key value) :
      Got c f now key
        ({ c.hotSet f key value now with warm := warm, stats := stats }, .ok (value, tier))
  | failed (tier : TierName) (hfault : f.warmGet key = true ∨ f.coldGet key = true) :
      Got c f now key (c, .error (some tier, .unavailable))
  | absent (hhot : c.hot.lookup key = none) (hwarm : c.warm.lookup key = none)
      (hcold : c.cold.lookup key = none) :
      Got c f now key (c, .error (none, .notFound))

theorem get_spec (c : Cache) (f : Faults) (now : ℤ) (key : Str) :
    Got c f now key (c.get f now key) := by
  rw [get]
  cases hhot : c.hot.lookup key with
  | some r => exact .touched r _ hhot
  | none =>
    dsimp only
    rw [Tier.get]
    split_ifs with hwarmFails
    · exact .failed _ (.inl hwarmFails)
    cases hwarm : c.warm.lookup key with
    | some value =>
      exact .promoted value .warm _ _ hhot (by rw [hwarm, Option.some_or]) (.inl rfl)
    | none =>
      dsimp only
      rw [Tier.get]
      split_ifs with hcoldFails
      · exact .failed _ (.inr hcoldFails)
      cases hcold : c.cold.lookup key with
      | some value =>
        refine .promoted value .cold _ _ hhot (by rw [hwarm, hcold, Option.none_or]) ?_
        unfold Tier.put
        split
        · exact .inl rfl
        · exact .inr rfl
      | none => exact .absent hhot hwarm hcold

/-- What a turn of `RunMaintenance` comes to: nothing, or the key leaves the Hot tier. -/
inductive Demoted (f : Faults) (deadline : ℤ) (c : Cache) (key : Str) : Cache → Prop
  | kept (hkept : ∀ r, c.hot.lookup key = some r → r.lastAccess < deadline → f.warmGet key = false →
        c.warm.lookup key = none ∧ f.warmPut key = true) :
      Demoted f deadline c key c
  | toWarm (r : Record) (hr : c.hot.lookup key = some r) (hidle : r.lastAccess < deadline)
      (hget : f.warmGet key = false) (hwarm : c.warm.lookup key = none) (hput : f.warmPut key = false) :
      Demoted f deadline c key ({ c with warm := c.warm.insert key r.value }.hotDelete key)
  | toCold (r : Record) (warm : List UInt8) (hr : c.hot.lookup key = some r)
      (hidle : r.lastAccess < deadline) (hget : f.warmGet key = false)
      (hwarm : c.warm.lookup key = some warm) :
      Demoted f deadline c key
        ({ c with
          cold := if f.coldPut key then c.cold else c.cold.insert key r.value
          warm := if f.warmDelete key then c.warm else c.warm.erase key }.hotDelete key)

theorem demoteIdle_spec (f : Faults) (deadline : ℤ) (c : Cache) (key : Str) :
    Demoted f deadline c key (demoteIdle f deadline c key) := by
  unfold demoteIdle
  cases hhot : c.hot.lookup key with
  | none => exact .kept fun r hr => by rw [hhot] at hr; cases hr
  | some r =>
    dsimp only
    split_ifs with hidle
    · rw [Tier.get]
      cases hget : f.warmGet key with
      | true => exact .kept fun _ _ _ h => by rw [hget] at h; cases h
      | false =>
        cases hwarm : c.warm.lookup key with
        | some warm =>
          have hcold : (c.cold.put (f.coldPut key) key r.value).getD c.cold =
              if f.coldPut key then c.cold else c.cold.insert key r.value := by
            unfold Tier.put
            split <;> rfl
          have hdelete : (c.warm.delete (f.warmDelete key) key).getD c.warm =
              if f.warmDelete key then c.warm else c.warm.erase key := by
            unfold Tier.delete
            split <;> rfl
          dsimp only [Bool.false_eq_true]
          rw [if_neg Bool.false_ne_true, hcold, hdelete]
          exact .toCold r warm hhot hidle hget hwarm
        | none =>
          dsimp only
          rw [if_neg Bool.false_ne_true, Tier.put]
          cases hput : f.warmPut key with
          | true => exact .kept fun _ _ _ _ => ⟨hwarm, hput⟩
          | false => exact .toWarm r hhot hidle hget hwarm hput
    · refine .kept fun s hs hlt => ?_
      rw [hhot] at hs
      cases hs
      exact absurd hlt hidle

theorem runMaintenance_rec
    (hdelete : ∀ d warm cold key, P d → P ({ d with warm := warm, cold := cold }.hotDelete key))
    (now : ℤ) (order : Shuffle Str) (h : P c) : P (c.runMaintenance f now order) := by
  refine List.foldlRecOn _ _ h fun d hd key _ => ?_
  have hturn := demoteIdle_spec f (now - c.idleThreshold) d key
  generalize demoteIdle f (now - c.idleThreshold) d key = next at hturn
  cases hturn with
  | kept => exact hd
  | toWarm => exact hdelete d _ d.cold key hd
  | toCold => exact hdelete d _ _ key hd

@[simp] theorem get_maxHotEntries (now : ℤ) (key : Str) :
    (c.get f now key).1.maxHotEntries = c.maxHotEntries := by
  have hgot := c.get_spec f now key
  generalize c.get f now key = result at hgot
  cases hgot with
  | touched | failed | absent => rfl
  | promoted => exact hotSet_maxHotEntries ..

@[simp] theorem runMaintenance_maxHotEntries (now : ℤ) (order : Shuffle Str) :
    (c.runMaintenance f now order).maxHotEntries = c.maxHotEntries :=
  runMaintenance_rec (P := fun d : Cache => d.maxHotEntries = c.maxHotEntries)
    (fun _ _ _ _ hd => (hotDelete_maxHotEntries ..).trans hd) now order rfl

end evict

end Cache

/-! ### The list of recency -/

/-- The elements of the list are those of the hot keys. -/
structure Linked (hot : GoMap Str Record) (lru : LinkedList Str) : Prop where
  listed : ∀ key r, hot.lookup key = some r → ⟨r.elem, key⟩ ∈ lru.elements
  isHot : ∀ e ∈ lru.elements, ∃ r, hot.lookup e.value = some r ∧ r.elem = e.id

namespace Linked

variable {hot : GoMap Str Record} {lru : LinkedList Str} {key : Str} {r : Record}

theorem empty : Linked ∅ .empty where
  listed key r hr := by
    rw [AList.lookup_empty] at hr
    cases hr
  isHot e he := absurd he not_mem_nil

section

variable (h : Linked hot lru)

include h

theorem nodup_keys : (lru.elements.map Element.value).Nodup := by
  have hids : lru.elements.Nodup := List.Nodup.of_map Element.id lru.distinct
  refine hids.map_on fun e he d hd hvalue => ?_
  obtain ⟨r, hr, hre⟩ := h.isHot e he
  obtain ⟨s, hs, hsd⟩ := h.isHot d hd
  rw [hvalue, hs] at hr
  cases hr
  exact LinkedList.eq_of_id he hd (hre.symm.trans hsd)

theorem mem_keys_iff : key ∈ lru.elements.map Element.value ↔ key ∈ hot := by
  constructor
  · intro hmem
    obtain ⟨e, he, rfl⟩ := mem_map.mp hmem
    obtain ⟨r, hr, -⟩ := h.isHot e he
    exact mem_of_lookup hr
  intro hmem
  obtain ⟨r, hr⟩ := exists_lookup_of_mem hmem
  exact mem_map.mpr ⟨_, h.listed key r hr, rfl⟩

theorem erase (hr : hot.lookup key = some r) : Linked (hot.erase key) (lru.remove r.elem) where
  listed k s hs := by
    rw [lookup_erase_if] at hs
    split at hs
    · cases hs
    · next hne =>
      have hmem := h.listed k s hs
      refine LinkedList.mem_remove.mpr ⟨hmem, fun hid => hne ?_⟩
      exact congrArg Element.value (LinkedList.eq_of_id hmem (h.listed key r hr) hid)
  isHot e he := by
    obtain ⟨hmem, hid⟩ := LinkedList.mem_remove.mp he
    obtain ⟨s, hs, hse⟩ := h.isHot e hmem
    refine ⟨s, ?_, hse⟩
    rw [lookup_erase_if, if_neg]
    · exact hs
    rintro hkey
    rw [hkey, hr] at hs
    cases hs
    exact hid hse.symm

theorem insert (hnew : hot.lookup key = none) (value : List UInt8) (time : ℤ) :
    Linked (hot.insert key ⟨value, time, lru.next⟩) (lru.pushFront key) where
  listed k s hs := by
    rw [lookup_insert_if] at hs
    split_ifs at hs with hk
    · cases hs
      exact LinkedList.mem_pushFront.mpr (.inl (by rw [hk]))
    · exact LinkedList.mem_pushFront.mpr (.inr (h.listed k s hs))
  isHot e he := by
    rcases LinkedList.mem_pushFront.mp he with rfl | hmem
    · exact ⟨_, by rw [lookup_insert_if, if_pos rfl], rfl⟩
    obtain ⟨s, hs, hse⟩ := h.isHot e hmem
    refine ⟨s, ?_, hse⟩
    rw [lookup_insert_if, if_neg]
    · exact hs
    rintro hkey
    rw [hkey, hnew] at hs
    cases hs

theorem touch (hr : hot.lookup key = some r) (value : List UInt8) (time : ℤ) :
    Linked (hot.insert key ⟨value, time, r.elem⟩) (lru.moveToFront r.elem) where
  listed k s hs := by
    rw [lookup_insert_if] at hs
    refine LinkedList.mem_moveToFront.mpr ?_
    split_ifs at hs with hk
    · cases hs
      exact hk ▸ h.listed key r hr
    · exact h.listed k s hs
  isHot e he := by
    obtain ⟨s, hs, hse⟩ := h.isHot e (LinkedList.mem_moveToFront.mp he)
    rw [lookup_insert_if]
    split_ifs with hkey
    · rw [hkey, hr] at hs
      cases hs
      exact ⟨_, rfl, hse⟩
    · exact ⟨s, hs, hse⟩

theorem exists_back (hlen : 0 < hot.len) : ∃ back r, lru.back = some back ∧
    hot.lookup back.value = some r := by
  obtain ⟨key, hkey⟩ := exists_mem_of_length_pos hlen
  have hne : lru.elements ≠ [] := by
    intro hnil
    have hmem := h.mem_keys_iff.mpr (AList.mem_keys.mpr hkey)
    rw [hnil] at hmem
    cases hmem
  obtain ⟨r, hr, -⟩ := h.isHot _ (getLast_mem hne)
  exact ⟨_, r, List.getLast?_eq_some_getLast hne, hr⟩

end

end Linked

namespace Cache

variable {c : Cache} {f : Faults}

/-- The list of recency is in step with the hot tier. -/
def InStep (c : Cache) : Prop := Linked c.hot c.lru

theorem InStep.hotDelete (h : c.InStep) (key : Str) : (c.hotDelete key).InStep := by
  unfold Cache.hotDelete
  split
  · exact h
  · next r hr => exact Linked.erase h hr

theorem InStep.enforceHotCap (h : c.InStep) : (c.enforceHotCap f).InStep := by
  refine enforceHotCap_rec (P := InStep) (fun c back hc hback hlookup => ?_)
    (fun c back r hc _ _ => ?_) h
  · obtain ⟨r, hr, -⟩ := Linked.isHot hc back (mem_of_getLast? hback)
    rw [hlookup] at hr
    cases hr
  · refine InStep.hotDelete ?_ back.value
    exact hc

theorem InStep.hotSet (h : c.InStep) (key : Str) (value : List UInt8) (time : ℤ) :
    (c.hotSet f key value time).InStep := by
  unfold Cache.hotSet
  split
  · next existing hlookup =>
    rw [LinkedList.setValue_of_mem (Linked.listed h key existing hlookup)]
    exact Linked.touch h hlookup value time
  · next hlookup =>
    refine InStep.enforceHotCap ?_
    exact Linked.insert h hlookup value time

theorem InStep.get (h : c.InStep) (now : ℤ) (key : Str) : (c.get f now key).1.InStep := by
  have hgot := c.get_spec f now key
  generalize c.get f now key = result at hgot
  cases hgot with
  | touched r _ hr => exact Linked.touch h hr r.value now
  | promoted value => exact InStep.hotSet h key value now
  | failed | absent => exact h

theorem InStep.runMaintenance (h : c.InStep) (now : ℤ) (order : Shuffle Str) :
    (c.runMaintenance f now order).InStep := by
  refine runMaintenance_rec (fun d warm cold key hd => ?_) now order h
  refine InStep.hotDelete ?_ key
  exact hd

/-! ### The size of the hot tier -/

theorem len_hotDelete_of_lookup {key : Str} {r : Record} (hr : c.hot.lookup key = some r) :
    (c.hotDelete key).hot.len + 1 = c.hot.len := by
  simp only [hotDelete, hr]
  exact len_erase_of_mem (mem_of_lookup hr)

theorem len_hotDelete_le (key : Str) : (c.hotDelete key).hot.len ≤ c.hot.len := by
  cases hr : c.hot.lookup key with
  | none => simp [hotDelete, hr]
  | some r =>
    have := len_hotDelete_of_lookup hr
    omega

/-- The hot tier is within its bound. -/
def Bounded (c : Cache) : Prop := c.hot.len ≤ c.maxHotEntries

theorem Bounded.enforceHotCap (h : c.InStep) : (c.enforceHotCap .none).Bounded := by
  obtain hwithin | hback | ⟨_, _, _, _, hfails⟩ := c.enforceHotCap_stopped .none
  · exact hwithin
  · by_contra hover
    obtain ⟨back, _, hsome, _⟩ := Linked.exists_back h.enforceHotCap
      (Nat.zero_lt_of_lt (Nat.lt_of_not_le hover))
    cases hback.symm.trans hsome
  · cases hfails

theorem Bounded.hotSet (h : c.Bounded) (hstep : c.InStep) (key : Str) (value : List UInt8) (time : ℤ) :
    (c.hotSet .none key value time).Bounded := by
  unfold Cache.hotSet
  split
  · next existing hlookup =>
    have hmem : key ∈ c.hot := mem_of_lookup hlookup
    rw [Bounded, len_insert, if_pos hmem]
    exact h
  · next hlookup =>
    refine Bounded.enforceHotCap ?_
    exact Linked.insert hstep hlookup value time

theorem Bounded.get (h : c.Bounded) (hstep : c.InStep) (now : ℤ) (key : Str) :
    (c.get .none now key).1.Bounded := by
  have hgot := c.get_spec .none now key
  generalize c.get .none now key = result at hgot
  cases hgot with
  | touched r _ hr =>
    rw [Bounded, len_insert, if_pos (mem_of_lookup hr)]
    exact h
  | promoted value => exact Bounded.hotSet h hstep key value now
  | failed | absent => exact h

theorem Bounded.runMaintenance (h : c.Bounded) (now : ℤ) (order : Shuffle Str) :
    (c.runMaintenance f now order).Bounded := by
  refine runMaintenance_rec (fun d warm cold key hd => ?_) now order h
  rw [Bounded, hotDelete_maxHotEntries]
  exact (len_hotDelete_le key).trans hd

end Cache

end HelixCluster.TieredCache
