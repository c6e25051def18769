import HelixCluster.Lib.GoMap
import HelixCluster.Lib.StateNetwork

/-!
# The state-based observed-remove set

The `ORSet` of `pkg/crdt/crdt.go`. Tags pair a replica ID with a sequence number that the set itself
keeps per replica.
-/

namespace HelixCluster.Crdt

open GoMap StateNetwork

/-- A single add operation. -/
structure Tag where
  replica : Str
  seq : UInt64
  deriving DecidableEq

/-- The tags of the elements. -/
abbrev TagMap := GoMap Str (Finset Tag)

structure OrSet where
  adds : TagMap
  tombs : TagMap
  clocks : GoMap Str UInt64

def newOrSet : OrSet where
  adds := ∅
  tombs := ∅
  clocks := ∅

/-- The tags of an element, where an absent entry is the empty set. -/
def TagMap.tags (m : TagMap) (element : Str) : Finset Tag := m.read element ∅

/-- The body of the loops of `Merge` over the tag maps. -/
def unionTags (out : TagMap) (el : Str) (tags : Finset Tag) : TagMap :=
  out.insert el (out.tags el ∪ tags)

/-- The function `live` inside `sameTagMap`. -/
def liveEntries (m : TagMap) : TagMap :=
  m.foldl (fun out el tags => if 0 < tags.card then out.insert el tags else out) ∅

def sameTagMap (a b : TagMap) : Bool :=
  let a := liveEntries a
  let b := liveEntries b
  if a.entries.length ≠ b.entries.length then false
  else
    a.entries.all fun e =>
      match b.lookup e.1 with
      | none => false
      | some bt => e.2.card = bt.card ∧ ∀ t ∈ e.2, t ∈ bt

namespace OrSet

/-- The tag that the next `Add` on behalf of `id` mints. -/
def nextTag (s : OrSet) (id : Str) : Tag := ⟨id, s.clocks.read id 0 + 1⟩

def add (s : OrSet) (element id : Str) : OrSet where
  adds := s.adds.insert element (insert (s.nextTag id) (s.adds.tags element))
  tombs := s.tombs
  clocks := s.clocks.insert id (s.clocks.read id 0 + 1)

def remove (s : OrSet) (element : Str) : OrSet :=
  let live := s.adds.tags element
  if live.card = 0 then s
  else { s with tombs := s.tombs.insert element (s.tombs.tags element ∪ live) }

def contains (s : OrSet) (element : Str) : Bool :=
  let live := s.adds.tags element
  if live.card = 0 then false else decide (∃ t ∈ live, t ∉ s.tombs.tags element)

def elements (s : OrSet) : List Str := s.adds.keys.filter s.contains

def merge (s other : OrSet) : OrSet where
  adds := other.adds.foldl unionTags s.adds
  tombs := other.tombs.foldl unionTags s.tombs
  clocks := other.clocks.foldl (GoMap.raise 0) s.clocks

def equal (s other : OrSet) : Bool := sameTagMap s.adds other.adds && sameTagMap s.tombs other.tombs

end OrSet

/-- The clock of a replica as a natural number. -/
def OrSet.clock (s : OrSet) (id : Str) : ℕ := (s.clocks.read id 0).toNat

/-! ## Lookups -/

theorem tags_insert (m : TagMap) (el k : Str) (tags : Finset Tag) :
    TagMap.tags (m.insert el tags) k = if k = el then tags else m.tags k :=
  read_insert_if ..

theorem tags_merge (m d : TagMap) (k : Str) :
    TagMap.tags (d.foldl unionTags m) k = m.tags k ∪ d.tags k := by
  have hupdates : GoMap.Updates unionTags fun tags old => some (old.getD ∅ ∪ tags) := by
    intro out el tags j
    rw [unionTags, lookup_insert_if]
    split_ifs with hj
    · subst hj
      rfl
    · rfl
  simp only [TagMap.tags, GoMap.read, lookup_foldl_update hupdates]
  cases d.lookup k <;> simp

theorem lookup_liveEntries (m : TagMap) (k : Str) :
    (liveEntries m).lookup k = if m.tags k = ∅ then none else some (m.tags k) := by
  have hupdates : GoMap.Updates (fun (out : TagMap) el (tags : Finset Tag) =>
      if 0 < tags.card then out.insert el tags else out)
      fun tags old => if 0 < tags.card then some tags else old := by
    intro out el tags j
    by_cases hcard : 0 < tags.card
    · simp only [hcard, if_true, lookup_insert_if]
    · simp [hcard]
  rw [liveEntries, lookup_foldl_update hupdates]
  unfold TagMap.tags GoMap.read
  cases hlookup : m.lookup k with
  | none => simp
  | some tags => by_cases hempty : tags = ∅ <;> simp [hempty]

theorem tags_eq_of_sameTagMap {a b : TagMap} (h : sameTagMap a b = true) (k : Str) :
    a.tags k = b.tags k := by
  simp only [sameTagMap, ne_eq, ite_not, Bool.if_false_right, Bool.and_eq_true, decide_eq_true_eq,
    List.all_eq_true] at h
  obtain ⟨hlength, hentries⟩ := h
  have hlookup {el : Str} {tags : Finset Tag} (he : (liveEntries a).lookup el = some tags) :
      (liveEntries b).lookup el = some tags := by
    have hsame := hentries ⟨el, tags⟩ (AList.mem_lookup_iff.mp he)
    cases hb : (liveEntries b).lookup el with
    | none => simp [hb] at hsame
    | some bt =>
      simp only [hb, decide_eq_true_eq] at hsame
      rw [Finset.eq_of_subset_of_card_le hsame.2 hsame.1.ge]
  -- as many keys on both sides, and those of `a` are among those of `b`
  have hkeys : (liveEntries a).keys.Perm (liveEntries b).keys := by
    have hsubset : (liveEntries a).keys ⊆ (liveEntries b).keys := by
      intro el hel
      obtain ⟨tags, htags⟩ := exists_lookup_of_mem hel
      exact AList.lookup_isSome.mp (by simp [hlookup htags])
    refine ((liveEntries a).keys_nodup.subperm hsubset).perm_of_length_le ?_
    simp only [AList.keys, List.keys, List.length_map]
    exact hlength.ge
  have ha := lookup_liveEntries a k
  have hb := lookup_liveEntries b k
  by_cases hempty : a.tags k = ∅
  · rw [if_pos hempty, AList.lookup_eq_none] at ha
    have hnone : (liveEntries b).lookup k = none :=
      AList.lookup_eq_none.mpr fun hk => ha (hkeys.mem_iff.mpr hk)
    rw [hempty]
    by_contra hne
    rw [if_neg (Ne.symm hne), hnone] at hb
    exact nomatch hb
  rw [if_neg hempty] at ha
  rw [hlookup ha] at hb
  split at hb
  · exact nomatch hb
  · exact Option.some.inj hb

namespace OrSet

variable (s other : OrSet)

theorem nextTag_seq {id : Str} (h : s.clock id + 1 < 2 ^ 64) :
    (s.nextTag id).seq.toNat = s.clock id + 1 := by
  rw [nextTag, UInt64.toNat_add, UInt64.toNat_one]
  exact Nat.mod_eq_of_lt h

theorem nextTag_seq_le (id : Str) : (s.nextTag id).seq.toNat ≤ s.clock id + 1 := by
  rw [nextTag, UInt64.toNat_add, UInt64.toNat_one]
  exact Nat.mod_le ..

theorem clock_add (element id k : Str) :
    (s.add element id).clock k = if k = id then (s.nextTag id).seq.toNat else s.clock k := by
  simp only [clock, add, read_insert_if, nextTag]
  split <;> rfl

theorem adds_add (element id k : Str) : (s.add element id).adds.tags k =
      if k = element then insert (s.nextTag id) (s.adds.tags element) else s.adds.tags k :=
  tags_insert ..

theorem clock_merge (k : Str) : (s.merge other).clock k = max (s.clock k) (other.clock k) :=
  read_foldl_raise (f := UInt64.toNat) (fun _ _ => UInt64.lt_iff_toNat_lt) rfl ..

theorem adds_merge (k : Str) :
    (s.merge other).adds.tags k = s.adds.tags k ∪ other.adds.tags k :=
  tags_merge ..

theorem tombs_merge (k : Str) :
    (s.merge other).tombs.tags k = s.tombs.tags k ∪ other.tombs.tags k :=
  tags_merge ..

theorem tombs_remove (element k : Str) : (s.remove element).tombs.tags k =
      if k = element then s.tombs.tags element ∪ s.adds.tags element else s.tombs.tags k := by
  unfold remove
  by_cases hcard : (s.adds.tags element).card = 0
  · rw [Finset.card_eq_zero] at hcard
    simp only [hcard, Finset.card_empty, if_true, Finset.union_empty]
    split
    · next hk => rw [hk]
    · rfl
  · simp only [hcard, if_false]
    exact tags_insert ..

theorem adds_remove (element : Str) : (s.remove element).adds = s.adds := by
  simp only [remove]
  split <;> rfl

theorem clocks_remove (element : Str) : (s.remove element).clocks = s.clocks := by
  simp only [remove]
  split <;> rfl

theorem contains_iff (element : Str) :
    s.contains element = true ↔ ∃ t ∈ s.adds.tags element, t ∉ s.tombs.tags element := by
  simp only [contains, Finset.card_eq_zero]
  split
  · next hempty => simp [hempty]
  · simp

theorem mem_elements_iff (element : Str) : element ∈ s.elements ↔ s.contains element = true := by
  rw [elements, List.mem_filter, and_iff_right_iff_imp]
  intro hcontains
  obtain ⟨t, ht, -⟩ := (s.contains_iff element).mp hcontains
  by_contra habsent
  rw [TagMap.tags, GoMap.read, AList.lookup_eq_none.mpr habsent] at ht
  exact Finset.notMem_empty t ht

end OrSet

end HelixCluster.Crdt
