import HelixCluster.Lib.GoMap

/-!
# Tables of records

A `Table key` is a Go map from the key of a record to the record, so that every record is found
under its own key.
-/

namespace HelixCluster

open AList List

/-- A map of records, each under its own key. -/
structure Table {K V : Type} [DecidableEq K] (key : V → K) where
  map : GoMap K V
  keyed : ∀ k v, map.lookup k = some v → key v = k

namespace Table

variable {K V : Type} [DecidableEq K] {key : V → K}

def empty : Table key := ⟨∅, nofun⟩

def lookup (t : Table key) (k : K) : Option V := t.map.lookup k

/-- The assignment of a record under its key. -/
def set (t : Table key) (v : V) : Table key where
  map := t.map.insert (key v) v
  keyed k v' h := by
    rw [GoMap.lookup_insert_if] at h
    split at h
    · next heq => rw [← Option.some.inj h, heq]
    · exact t.keyed k v' h

def erase (t : Table key) (k : K) : Table key where
  map := t.map.erase k
  keyed k' v h := by
    rw [GoMap.lookup_erase_if] at h
    split at h
    · cases h
    · exact t.keyed k' v h

/-- The records, in the order of the map. -/
def values (t : Table key) : List V := t.map.entries.map fun e => e.2

theorem lookup_set (t : Table key) (v : V) (k : K) :
    (t.set v).lookup k = if k = key v then some v else t.lookup k :=
  GoMap.lookup_insert_if ..

theorem lookup_erase (t : Table key) (k j : K) :
    (t.erase k).lookup j = if j = k then none else t.lookup j :=
  GoMap.lookup_erase_if ..

theorem key_of_lookup {t : Table key} {k : K} {v : V} (h : t.lookup k = some v) : key v = k :=
  t.keyed k v h

theorem mem_values {t : Table key} {v : V} : v ∈ t.values ↔ t.lookup (key v) = some v := by
  constructor
  · intro h
    obtain ⟨⟨k, v⟩, he, rfl⟩ := mem_map.mp h
    have hlookup : t.lookup k = some v := mem_lookup_iff.mpr he
    rw [key_of_lookup hlookup, hlookup]
  · intro h
    exact mem_map.mpr ⟨⟨key v, v⟩, mem_lookup_iff.mp h, rfl⟩

theorem nodup_map_key (t : Table key) : (t.values.map key).Nodup := by
  have hkeys : t.values.map key = t.map.keys := by
    rw [values, map_map]
    refine map_congr_left fun e he => ?_
    exact t.keyed e.1 e.2 (mem_lookup_iff.mpr he)
  rw [hkeys]
  exact t.map.keys_nodup

section Total

variable {M : Type} [AddCommMonoid M] (f : V → M)

/-- The sum of a function over the records. -/
def total (t : Table key) : M := (t.values.map f).sum

theorem total_eq_sum (t : Table key) : t.total f = t.map.sum fun _ => f :=
  congrArg List.sum (map_map ..)

theorem total_erase {t : Table key} {k : K} {v : V} (h : t.lookup k = some v) :
    t.total f = f v + (t.erase k).total f := by
  have hshare : t.map.share (fun _ => f) k = f v := by
    rw [GoMap.share, show t.map.lookup k = some v from h, Option.map_some, Option.getD_some]
  rw [total_eq_sum, GoMap.sum_erase _ t.map k, hshare, total_eq_sum]
  rfl

theorem total_set (t : Table key) (v : V) :
    (t.set v).total f + ((t.lookup (key v)).map f).getD 0 = f v + t.total f := by
  rw [total_eq_sum f t, GoMap.sum_erase _ t.map (key v), total_eq_sum]
  refine (congrArg (· + _) (GoMap.sum_insert _ t.map (key v) v)).trans ?_
  rw [add_assoc]
  exact congrArg _ (add_comm ..)

end Total

end Table

end HelixCluster
