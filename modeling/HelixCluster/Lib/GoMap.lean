import HelixCluster.Lib.GoString

/-!
# Go maps

A Go `map[K]V` is a finite association of keys to values. `GoMap` lists the entries in the order a
`range` loop visits them.
-/

namespace HelixCluster

open AList List

/-- A Go `map[K]V`, its entries listed in some iteration order. -/
abbrev GoMap (K V : Type) := AList fun _ : K => V

namespace GoMap

variable {K V W : Type} [DecidableEq K]

/-- The index expression `m[k]`, which yields the zero value of `V` for an absent key. -/
def read (m : GoMap K V) (k : K) (zero : V) : V := (m.lookup k).getD zero

@[simp] theorem read_empty (k : K) (zero : V) : read (∅ : GoMap K V) k zero = zero := by
  rw [read, lookup_empty, Option.getD_none]

variable {m : GoMap K V}

theorem mem_of_lookup {k : K} {v : V} (h : m.lookup k = some v) : k ∈ m :=
  lookup_isSome.mp (by rw [h]; rfl)

theorem exists_lookup_of_mem {k : K} (h : k ∈ m) : ∃ v, m.lookup k = some v :=
  Option.isSome_iff_exists.mp (lookup_isSome.mpr h)

theorem lookup_insert_if (m : GoMap K V) (k j : K) (v : V) :
    (m.insert k v).lookup j = if j = k then some v else m.lookup j := by
  by_cases h : j = k
  · subst h
    simp
  · simp [h, lookup_insert_ne h]

theorem read_insert_if (m : GoMap K V) (k j : K) (v zero : V) :
    read (m.insert k v) j zero = if j = k then v else m.read j zero := by
  unfold read
  rw [lookup_insert_if]
  split <;> rfl

theorem lookup_singleton_if (k j : K) (v : V) :
    (AList.singleton k v : GoMap K V).lookup j = if j = k then some v else none := by
  rw [← insert_empty, lookup_insert_if]
  simp

theorem lookup_erase_if (m : GoMap K V) (k j : K) :
    (m.erase k).lookup j = if j = k then none else m.lookup j := by
  split_ifs with h
  · rw [h, lookup_erase]
  · rw [lookup_erase_ne h]

theorem read_erase_if (m : GoMap K V) (k j : K) (zero : V) :
    read (m.erase k) j zero = if j = k then zero else m.read j zero := by
  unfold read
  rw [lookup_erase_if]
  split <;> rfl

/-- `len(m)`. -/
def len (m : GoMap K V) : ℕ := m.keys.length

theorem len_insert (m : GoMap K V) (k : K) (v : V) :
    len (m.insert k v) = if k ∈ m then m.len else m.len + 1 := by
  unfold len
  rw [keys_insert, length_cons, length_erase]
  split
  · next hk =>
    have hpos := length_pos_of_mem hk
    rw [if_pos (mem_keys.mpr hk)]
    omega
  · next hk => rw [if_neg fun h => hk (mem_keys.mp h)]

theorem len_erase_of_mem {k : K} (h : k ∈ m) : len (m.erase k) + 1 = m.len := by
  unfold len
  rw [keys_erase, length_erase_of_mem (mem_keys.mp h)]
  have hpos := length_pos_of_mem (mem_keys.mp h)
  omega

theorem len_erase_le (m : GoMap K V) (k : K) : len (m.erase k) ≤ m.len := by
  unfold len
  rw [keys_erase]
  exact length_erase_le

/-- The loop body touches only the key it visits, and applies `f v` to what the map holds there. -/
def Updates (update : GoMap K W → K → V → GoMap K W) (f : V → Option W → Option W) : Prop :=
  ∀ m k v j, (update m k v).lookup j = if j = k then f v (m.lookup j) else m.lookup j

variable {update : GoMap K W → K → V → GoMap K W} {f : V → Option W → Option W}

theorem lookup_entries_foldl (hupdate : Updates update f) (entries : List (Σ _ : K, V))
    (hnodup : entries.NodupKeys) (m : GoMap K W) (j : K) :
    (entries.foldl (fun m e => update m e.1 e.2) m).lookup j =
      match entries.dlookup j with
      | none => m.lookup j
      | some v => f v (m.lookup j) := by
  induction entries generalizing m with
  | nil => simp
  | cons e rest ih =>
    obtain ⟨k, v⟩ := e
    obtain ⟨hk, hrest⟩ := nodupKeys_cons.mp hnodup
    rw [foldl_cons, ih hrest, hupdate]
    rcases eq_or_ne j k with rfl | hj
    · rw [dlookup_eq_none.mpr hk, dlookup_cons_eq]
      simp
    · rw [dlookup_cons_ne _ _ hj]
      simp [hj]

/-- A `range` loop that updates only the key it visits leaves the body's value for each entry. -/
theorem lookup_foldl_update (hupdate : Updates update f) (d : GoMap K V) (m : GoMap K W) (j : K) :
    (d.foldl update m).lookup j =
      match d.lookup j with
      | none => m.lookup j
      | some v => f v (m.lookup j) :=
  lookup_entries_foldl hupdate d.entries d.nodupKeys m j

/-- The loop body `if v > m[k] { m[k] = v }`. -/
def raise [LT V] [DecidableLT V] (zero : V) (m : GoMap K V) (k : K) (v : V) : GoMap K V :=
  if v > m.read k zero then m.insert k v else m

theorem raise_updates [LT V] [DecidableLT V] (zero : V) :
    Updates (raise zero : GoMap K V → K → V → GoMap K V) fun v old =>
      if v > old.getD zero then some v else old := by
  intro m k v j
  unfold raise
  by_cases hraise : v > m.read k zero
  · rw [if_pos hraise, lookup_insert_if]
    split_ifs with hj
    · subst hj
      exact (if_pos hraise).symm
    · rfl
  rw [if_neg hraise]
  split_ifs with hj
  · subst hj
    exact (if_neg hraise).symm
  · rfl

/-- The loop takes the maximum at every key, by a measure that is zero for the zero value. -/
theorem read_foldl_raise [LT V] [DecidableLT V] {zero : V} {f : V → ℕ}
    (hlt : ∀ a b, a < b ↔ f a < f b) (hzero : f zero = 0) (m d : GoMap K V) (k : K) :
    f ((d.foldl (raise zero) m).read k zero) = max (f (m.read k zero)) (f (d.read k zero)) := by
  simp only [read, lookup_foldl_update (raise_updates zero)]
  cases d.lookup k with
  | none => simp [hzero]
  | some v =>
    simp only [Option.getD_some]
    split_ifs with hraise
    · have := (hlt _ _).mp hraise
      simp only [Option.getD_some]
      omega
    · have := mt (hlt _ _).mpr hraise
      omega

end GoMap

/-! ### Sums over the entries -/

namespace GoMap

variable {K V M : Type} [DecidableEq K] [AddCommMonoid M] (f : K → V → M)

/-- The sum of a function over the entries. -/
def sum (m : GoMap K V) : M := (m.entries.map fun e => f e.1 e.2).sum

omit [DecidableEq K] in
/-- What the entry of a key adds to the sum. -/
def share (m : GoMap K V) (k : K) : M := ((m.lookup k).map (f k)).getD 0

theorem sum_erase (m : GoMap K V) (k : K) : m.sum f = m.share f k + sum f (m.erase k) := by
  cases hlookup : m.lookup k with
  | none =>
    have hkey : k ∉ m.entries.keys := AList.lookup_eq_none.mp hlookup
    have hsame : (m.erase k).entries = m.entries := kerase_of_notMem_keys hkey
    simp [share, hlookup, sum, hsame]
  | some v =>
    have hkey : k ∈ m.entries.keys := mem_keys_of_mem (AList.mem_lookup_iff.mp hlookup)
    obtain ⟨v', before, after, _, hentries, herase⟩ := exists_of_kerase hkey
    have hv : v' = v := by
      have hlookup' : m.lookup k = some v' := AList.mem_lookup_iff.mpr (by simp [hentries])
      exact Option.some.inj (hlookup'.symm.trans hlookup)
    have hrest : (m.erase k).entries = before ++ after := herase
    simp only [share, hlookup, sum, hentries, hrest, hv, map_append, map_cons,
      sum_append, sum_cons, Option.map_some, Option.getD_some]
    exact add_left_comm ..

theorem sum_insert (m : GoMap K V) (k : K) (v : V) :
    sum f (m.insert k v) = f k v + sum f (m.erase k) := by
  unfold sum
  rw [show (m.insert k v).entries = ⟨k, v⟩ :: (m.erase k).entries from rfl]
  rfl

theorem sum_eq_keys (m : GoMap K V) (zero : V) :
    m.sum f = (m.keys.map fun k => f k (m.read k zero)).sum := by
  show _ = ((m.entries.map Sigma.fst).map fun k => f k (m.read k zero)).sum
  rw [map_map]
  refine congrArg List.sum (map_congr_left fun e he => ?_)
  have hlookup : m.lookup e.1 = some e.2 := AList.mem_lookup_iff.mpr he
  simp [read, hlookup]

end GoMap

/-! ### Maps read in the order of their keys

A loop that collects the keys, sorts them and reads the map at each of them does not depend on the
iteration order. -/

namespace GoMap

variable {V W : Type} {m n : GoMap Str V}

/-- The keys after `sort.Strings`. -/
def sortedKeys (m : GoMap Str V) : List Str := m.keys.insertionSort (· ≤ ·)

/-- The values in the order of their keys. -/
def inKeyOrder (m : GoMap Str V) : List V := m.sortedKeys.filterMap fun k => m.lookup k

theorem mem_sortedKeys {k : Str} : k ∈ m.sortedKeys ↔ k ∈ m := by
  rw [sortedKeys, mem_insertionSort, AList.mem_keys]

theorem sortedKeys_congr {n : GoMap Str W} (h : ∀ k, k ∈ m ↔ k ∈ n) : m.sortedKeys = n.sortedKeys := by
  refine Perm.eq_of_pairwise' (pairwise_insertionSort (· ≤ ·) _) (pairwise_insertionSort (· ≤ ·) _) ?_
  have hperm : m.keys.Perm n.keys :=
    (perm_ext_iff_of_nodup m.keys_nodup n.keys_nodup).mpr fun k => by simpa [AList.mem_keys] using h k
  exact ((perm_insertionSort _ _).trans hperm).trans (perm_insertionSort _ _).symm

end GoMap

/-! ### The distinct elements of a slice

The loop `if !seen[x] { seen[x] = true; out = append(out, x) }`: the set of what has been seen, and
each element once, at its first place. -/

variable {K : Type} [DecidableEq K]

/-- One turn of the loop. -/
def noteDistinct (s : GoMap K Unit × List K) (x : K) : GoMap K Unit × List K :=
  if x ∈ s.1 then s else (s.1.insert x (), s.2 ++ [x])

/-- The set of the elements, and the list of them without repetition. -/
def distinct (xs : List K) : GoMap K Unit × List K := xs.foldl noteDistinct (∅, [])

theorem distinct_append_singleton (xs : List K) (x : K) :
    distinct (xs ++ [x]) = noteDistinct (distinct xs) x := by
  simp [distinct]

variable {xs : List K}

theorem mem_distinct_fst {x : K} : x ∈ (distinct xs).1 ↔ x ∈ xs := by
  induction xs using List.reverseRecOn with
  | nil => simp [distinct, AList.notMem_empty]
  | append_singleton xs y ih =>
    rw [distinct_append_singleton, noteDistinct, mem_append, mem_singleton, ← ih]
    split
    · next hmem => exact ⟨.inl, fun h => h.elim id fun heq => heq ▸ hmem⟩
    · rw [AList.mem_insert, or_comm]

theorem mem_distinct_snd {x : K} : x ∈ (distinct xs).2 ↔ x ∈ xs := by
  induction xs using List.reverseRecOn with
  | nil => simp [distinct]
  | append_singleton xs y ih =>
    rw [distinct_append_singleton, noteDistinct, mem_append, mem_singleton]
    split_ifs with hmem
    · rw [ih]
      exact ⟨.inl, fun h => h.elim id fun heq => heq ▸ mem_distinct_fst.mp hmem⟩
    · rw [mem_append, mem_singleton, ih]

theorem nodup_distinct (xs : List K) : (distinct xs).2.Nodup := by
  induction xs using List.reverseRecOn with
  | nil => exact nodup_nil
  | append_singleton xs y ih =>
    rw [distinct_append_singleton, noteDistinct]
    split_ifs with hmem
    · exact ih
    · refine nodup_append.mpr ⟨ih, nodup_singleton y, fun x hx z hz heq => hmem ?_⟩
      rw [mem_distinct_fst, ← mem_singleton.mp hz, ← heq]
      exact mem_distinct_snd.mp hx

theorem distinct_of_nodup (h : xs.Nodup) : (distinct xs).2 = xs := by
  induction xs using List.reverseRecOn with
  | nil => rfl
  | append_singleton xs y ih =>
    obtain ⟨hxs, -, hfresh⟩ := nodup_append.mp h
    have hnew : y ∉ (distinct xs).1 := fun hmem =>
      hfresh y (mem_distinct_fst.mp hmem) y mem_cons_self rfl
    rw [distinct_append_singleton, noteDistinct, if_neg hnew, ih hxs]

end HelixCluster
