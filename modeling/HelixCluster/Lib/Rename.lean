import HelixCluster.Lib.GoMap

/-!
# A loop that renames the keys of a map

The loop `for k, v := range h { if !skip(k) { m[f(k)] = v } }` fills a new map.
-/

namespace HelixCluster.GoMap

open List

variable {J K V : Type} [DecidableEq J] [DecidableEq K]

/-- The body of the loop. -/
def renameEntry (skip : J → Bool) (f : J → K) (m : GoMap K V) (e : Σ _ : J, V) : GoMap K V :=
  if skip e.1 then m else m.insert (f e.1) e.2

/-- The loop, in the order of the entries. -/
def rename (skip : J → Bool) (f : J → K) (h : GoMap J V) : GoMap K V :=
  h.entries.foldl (renameEntry skip f) ∅

/-- The maps have the same entries but for those that are skipped. -/
def SameKept (skip : J → Bool) (h h' : GoMap J V) : Prop :=
  ∀ k, skip k = false → h.lookup k = h'.lookup k

/-- Entries that get one key have one value. -/
def Unambiguous (skip : J → Bool) (f : J → K) (h : GoMap J V) : Prop :=
  ∀ k k' v v', skip k = false → skip k' = false → h.lookup k = some v → h.lookup k' = some v' →
    f k = f k' → v = v'

variable {skip : J → Bool} {f : J → K} {h h' : GoMap J V}

omit [DecidableEq J] in
theorem lookup_renameEntry (m : GoMap K V) (e : Σ _ : J, V) (j : K) :
    (renameEntry skip f m e).lookup j =
      if skip e.1 = false ∧ f e.1 = j then some e.2 else m.lookup j := by
  unfold renameEntry
  cases hskip : skip e.1 with
  | true => rw [if_pos rfl, if_neg fun h => Bool.false_ne_true h.1.symm]
  | false =>
    rw [if_neg Bool.false_ne_true, lookup_insert_if]
    by_cases hj : f e.1 = j
    · rw [if_pos hj.symm, if_pos ⟨rfl, hj⟩]
    · rw [if_neg (Ne.symm hj), if_neg fun h => hj h.2]

variable {v : V}

omit [DecidableEq J] in
theorem mem_entries_of_lookup_foldl {entries : List (Σ _ : J, V)} {j : K}
    (hv : (entries.foldl (renameEntry skip f) (∅ : GoMap K V)).lookup j = some v) :
    ∃ k, ⟨k, v⟩ ∈ entries ∧ skip k = false ∧ f k = j := by
  induction entries using List.reverseRecOn with
  | nil => cases hv
  | append_singleton entries e ih =>
    rw [foldl_append, foldl_cons, foldl_nil, lookup_renameEntry] at hv
    split_ifs at hv with hlast
    · cases hv
      exact ⟨e.1, mem_append_right _ (mem_singleton_self e), hlast⟩
    · obtain ⟨k, hk, hkept⟩ := ih hv
      exact ⟨k, mem_append_left _ hk, hkept⟩

omit [DecidableEq J] in
theorem exists_lookup_foldl {entries : List (Σ _ : J, V)} {k : J} (hk : ⟨k, v⟩ ∈ entries)
    (hskip : skip k = false) :
    ∃ v', (entries.foldl (renameEntry skip f) (∅ : GoMap K V)).lookup (f k) = some v' := by
  induction entries using List.reverseRecOn with
  | nil => cases hk
  | append_singleton entries e ih =>
    rw [foldl_append, foldl_cons, foldl_nil, lookup_renameEntry]
    split_ifs with hlast
    · exact ⟨e.2, rfl⟩
    obtain hmem | hmem := mem_append.mp hk
    · exact ih hmem
    · obtain rfl := mem_singleton.mp hmem
      exact absurd ⟨hskip, rfl⟩ hlast

theorem exists_of_lookup_rename {j : K} (hv : (rename skip f h).lookup j = some v) :
    ∃ k, h.lookup k = some v ∧ skip k = false ∧ f k = j := by
  obtain ⟨k, hk, hkept⟩ := mem_entries_of_lookup_foldl hv
  exact ⟨k, AList.mem_lookup_iff.mpr hk, hkept⟩

theorem lookup_rename_iff (hone : Unambiguous skip f h) {j : K} :
    (rename skip f h).lookup j = some v ↔ ∃ k, h.lookup k = some v ∧ skip k = false ∧ f k = j := by
  constructor
  · exact exists_of_lookup_rename
  rintro ⟨k, hk, hskip, rfl⟩
  obtain ⟨v', hv'⟩ := exists_lookup_foldl (f := f) (AList.mem_lookup_iff.mp hk) hskip
  obtain ⟨k', hk', hskip', hsame⟩ := exists_of_lookup_rename (h := h) hv'
  rw [hone k k' v v' hskip hskip' hk hk' hsame.symm]
  exact hv'

omit [DecidableEq K] in
theorem Unambiguous.congr (hone : Unambiguous skip f h) (hkept : SameKept skip h h') :
    Unambiguous skip f h' := by
  intro k k' v v' hskip hskip' hk hk' hsame
  rw [← hkept k hskip] at hk
  rw [← hkept k' hskip'] at hk'
  exact hone k k' v v' hskip hskip' hk hk' hsame

/-- The map in another order, with the entry at the end. -/
def withLast (h : GoMap J V) (k : J) (v : V) : GoMap J V where
  entries := (h.erase k).entries ++ [⟨k, v⟩]
  nodupKeys := by
    have hkeys : (h.erase k).keys = h.keys.erase k := AList.keys_erase k h
    show (List.map Sigma.fst ((h.erase k).entries ++ [(⟨k, v⟩ : Σ _ : J, V)])).Nodup
    rw [map_append, nodup_append]
    refine ⟨(h.erase k).nodupKeys, nodup_singleton k, ?_⟩
    intro a ha b hb hab
    obtain rfl : a = k := hab.trans (mem_singleton.mp hb)
    have hmem : a ∈ (h.erase a).keys := ha
    rw [hkeys] at hmem
    exact h.nodupKeys.not_mem_erase hmem

theorem lookup_withLast {k : J} (hk : h.lookup k = some v) (j : J) :
    (withLast h k v).lookup j = h.lookup j := by
  show List.dlookup j ((h.erase k).entries ++ [⟨k, v⟩]) = h.lookup j
  rw [dlookup_append]
  show ((h.erase k).lookup j).or _ = h.lookup j
  rw [lookup_erase_if]
  by_cases hj : j = k
  · subst hj
    rw [if_pos rfl, hk, Option.none_or, dlookup_cons_eq]
  · rw [if_neg hj, dlookup_cons_ne _ _ hj, dlookup_nil, Option.or_none]

theorem lookup_rename_withLast {k : J} (hskip : skip k = false) :
    (rename skip f (withLast h k v)).lookup (f k) = some v := by
  show (((h.erase k).entries ++ [(⟨k, v⟩ : Σ _ : J, V)]).foldl (renameEntry skip f) ∅).lookup (f k) = some v
  rw [foldl_append, foldl_cons, foldl_nil, lookup_renameEntry, if_pos ⟨hskip, rfl⟩]

theorem rename_determined_iff :
    (∀ h', SameKept skip h h' → ∀ j, (rename skip f h').lookup j = (rename skip f h).lookup j) ↔
      Unambiguous skip f h := by
  constructor
  · intro hsame k k' v v' hskip hskip' hk hk' hf
    -- either of the two may be visited last
    have hlast := hsame (withLast h k v) (fun j _ => (lookup_withLast hk j).symm) (f k)
    have hlast' := hsame (withLast h k' v') (fun j _ => (lookup_withLast hk' j).symm) (f k')
    rw [lookup_rename_withLast hskip] at hlast
    rw [lookup_rename_withLast hskip', ← hf, ← hlast] at hlast'
    exact (Option.some_inj.mp hlast').symm
  intro hone h' hkept j
  refine Option.ext fun v => ?_
  rw [lookup_rename_iff (hone.congr hkept), lookup_rename_iff hone]
  refine exists_congr fun k => ?_
  constructor
  · rintro ⟨hk, hskip, hj⟩
    exact ⟨(hkept k hskip).trans hk, hskip, hj⟩
  · rintro ⟨hk, hskip, hj⟩
    exact ⟨(hkept k hskip).symm.trans hk, hskip, hj⟩

theorem lookup_foldl_insert (keys : List K) (g : K → V) (m : GoMap K V) (j : K) :
    (keys.foldl (fun m k => m.insert k (g k)) m).lookup j = if j ∈ keys then some (g j) else m.lookup j := by
  induction keys generalizing m with
  | nil => rfl
  | cons k keys ih =>
    rw [foldl_cons, ih, lookup_insert_if]
    by_cases hkeys : j ∈ keys
    · rw [if_pos hkeys, if_pos (mem_cons_of_mem k hkeys)]
    rw [if_neg hkeys]
    by_cases hk : j = k
    · rw [if_pos hk, if_pos (hk ▸ mem_cons_self), hk]
    · rw [if_neg hk, if_neg (not_mem_cons_of_ne_of_not_mem hk hkeys)]

end HelixCluster.GoMap
