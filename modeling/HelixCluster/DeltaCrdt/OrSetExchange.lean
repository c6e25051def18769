import HelixCluster.DeltaCrdt.OrSet

/-!
# Full-state exchange of observed-remove sets

`State` carries the live tags of a set but none of its tombstones. Merging it therefore adds
elements and never removes one.
-/

namespace HelixCluster.DeltaCrdt

open List

namespace OrSet

theorem mem_elementList (o : OrSet) (elem : Str) :
    elem ∈ o.elementList ↔ o.contains elem = true := by
  rw [elementList, mem_insertionSort, mem_map, contains]
  constructor
  · intro h
    obtain ⟨⟨k, s⟩, hmem, rfl⟩ := h
    obtain ⟨hentry, hlive⟩ := mem_filter.mp hmem
    rw [AList.mem_lookup_iff.mpr hentry]
    exact hlive
  intro hcontains
  cases hlookup : o.elements.lookup elem with
  | none => simp [hlookup] at hcontains
  | some s =>
    rw [hlookup] at hcontains
    exact ⟨⟨elem, s⟩, mem_filter.mpr ⟨AList.mem_lookup_iff.mp hlookup, hcontains⟩, rfl⟩

theorem elementList_nodup (o : OrSet) : o.elementList.Nodup := by
  refine (perm_insertionSort (· ≤ ·) _).nodup_iff.mpr ?_
  exact (List.NodupKeys.sublist (filter_sublist) o.elements.nodupKeys)

theorem elementList_eq_iff (o o' : OrSet) :
    o.elementList = o'.elementList ↔ ∀ elem, o.contains elem = o'.contains elem := by
  constructor
  · intro h elem
    rw [Bool.eq_iff_iff, ← mem_elementList, ← mem_elementList, h]
  intro h
  have hperm : o.elementList.Perm o'.elementList := by
    refine (perm_ext_iff_of_nodup o.elementList_nodup o'.elementList_nodup).mpr fun elem => ?_
    rw [mem_elementList, mem_elementList, h]
  exact hperm.eq_of_pairwise' (pairwise_insertionSort (· ≤ ·) _)
    (pairwise_insertionSort (· ≤ ·) _)

/-- Merging a state adds the elements with a live tag there that is not tombstoned here. -/
theorem contains_merge_state (a b : OrSet) (elem : Str) :
    (a.merge b.state).contains elem = true ↔ a.contains elem = true ∨
      ∃ t ∈ (b.stateFor elem).liveTags, t ∉ (a.stateFor elem).removes := by
  have hremoved : b.state.removedTags elem = ∅ := rfl
  rw [contains_iff, contains_iff, stateFor_merge, addedTags_state, hremoved]
  simp only [Finset.mem_union, Finset.union_empty]
  constructor
  · intro h
    rcases h with ⟨t, ht | ht, hlive⟩
    · exact .inl ⟨t, ht, hlive⟩
    · exact .inr ⟨t, ht, hlive⟩
  intro h
  rcases h with ⟨t, ht, hlive⟩ | ⟨t, ht, hlive⟩
  · exact ⟨t, .inl ht, hlive⟩
  · exact ⟨t, .inr ht, hlive⟩

end OrSet

/-- The element has a live tag on the first replica that the second has not tombstoned. -/
def Transfers (a b : OrSet) (elem : Str) : Prop :=
  ∃ t ∈ (a.stateFor elem).liveTags, t ∉ (b.stateFor elem).removes

/-- After an exchange two replicas agree exactly if what one contained has a tag live in both. -/
theorem exchange_elements_iff (a b : OrSet) :
    (a.merge b.state).elementList = (b.merge a.state).elementList ↔
      ∀ elem, (a.contains elem = true → b.contains elem = false → Transfers a b elem) ∧
        (b.contains elem = true → a.contains elem = false → Transfers b a elem) := by
  rw [OrSet.elementList_eq_iff]
  refine forall_congr' fun elem => ?_
  -- a live tag that transfers is live where it comes from
  have hlive (o o' : OrSet) (h : Transfers o o' elem) : o.contains elem = true := by
    obtain ⟨t, ht, -⟩ := h
    rw [OrSet.contains_iff]
    exact ⟨t, ElementState.mem_liveTags.mp ht⟩
  rw [Bool.eq_iff_iff, OrSet.contains_merge_state, OrSet.contains_merge_state]
  change (_ ∨ Transfers b a elem ↔ _ ∨ Transfers a b elem) ↔ _
  have hab := hlive a b
  have hba := hlive b a
  cases ha : a.contains elem <;> cases hb : b.contains elem <;> simp_all

/-- `a` has added `x`. -/
def addedX : OrSet × OrSetDelta := (newOrSet [97]).add digestTable (fun _ => false) [120]

/-- `b` has merged the delta of `a` and then removed `x`. -/
def removedX : OrSet × OrSetDelta := ((newOrSet [98]).merge addedX.2).remove [120]

/-- The tombstone of `b` is not in its state: then `a` still has `x`, and `b` does not. -/
theorem exchange_diverges : (addedX.1.merge removedX.1.state).elementList = [[120]] ∧
      (removedX.1.merge addedX.1.state).elementList = [] := by
  decide

end HelixCluster.DeltaCrdt
