import HelixCluster.Rebalance.Reassign
import HelixCluster.Lib.Leveling

/-!
# What the three steps of a reassignment keep

`Sticky` says that every partition is pending or held by one member, and that a member has lost what
it kept at first or gained something, but not both.
-/

namespace HelixCluster.Rebalance

open List

variable {a next : Assignment} {M parts pending : List Str} {d m r p : Str} {cap : ℕ}

/-! ### Sorting and maps -/

theorem mem_sortStrings {xs : List Str} {x : Str} : x ∈ sortStrings xs ↔ x ∈ xs :=
  (perm_insertionSort (· ≤ ·) xs).mem_iff

theorem nodup_sortStrings {xs : List Str} : (sortStrings xs).Nodup ↔ xs.Nodup :=
  (perm_insertionSort (· ≤ ·) xs).nodup_iff

theorem parts_insert (a : Assignment) (m j : Str) (xs : List Str) :
    Assignment.parts (a.insert m xs) j = if j = m then xs else a.parts j :=
  GoMap.read_insert_if a m j xs []

theorem parts_add (a : Assignment) (m j p : Str) :
    (a.add m p).parts j = if j = m then a.parts m ++ [p] else a.parts j :=
  parts_insert a m j _

theorem mem_parts_add (a : Assignment) (m j p q : Str) :
    q ∈ (a.add m p).parts j ↔ q ∈ a.parts j ∨ j = m ∧ q = p := by
  rw [parts_add]
  split_ifs with heq
  · simp [heq]
  · simp [heq]

theorem load_insert (a : Assignment) (m : Str) (xs : List Str) :
    Assignment.load (a.insert m xs) = Function.update a.load m xs.length := by
  funext j
  rw [Function.update_apply, Assignment.load, parts_insert]
  split <;> rfl

theorem load_add (a : Assignment) (m p : Str) : (a.add m p).load = Leveling.give a.load m := by
  rw [Assignment.add, load_insert, length_append]
  rfl

theorem parts_of_notMem (h : m ∉ a) : a.parts m = [] := by
  rw [Assignment.parts, GoMap.read, AList.lookup_eq_none.mpr h, Option.getD_none]

theorem moveOne_eq (h : 0 < a.load d) (r : Str) : ∃ rest moved,
    (rest ++ [moved]).Perm (a.parts d) ∧ moveOne a d r = Assignment.add (a.insert d rest) r moved := by
  have hne : sortStrings (a.parts d) ≠ [] := ne_nil_of_length_pos (by
    rw [sortStrings, length_insertionSort]
    exact h)
  refine ⟨(sortStrings (a.parts d)).dropLast, (sortStrings (a.parts d)).getLast hne, ?_, ?_⟩
  · rw [dropLast_append_getLast]
    exact perm_insertionSort (· ≤ ·) _
  · simp only [moveOne, List.getLast?_eq_getLast_of_ne_nil hne]

/-! ### The searches for a donor and a receiver -/

theorem foldl_considerUnder (a : Assignment) (cap : ℕ) (ms : List Str) :
    (∀ m ∈ ms, cap ≤ a.load m) ∧ ms.foldl (considerUnder a cap) ([], -1) = ([], -1) ∨
    ∃ best ∈ ms, ms.foldl (considerUnder a cap) ([], -1) = (best, (a.load best : ℤ)) ∧
      a.load best < cap ∧ ∀ m ∈ ms, a.load best ≤ a.load m := by
  induction ms using List.reverseRecOn with
  | nil => exact .inl ⟨by simp, rfl⟩
  | append_singleton ms m ih =>
    simp only [foldl_append, foldl_cons, foldl_nil, forall_mem_append, forall_mem_singleton]
    rcases ih with ⟨hall, hnone⟩ | ⟨best, hbest, hfound, hlt, hleast⟩
    · rw [hnone, considerUnder]
      split
      · next hcap => exact .inl ⟨⟨hall, hcap⟩, rfl⟩
      · next hcap =>
        refine .inr ⟨m, by simp, if_pos (.inl rfl), by omega, fun j hj => ?_, Nat.le_refl _⟩
        have := hall j hj
        omega
    refine .inr ?_
    rw [hfound, considerUnder, consider]
    split
    · exact ⟨best, by simp [hbest], rfl, hlt, hleast, by omega⟩
    split
    · next hless =>
      have hless : a.load m < a.load best := by omega
      refine ⟨m, by simp, rfl, by omega, fun j hj => ?_, Nat.le_refl _⟩
      exact hless.le.trans (hleast j hj)
    · next hless => exact ⟨best, by simp [hbest], rfl, hlt, hleast, by omega⟩

theorem leastLoadedReceiver_spec (hex : ∃ m ∈ M, a.load m < cap) :
    leastLoadedReceiver a M cap ∈ M ∧ a.load (leastLoadedReceiver a M cap) < cap ∧
    ∀ m ∈ M, a.load (leastLoadedReceiver a M cap) ≤ a.load m := by
  obtain ⟨m, hm, hlt⟩ := hex
  rcases foldl_considerUnder a cap M with ⟨hall, -⟩ | ⟨best, hbest, hfound, hspec⟩
  · have := hall m hm
    omega
  · rw [leastLoadedReceiver, hfound]
    exact ⟨hbest, hspec⟩

theorem firstWith_eq_nil (hids : ∀ m ∈ M, m ≠ []) {f : ℕ → Bool} (h : firstWith a M f = []) :
    ∀ m ∈ M, f (a.load m) = false := by
  intro m hm
  cases hfind : M.find? fun m => f (a.load m) with
  | none =>
    have := List.find?_eq_none.mp hfind m hm
    simpa using this
  | some found =>
    rw [firstWith, hfind] at h
    exact absurd h (hids found (mem_of_find?_eq_some hfind))

theorem firstWith_ne_nil {f : ℕ → Bool} (h : firstWith a M f ≠ []) :
    firstWith a M f ∈ M ∧ f (a.load (firstWith a M f)) = true := by
  cases hfind : M.find? fun m => f (a.load m) with
  | none =>
    rw [firstWith, hfind] at h
    exact absurd rfl h
  | some found =>
    rw [firstWith, hfind]
    exact ⟨mem_of_find?_eq_some hfind, List.find?_some (p := fun m => f (a.load m)) hfind⟩

/-! ### The invariant -/

/-- Every partition is pending or held by one member, and whoever has lost something has gained nothing. -/
structure Sticky (M parts : List Str) (kept : Assignment) (pending : List Str)
    (next : Assignment) : Prop where
  members : ∀ m, m ∈ next ↔ m ∈ M
  nodup : ∀ m, (next.parts m).Nodup
  nodup_pending : pending.Nodup
  holder : ∀ p m j, p ∈ next.parts m → p ∈ next.parts j → m = j
  notHeld : ∀ p ∈ pending, ∀ m, p ∉ next.parts m
  mem : ∀ p, p ∈ parts ↔ p ∈ pending ∨ ∃ m, p ∈ next.parts m
  keeps : ∀ m, kept.load m ≤ next.load m → kept.parts m ⊆ next.parts m
  only : ∀ m, next.load m ≤ kept.load m → next.parts m ⊆ kept.parts m

namespace Sticky

variable {kept : Assignment}

theorem total (h : Sticky M parts kept pending next) (hparts : parts.Nodup) :
    ∑ m ∈ M.toFinset, next.load m + pending.length = parts.length := by
  have hsets : parts.toFinset =
      (M.toFinset.biUnion fun m => (next.parts m).toFinset) ∪ pending.toFinset := by
    ext p
    rw [mem_toFinset, h.mem, Finset.mem_union, Finset.mem_biUnion, mem_toFinset, or_comm]
    refine or_congr ⟨fun ⟨m, hp⟩ => ⟨m, ?_, mem_toFinset.mpr hp⟩,
      fun ⟨m, _, hp⟩ => ⟨m, mem_toFinset.mp hp⟩⟩ Iff.rfl
    by_contra hm
    rw [mem_toFinset, ← h.members] at hm
    rw [parts_of_notMem hm] at hp
    exact absurd hp not_mem_nil
  have hapart : Disjoint (M.toFinset.biUnion fun m => (next.parts m).toFinset) pending.toFinset := by
    rw [Finset.disjoint_right]
    intro p hp hheld
    obtain ⟨m, -, hm⟩ := Finset.mem_biUnion.mp hheld
    exact h.notHeld p (mem_toFinset.mp hp) m (mem_toFinset.mp hm)
  have hholders : ∀ m ∈ M.toFinset, ∀ j ∈ M.toFinset, m ≠ j →
      Disjoint (next.parts m).toFinset (next.parts j).toFinset := by
    intro m _ j _ hne
    rw [Finset.disjoint_left]
    exact fun p hm hj => hne (h.holder p m j (mem_toFinset.mp hm) (mem_toFinset.mp hj))
  rw [← toFinset_card_of_nodup hparts, hsets, Finset.card_union_of_disjoint hapart,
    Finset.card_biUnion hholders, toFinset_card_of_nodup h.nodup_pending]
  congr 1
  exact Finset.sum_congr rfl fun m _ => (toFinset_card_of_nodup (h.nodup m)).symm

theorem give (h : Sticky M parts kept (p :: pending) next) (hr : r ∈ M)
    (hkept : kept.load r ≤ next.load r) : Sticky M parts kept pending (next.add r p) := by
  have hmem := mem_parts_add next r
  have hload : ∀ m, (next.add r p).load m = if m = r then next.load r + 1 else next.load m := fun m => by
    rw [load_add, Leveling.give_apply]
  have hfresh := h.notHeld p mem_cons_self
  obtain ⟨hp, hpending⟩ := nodup_cons.mp h.nodup_pending
  refine ⟨fun m => ?_, fun m => ?_, hpending, fun q m j hm hj => ?_, fun q hq m hm => ?_, fun q => ?_,
    fun m hle => ?_, fun m hle => ?_⟩
  · rw [Assignment.add, AList.mem_insert, h.members]
    exact ⟨fun hm => hm.elim (fun heq => heq ▸ hr) id, .inr⟩
  · rw [parts_add]
    split
    · refine nodup_append.mpr ⟨h.nodup r, nodup_singleton p, fun x hx y hy heq => ?_⟩
      rw [heq, mem_singleton.mp hy] at hx
      exact hfresh r hx
    · exact h.nodup m
  · rw [hmem] at hm hj
    have := h.holder q m j
    grind
  · rw [hmem] at hm
    have := h.notHeld q (mem_cons_of_mem _ hq)
    grind
  · simp only [h.mem, hmem, mem_cons]
    grind
  · rw [hload] at hle
    have hold : kept.parts m ⊆ next.parts m := by
      split_ifs at hle with heq
      · exact heq ▸ h.keeps r hkept
      · exact h.keeps m hle
    exact fun q hq => (hmem ..).mpr (.inl (hold hq))
  · rw [hload] at hle
    split_ifs at hle with heq
    · subst heq
      omega
    · rw [parts_add, if_neg heq]
      exact h.only m hle

theorem take (h : Sticky M parts kept pending next) (hd : d ∈ M) {rest : List Str}
    (hperm : (rest ++ [p]).Perm (next.parts d)) (hkept : next.load d ≤ kept.load d) :
    Sticky M parts kept (p :: pending) (next.insert d rest) := by
  have hparts := parts_insert next d
  have hheld : ∀ q, q ∈ next.parts d ↔ q ∈ rest ∨ q = p := fun q => by simp [← hperm.mem_iff]
  have hlen : next.load d = rest.length + 1 := by
    rw [Assignment.load, ← hperm.length_eq, length_append, length_singleton]
  obtain ⟨hrest, -, hfresh⟩ := nodup_append.mp (hperm.nodup_iff.mpr (h.nodup d))
  have hpd : p ∈ next.parts d := (hheld p).mpr (.inr rfl)
  have hpending : p ∉ pending := fun hp => h.notHeld p hp d hpd
  refine ⟨fun m => ?_, fun m => ?_, nodup_cons.mpr ⟨hpending, h.nodup_pending⟩,
    fun q m j hm hj => ?_, fun q hq m hm => ?_, fun q => ?_, fun m hle => ?_, fun m hle => ?_⟩
  · rw [AList.mem_insert, h.members]
    exact ⟨fun hm => hm.elim (fun heq => heq ▸ hd) id, .inr⟩
  · rw [hparts]
    split
    · exact hrest
    · exact h.nodup m
  · rw [hparts] at hm hj
    have := h.holder q m j
    grind
  · rw [hparts] at hm
    have := h.holder q m d
    have := h.notHeld q
    grind
  · rw [h.mem, mem_cons]
    simp only [hparts]
    grind
  · rw [load_insert, Function.update_apply] at hle
    split_ifs at hle with heq
    · subst heq
      omega
    · rw [hparts, if_neg heq]
      exact h.keeps m hle
  · rw [load_insert, Function.update_apply] at hle
    rw [hparts]
    split_ifs with heq
    · subst heq
      exact fun q hq => h.only m hkept ((hheld q).mpr (.inl hq))
    · rw [if_neg heq] at hle
      exact h.only m hle

theorem moveOne (h : Sticky M parts kept pending next) (hne : d ≠ r) (hd : d ∈ M) (hr : r ∈ M)
    (hpos : 0 < next.load d) (hdonor : next.load d ≤ kept.load d)
    (hreceiver : kept.load r ≤ next.load r) : Sticky M parts kept pending (moveOne next d r) ∧
    (Rebalance.moveOne next d r).load = Leveling.move next.load d r := by
  obtain ⟨rest, moved, hperm, heq⟩ := moveOne_eq hpos r
  have hload : Assignment.load (next.insert d rest) =
      Function.update next.load d (next.load d - 1) := by
    have hlen := hperm.length_eq
    rw [length_append, length_singleton] at hlen
    rw [load_insert, Assignment.load, ← hlen, Nat.add_sub_cancel]
  rw [heq, load_add, hload]
  refine ⟨(h.take hd hperm hdonor).give hr ?_, rfl⟩
  rw [hload, Function.update_of_ne hne.symm]
  exact hreceiver

end Sticky

/-! ### Step 1: what the members keep -/

/-- The first step lists a partition under the member that owns it. -/
structure Kept (M : List Str) (s : Keeping) : Prop where
  members : ∀ m, m ∈ s.next ↔ m ∈ M
  nodup : ∀ m, (s.next.parts m).Nodup
  mem_parts : ∀ p m, p ∈ s.next.parts m ↔ s.owned.lookup p = some m

theorem kept_unassigned (M : List Str) : Kept M ⟨∅, unassigned M⟩ := by
  have hspec : ∀ m, (m ∈ unassigned M ↔ m ∈ M) ∧ (unassigned M).parts m = [] := by
    intro m
    induction M using List.reverseRecOn with
    | nil => exact ⟨by simp [unassigned, AList.notMem_empty], rfl⟩
    | append_singleton M j ih =>
      have hsnoc : unassigned (M ++ [j]) = (unassigned M).insert j [] := by simp [unassigned]
      rw [hsnoc, AList.mem_insert, parts_insert, ih.1, ih.2, ite_self, mem_append,
        mem_singleton, or_comm]
      exact ⟨Iff.rfl, rfl⟩
  refine ⟨fun m => (hspec m).1, fun m => ?_, fun p m => ?_⟩
  · rw [(hspec m).2]
    exact nodup_nil
  · rw [(hspec m).2]
    simp

variable {valid : GoMap Str Unit} {prev : Assignment} {s : Keeping}

theorem Kept.keepPart (h : Kept M s) (hm : m ∈ M) (p : Str) : Kept M (keepPart valid m s p) := by
  unfold Rebalance.keepPart
  split
  · exact h
  split_ifs with howned
  · exact h
  · have hnone : s.owned.lookup p = none := AList.lookup_eq_none.mpr howned
    have hfresh : ∀ j, p ∉ s.next.parts j := fun j hp => by simp [(h.mem_parts p j).mp hp] at hnone
    refine ⟨fun j => ?_, fun j => ?_, fun q j => ?_⟩
    · rw [Assignment.add, AList.mem_insert, h.members]
      exact ⟨fun hj => hj.elim (fun heq => heq ▸ hm) id, .inr⟩
    · rw [parts_add]
      split
      · refine nodup_append.mpr ⟨h.nodup m, nodup_singleton p, fun x hx y hy heq => ?_⟩
        rw [heq, mem_singleton.mp hy] at hx
        exact hfresh m hx
      · exact h.nodup j
    rw [mem_parts_add, h.mem_parts, GoMap.lookup_insert_if]
    split_ifs with heq
    · rw [heq, hnone]
      simp [eq_comm]
    · simp [heq]

theorem lookup_keepPart (valid : GoMap Str Unit) (m : Str) (s : Keeping) (p q : Str) :
    (keepPart valid m s p).owned.lookup q =
      (s.owned.lookup q).or (if q ∈ valid ∧ q = p then some m else none) := by
  unfold keepPart
  split
  · next hvalid =>
    have hq : ¬(q ∈ valid ∧ q = p) := fun h => hvalid (h.2 ▸ h.1)
    rw [if_neg hq, Option.or_none]
  split
  · next howned =>
    obtain ⟨owner, howner⟩ := GoMap.exists_lookup_of_mem howned
    by_cases hq : q = p
    · rw [hq, howner, Option.some_or]
    · rw [if_neg fun h => hq h.2, Option.or_none]
  · next hvalid howned =>
    rw [GoMap.lookup_insert_if]
    by_cases hq : q = p
    · rw [if_pos hq, hq, AList.lookup_eq_none.mpr howned, if_pos ⟨not_not.mp hvalid, rfl⟩,
        Option.none_or]
    · rw [if_neg hq, if_neg fun h => hq h.2, Option.or_none]

theorem lookup_keepSticky (prev : Assignment) (valid : GoMap Str Unit) (s : Keeping)
    (m q : Str) : (keepSticky prev valid s m).owned.lookup q =
      (s.owned.lookup q).or (if q ∈ valid ∧ q ∈ prev.parts m then some m else none) := by
  have hloop : ∀ ps : List Str, (ps.foldl (keepPart valid m) s).owned.lookup q =
      (s.owned.lookup q).or (if q ∈ valid ∧ q ∈ ps then some m else none) := by
    intro ps
    induction ps using List.reverseRecOn with
    | nil => simp
    | append_singleton ps p ih =>
      rw [foldl_append, foldl_cons, foldl_nil, lookup_keepPart, ih, Option.or_assoc]
      congr 1
      grind
  rw [keepSticky, hloop]
  simp only [mem_sortStrings]

/-- The member that owned a partition: the first one that lists it. -/
def previousOwner (prev : Assignment) (M : List Str) (p : Str) : Option Str :=
  M.find? fun m => p ∈ prev.parts m

theorem lookup_keepAll (prev : Assignment) (members partitions : List Str) (p : Str) :
    (keepAll prev members partitions).owned.lookup p =
      if p ∈ partitions then previousOwner prev (sortedMembers members) p else none := by
  have hloop : ∀ (M : List Str) (next : Assignment),
      (M.foldl (keepSticky prev (distinct partitions).1) ⟨∅, next⟩).owned.lookup p =
        if p ∈ partitions then previousOwner prev M p else none := by
    intro M next
    induction M using List.reverseRecOn with
    | nil => simp [previousOwner]
    | append_singleton M m ih =>
      rw [foldl_append, foldl_cons, foldl_nil, lookup_keepSticky, ih]
      simp only [mem_distinct_fst, previousOwner, List.find?_append, List.find?_singleton,
        decide_eq_true_eq]
      by_cases hp : p ∈ partitions
      · simp only [hp, if_true, true_and]
      · simp [hp]
  exact hloop ..

theorem kept_keepAll (prev : Assignment) (members partitions : List Str) :
    Kept (sortedMembers members) (keepAll prev members partitions) := by
  have hsticky : ∀ (m : Str), m ∈ sortedMembers members → ∀ s, Kept (sortedMembers members) s →
      Kept (sortedMembers members) (keepSticky prev (distinct partitions).1 s m) := by
    intro m hm s hs
    exact List.foldlRecOn _ _ hs fun s hs p _ => hs.keepPart hm p
  exact List.foldlRecOn _ _ (kept_unassigned _) fun s hs m hm => hsticky m hm s hs

theorem mem_sortedMembers {members : List Str} : m ∈ sortedMembers members ↔ m ∈ members :=
  mem_sortStrings.trans mem_distinct_snd

theorem mem_sortedParts {partitions : List Str} : p ∈ sortedParts partitions ↔ p ∈ partitions :=
  mem_sortStrings.trans mem_distinct_snd

theorem nodup_sortedParts (partitions : List Str) : (sortedParts partitions).Nodup :=
  nodup_sortStrings.mpr (nodup_distinct partitions)

theorem mem_parts_keepAll {members partitions : List Str} :
    p ∈ (keepAll prev members partitions).next.parts m ↔
      p ∈ partitions ∧ previousOwner prev (sortedMembers members) p = some m := by
  rw [(kept_keepAll prev members partitions).mem_parts, lookup_keepAll]
  split_ifs with hp
  · simp [hp]
  · simp [hp]

theorem sticky_keepAll (prev : Assignment) (members partitions : List Str) :
    Sticky (sortedMembers members) (sortedParts partitions) (keepAll prev members partitions).next
      (freeParts (keepAll prev members partitions).owned partitions)
      (keepAll prev members partitions).next := by
  have hkept := kept_keepAll prev members partitions
  have hfree : ∀ p, p ∈ freeParts (keepAll prev members partitions).owned partitions ↔
      p ∈ partitions ∧ (keepAll prev members partitions).owned.lookup p = none := by
    intro p
    rw [freeParts, mem_filter, mem_sortedParts, decide_eq_true_eq, AList.lookup_eq_none]
  refine ⟨hkept.members, hkept.nodup, (nodup_sortedParts partitions).filter _, fun p m j hm hj => ?_,
    fun p hp m hm => ?_, fun p => ?_, fun m _ => List.Subset.refl _, fun m _ => List.Subset.refl _⟩
  · rw [hkept.mem_parts] at hm hj
    exact Option.some_inj.mp (hm.symm.trans hj)
  · rw [hkept.mem_parts, ((hfree p).mp hp).2] at hm
    cases hm
  rw [mem_sortedParts, hfree]
  refine ⟨fun hp => ?_, fun h => h.elim And.left fun ⟨m, hm⟩ => (mem_parts_keepAll.mp hm).1⟩
  cases howner : (keepAll prev members partitions).owned.lookup p with
  | none => exact .inl ⟨hp, rfl⟩
  | some m => exact .inr ⟨m, (hkept.mem_parts p m).mpr howner⟩

end HelixCluster.Rebalance
