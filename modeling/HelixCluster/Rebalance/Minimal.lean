import HelixCluster.Rebalance.Sticky

/-!
# Reassignment is complete, balanced and minimal

`taken` counts the partitions that members owned before and do not hold any more.
-/

namespace HelixCluster.Rebalance

open List

/-- Every partition belongs to one member, and the loads are the average, rounded. -/
structure Balanced (members partitions : List Str) (next : Assignment) : Prop where
  mem_iff : ∀ m, m ∈ next ↔ m ∈ members
  nodup : ∀ m, (next.parts m).Nodup
  complete : ∀ p ∈ partitions, ∃! m, p ∈ next.parts m
  mem_partitions : ∀ m, ∀ p ∈ next.parts m, p ∈ partitions
  floor_le : ∀ m ∈ members, partitions.toFinset.card / members.toFinset.card ≤ next.load m
  le_ceil : ∀ m ∈ members,
    next.load m ≤ (partitions.toFinset.card + members.toFinset.card - 1) / members.toFinset.card

/-- The number of partitions that a member owned and does not hold. -/
def taken (owns : Str → Str → Prop) [DecidableRel owns] (members partitions : List Str)
    (next : Assignment) : ℕ :=
  ∑ m ∈ members.toFinset, {p ∈ partitions.toFinset | owns m p ∧ p ∉ next.parts m}.card

/-- A member owned what was listed under it. -/
def listed (prev : Assignment) (m p : Str) : Prop := p ∈ prev.parts m

/-- The first member that lists a partition, in the order of the IDs, owned it. -/
def firstListed (prev : Assignment) (members : List Str) (m p : Str) : Prop :=
  p ∈ prev.parts m ∧ ∀ j ∈ members, p ∈ prev.parts j → m ≤ j

instance decidableListed (prev : Assignment) : DecidableRel (listed prev) := fun m p =>
  inferInstanceAs (Decidable (p ∈ prev.parts m))

instance decidableFirstListed (prev : Assignment) (members : List Str) :
    DecidableRel (firstListed prev members) := fun m p =>
  inferInstanceAs (Decidable (p ∈ prev.parts m ∧ ∀ j ∈ members, p ∈ prev.parts j → m ≤ j))

variable {next kept : Assignment} {M parts pending members partitions : List Str}
  {floor ceil : ℕ} {d m r p : Str}

open Leveling (Greedy Early imbalance)

/-! ### Steps 2 and 3 -/

/-- Both invariants of an assignment under construction. -/
structure Underway (M parts : List Str) (kept : Assignment) (floor ceil : ℕ)
    (pending : List Str) (next : Assignment) : Prop where
  sticky : Sticky M parts kept pending next
  greedy : Greedy M.toFinset kept.load floor ceil next.load

/-- Level loads are possible: the average lies between `floor` and `ceil`. -/
structure Quota (M parts : List Str) (floor ceil : ℕ) : Prop where
  nodup : parts.Nodup
  named : ∀ m ∈ M, m ≠ []
  floor_le_ceil : floor ≤ ceil
  floor_le : M.toFinset.card * floor ≤ parts.length
  le_ceil : parts.length ≤ M.toFinset.card * ceil

theorem assignFree_underway (hq : Quota M parts floor ceil) :
    ∀ (pending : List Str) (next : Assignment), Underway M parts kept floor ceil pending next →
      Early M.toFinset kept.load ceil next.load →
      Underway M parts kept floor ceil [] (assignFree M ceil next pending) := by
  intro pending
  induction pending with
  | nil => exact fun next h _ => h
  | cons p pending ih =>
    intro next h hearly
    have htotal := h.sticky.total hq.nodup
    have hroom : ∃ m ∈ M, next.load m < ceil := by
      have hlt : ∑ m ∈ M.toFinset, next.load m < M.toFinset.card * ceil := by
        have := hq.le_ceil
        rw [length_cons] at htotal
        omega
      obtain ⟨m, hm, hload⟩ := Leveling.exists_lt_of_total_lt hlt
      exact ⟨m, mem_toFinset.mp hm, hload⟩
    obtain ⟨hr, hlt, hleast⟩ := leastLoadedReceiver_spec hroom
    have hsame : leastLoadedUnderCap next M ceil = leastLoadedReceiver next M ceil :=
      if_pos (hq.named _ hr)
    rw [← hsame] at hr hlt hleast
    have hmem := mem_toFinset.mpr hr
    obtain ⟨hgreedy, hnext⟩ := h.greedy.give hearly hlt fun m hm => hleast m (mem_toFinset.mp hm)
    rw [← load_add next _ p] at hgreedy hnext
    exact ih _ ⟨h.sticky.give hr (Greedy.kept_le_of_early hearly hmem hlt), hgreedy⟩ hnext

/-- The step moves a partition, and the loads come closer to the quota. -/
def Improves (M parts : List Str) (kept : Assignment) (floor ceil : ℕ) (next : Assignment) : Prop :=
  ∃ moved, rebalanceStep next M floor ceil = some moved ∧ Underway M parts kept floor ceil [] moved ∧
    imbalance M.toFinset floor ceil moved.load < imbalance M.toFinset floor ceil next.load

section

variable (hq : Quota M parts floor ceil) (h : Underway M parts kept floor ceil [] next)

include hq h

theorem improves_of_above
    (habove : firstWith next M (fun l => ceil < l) ≠ []) : Improves M parts kept floor ceil next := by
  have htotal := h.sticky.total hq.nodup
  rw [length_nil, Nat.add_zero] at htotal
  have hlow := hq.floor_le_ceil
  unfold Improves rebalanceStep
  rw [if_neg habove]
  obtain ⟨hd, hdhigh⟩ := firstWith_ne_nil habove
  generalize firstWith next M (fun l => ceil < l) = d at hd hdhigh
  have hdhigh : ceil < next.load d := by simpa using hdhigh
  have hdM := mem_toFinset.mpr hd
  have hroom : ∃ m ∈ M, next.load m < ceil := by
    obtain ⟨m, hm, hlt⟩ := Leveling.exists_lt_of_high_lt (htotal.trans_le hq.le_ceil) hdM hdhigh
    exact ⟨m, mem_toFinset.mp hm, hlt⟩
  obtain ⟨hr, hrlt, hleast⟩ := leastLoadedReceiver_spec hroom
  generalize leastLoadedReceiver next M ceil = r at hr hrlt hleast
  have hne : d ≠ r := by rintro rfl; omega
  have hrM := mem_toFinset.mpr hr
  have hleast : ∀ m ∈ M.toFinset, next.load r ≤ next.load m := fun m hm =>
    hleast m (mem_toFinset.mp hm)
  have hearly : Early M.toFinset kept.load ceil next.load := h.greedy.early_of_high_lt hdM hdhigh
  have hgo : ¬(r = [] ∨ r = d) := fun hstop => hstop.elim (hq.named r hr) hne.symm
  rw [if_neg hgo]
  obtain ⟨hsticky, hload⟩ := h.sticky.moveOne hne hd hr (by omega)
    (h.greedy.le_kept_of_high_lt hdM hdhigh) (Greedy.kept_le_of_early hearly hrM hrlt)
  refine ⟨_, rfl, ⟨hsticky, ?_⟩, ?_⟩
  · rw [hload]
    exact h.greedy.move_above hlow hdM hdhigh hrlt hleast
  · rw [hload]
    exact Leveling.imbalance_move_lt hlow hdM hrM (.inl ⟨hdhigh, hrlt⟩)

theorem improves_of_below (habove : firstWith next M (fun l => ceil < l) = [])
    (hneed : firstWith next M (fun l => l < floor) ≠ []) : Improves M parts kept floor ceil next := by
  have htotal := h.sticky.total hq.nodup
  rw [length_nil, Nat.add_zero] at htotal
  have hlow := hq.floor_le_ceil
  unfold Improves rebalanceStep
  rw [if_pos habove, if_neg hneed]
  obtain ⟨hr, hrlow⟩ := firstWith_ne_nil hneed
  generalize firstWith next M (fun l => l < floor) = r at hr hrlow
  have hrlow : next.load r < floor := by simpa using hrlow
  have hdonor : firstWith next M (fun l => floor < l) ≠ [] := by
    obtain ⟨d, hd, hdlow⟩ :=
      Leveling.exists_gt_of_lt_low (htotal ▸ hq.floor_le) (mem_toFinset.mpr hr) hrlow
    intro hnone
    have := firstWith_eq_nil hq.named hnone d (mem_toFinset.mp hd)
    simp only [decide_eq_false_iff_not] at this
    exact this hdlow
  rw [if_neg hdonor]
  obtain ⟨hd, hdlow⟩ := firstWith_ne_nil hdonor
  generalize firstWith next M (fun l => floor < l) = d at hd hdlow
  have hdlow : floor < next.load d := by simpa using hdlow
  have hne : d ≠ r := by rintro rfl; omega
  have hdM := mem_toFinset.mpr hd
  have hrM := mem_toFinset.mpr hr
  obtain ⟨hsticky, hload⟩ := h.sticky.moveOne hne hd hr (by omega)
    (h.greedy.le_kept_of_low_lt hdM hdlow hrM hrlow)
    (h.greedy.kept_le_of_lt_low hlow hrM hrlow)
  refine ⟨_, rfl, ⟨hsticky, ?_⟩, ?_⟩
  · rw [hload]
    refine h.greedy.move_between hlow (fun m hm => ?_) hdM hdlow hrM hrlow
    simpa using firstWith_eq_nil hq.named habove m (mem_toFinset.mp hm)
  · rw [hload]
    exact Leveling.imbalance_move_lt hlow hdM hrM (.inr ⟨hdlow, hrlow⟩)

theorem rebalanceStep_spec :
    (rebalanceStep next M floor ceil = none ∧ ∀ m ∈ M, floor ≤ next.load m ∧ next.load m ≤ ceil) ∨
      Improves M parts kept floor ceil next := by
  by_cases habove : firstWith next M (fun l => ceil < l) = []
  · by_cases hneed : firstWith next M (fun l => l < floor) = []
    · refine .inl ⟨by rw [rebalanceStep, if_pos habove, if_pos hneed], fun m hm => ?_⟩
      have hceil := firstWith_eq_nil hq.named habove m hm
      have hfloor := firstWith_eq_nil hq.named hneed m hm
      simp only [decide_eq_false_iff_not] at hceil hfloor
      omega
    · exact .inr (improves_of_below hq h habove hneed)
  · exact .inr (improves_of_above hq h habove)

end

theorem rebalanceDown_spec (hq : Quota M parts floor ceil) (fuel : ℕ) (next : Assignment)
    (h : Underway M parts kept floor ceil [] next)
    (hfuel : imbalance M.toFinset floor ceil next.load < fuel) :
    ∃ done, rebalanceDown M floor ceil fuel next = some done ∧
      Underway M parts kept floor ceil [] done ∧
      ∀ m ∈ M, floor ≤ done.load m ∧ done.load m ≤ ceil := by
  induction fuel generalizing next with
  | zero => omega
  | succ fuel ih =>
    rcases rebalanceStep_spec hq h with ⟨hstop, hlevel⟩ | ⟨moved, hmove, hmoved, hless⟩
    · refine ⟨next, ?_, h, hlevel⟩
      rw [rebalanceDown, hstop]
    · rw [rebalanceDown, hmove]
      exact ih moved hmoved (by omega)

theorem rebalanceDown_of_le {fuel more : ℕ} {done : Assignment} (hle : fuel ≤ more)
    (h : rebalanceDown M floor ceil fuel next = some done) :
    rebalanceDown M floor ceil more next = some done := by
  induction fuel generalizing next more with
  | zero => cases h
  | succ fuel ih =>
    obtain ⟨more, rfl⟩ := Nat.exists_eq_add_of_le hle
    rw [Nat.add_right_comm, rebalanceDown]
    rw [rebalanceDown] at h
    cases hstep : rebalanceStep next M floor ceil with
    | none => rwa [hstep] at h
    | some moved =>
      rw [hstep] at h
      exact ih (Nat.le_add_right ..) h

/-! ### The last loop -/

theorem Sticky.of_perm {sorted : Assignment} (h : Sticky M parts kept pending next)
    (hmem : ∀ m, m ∈ sorted ↔ m ∈ next) (hperm : ∀ m, (sorted.parts m).Perm (next.parts m)) :
    Sticky M parts kept pending sorted := by
  have hparts : ∀ m p, p ∈ sorted.parts m ↔ p ∈ next.parts m := fun m p => (hperm m).mem_iff
  have hload : ∀ m, sorted.load m = next.load m := fun m => (hperm m).length_eq
  refine ⟨fun m => (hmem m).trans (h.members m), fun m => (hperm m).nodup_iff.mpr (h.nodup m),
    h.nodup_pending, ?_, ?_, ?_, fun m hle p hp => ?_, fun m hle p hp => ?_⟩
  · simpa only [hparts] using h.holder
  · simpa only [hparts] using h.notHeld
  · simpa only [hparts] using h.mem
  · exact (hparts m p).mpr (h.keeps m (hload m ▸ hle) hp)
  · exact h.only m (hload m ▸ hle) ((hparts m p).mp hp)

theorem sortAll_spec (M : List Str) (next : Assignment) :
    (∀ m, m ∈ sortAll M next ↔ m ∈ M ∨ m ∈ next) ∧
    ∀ m, ((sortAll M next).parts m).Perm (next.parts m) := by
  induction M using List.reverseRecOn with
  | nil => exact ⟨by simp [sortAll], fun m => List.Perm.refl _⟩
  | append_singleton M j ih =>
    have hsnoc : sortAll (M ++ [j]) next =
        (sortAll M next).insert j (sortStrings ((sortAll M next).parts j)) := by
      simp [sortAll]
    refine ⟨fun m => ?_, fun m => ?_⟩
    · rw [hsnoc, AList.mem_insert, ih.1, mem_append, mem_singleton, ← or_assoc,
        or_comm (a := m = j)]
    rw [hsnoc, parts_insert]
    split_ifs with heq
    · subst heq
      exact (perm_insertionSort (· ≤ ·) _).trans (ih.2 m)
    · exact ih.2 m

theorem Underway.sortAll (h : Underway M parts kept floor ceil [] next) :
    Underway M parts kept floor ceil [] (sortAll M next) ∧ (sortAll M next).load = next.load := by
  obtain ⟨hmem, hperm⟩ := sortAll_spec M next
  have hload : (Rebalance.sortAll M next).load = next.load := funext fun m => (hperm m).length_eq
  have hkeys : ∀ m, m ∈ Rebalance.sortAll M next ↔ m ∈ next := fun m => by
    rw [hmem, h.sticky.members, or_self]
  exact ⟨⟨h.sticky.of_perm hkeys hperm, hload ▸ h.greedy⟩, hload⟩

/-! ### The quota -/

theorem toFinset_sortedMembers (members : List Str) :
    (sortedMembers members).toFinset = members.toFinset := by
  ext m
  simp [mem_sortedMembers]

theorem card_members (members : List Str) :
    members.toFinset.card = (sortedMembers members).length := by
  rw [← toFinset_sortedMembers, toFinset_card_of_nodup]
  exact nodup_sortStrings.mpr (nodup_distinct members)

theorem card_partitions (partitions : List Str) :
    partitions.toFinset.card = (sortedParts partitions).length := by
  have hset : (sortedParts partitions).toFinset = partitions.toFinset := by
    ext p
    simp [mem_sortedParts]
  rw [← hset, toFinset_card_of_nodup (nodup_sortedParts partitions)]

theorem floorLoad_eq (members partitions : List Str) :
    floorLoad members partitions = partitions.toFinset.card / members.toFinset.card := by
  rw [floorLoad, card_members members, card_partitions partitions]

theorem ceilLoad_eq (hne : members ≠ []) (partitions : List Str) :
    ceilLoad members partitions =
      (partitions.toFinset.card + members.toFinset.card - 1) / members.toFinset.card := by
  have hpos : 0 < members.toFinset.card := by
    rw [Finset.card_pos, toFinset_nonempty_iff]
    exact hne
  rw [ceilLoad, floorLoad, ← card_members, ← card_partitions]
  generalize members.toFinset.card = n at hpos
  generalize partitions.toFinset.card = P
  have hdiv := Nat.div_add_mod P n
  have hmod := Nat.mod_lt P hpos
  split_ifs with hrem
  · symm
    rw [Nat.div_eq_iff hpos]
    constructor
    · rw [Nat.add_mul, Nat.one_mul, Nat.mul_comm]
      omega
    · rw [Nat.add_mul, Nat.one_mul, Nat.mul_comm]
      omega
  · symm
    rw [Nat.div_eq_iff hpos, Nat.mul_comm]
    omega

theorem quota (hids : ∀ m ∈ members, m ≠ []) (hne : members ≠ []) (partitions : List Str) :
    Quota (sortedMembers members) (sortedParts partitions) (floorLoad members partitions)
      (ceilLoad members partitions) := by
  have hpos : 0 < (sortedMembers members).length := by
    rw [← card_members, Finset.card_pos, toFinset_nonempty_iff]
    exact hne
  refine ⟨nodup_sortedParts partitions, fun m hm => hids m (mem_sortedMembers.mp hm), ?_, ?_, ?_⟩
  · unfold ceilLoad
    split <;> omega
  · rw [toFinset_sortedMembers, card_members]
    exact Nat.mul_div_le ..
  rw [toFinset_sortedMembers, card_members, ceilLoad, floorLoad]
  have hdiv := Nat.div_add_mod (sortedParts partitions).length (sortedMembers members).length
  have hmod := Nat.mod_lt (sortedParts partitions).length hpos
  split
  · rw [Nat.mul_add, Nat.mul_one]
    omega
  · omega

theorem imbalance_le (hq : Quota M parts floor ceil) (h : Sticky M parts kept pending next) :
    imbalance M.toFinset floor ceil next.load ≤ 2 * parts.length := by
  have hterms : imbalance M.toFinset floor ceil next.load ≤ ∑ m ∈ M.toFinset, (next.load m + floor) :=
    Finset.sum_le_sum fun m _ => by omega
  rw [Finset.sum_add_distrib, Finset.sum_const, smul_eq_mul] at hterms
  have htotal := h.total hq.nodup
  have hfloor := hq.floor_le
  omega

/-! ### Minimality -/

theorem previousOwner_eq_some_iff {prev : Assignment} :
    previousOwner prev (sortedMembers members) p = some m ↔
      m ∈ members ∧ firstListed prev members m p := by
  have hfirst : ∀ m, previousOwner prev (sortedMembers members) p = some m →
      m ∈ members ∧ firstListed prev members m p := by
    intro m hfind
    obtain ⟨hlisted, before, after, hsplit, hnone⟩ := List.find?_eq_some_iff_append.mp hfind
    have hmem : ∀ j, j ∈ members ↔ j ∈ before ++ m :: after := fun j => by
      rw [← hsplit, mem_sortedMembers]
    have hsorted : (before ++ m :: after).Pairwise (· ≤ ·) :=
      hsplit ▸ pairwise_insertionSort (· ≤ ·) _
    refine ⟨(hmem m).mpr (by simp), by simpa using hlisted, fun j hj hjlisted => ?_⟩
    rcases mem_append.mp ((hmem j).mp hj) with hbefore | hafter
    · have := hnone j hbefore
      simp [hjlisted] at this
    rcases mem_cons.mp hafter with rfl | hafter
    · exact le_refl _
    · exact (pairwise_cons.mp (pairwise_append.mp hsorted).2.1).1 j hafter
  refine ⟨hfirst m, fun ⟨hm, hlisted, hleast⟩ => ?_⟩
  cases hfind : previousOwner prev (sortedMembers members) p with
  | none =>
    have := List.find?_eq_none.mp hfind m (mem_sortedMembers.mpr hm)
    simp [hlisted] at this
  | some owner =>
    obtain ⟨howner, hownerListed, hownerLeast⟩ := hfirst owner hfind
    rw [le_antisymm (hownerLeast m hm hlisted) (hleast owner howner hownerListed)]

theorem taken_eq (prev next : Assignment) (members partitions : List Str) :
    taken (firstListed prev members) members partitions next = ∑ m ∈ members.toFinset,
        (((keepAll prev members partitions).next.parts m).toFinset \ (next.parts m).toFinset).card := by
  refine Finset.sum_congr rfl fun m hm => congrArg Finset.card (Finset.ext fun p => ?_)
  rw [Finset.mem_filter, Finset.mem_sdiff, mem_toFinset, mem_toFinset, mem_toFinset,
    mem_parts_keepAll, previousOwner_eq_some_iff, and_assoc]
  simp [mem_toFinset.mp hm]

theorem sub_le_card_sdiff (hkept : (kept.parts m).Nodup) :
    kept.load m - next.load m ≤ ((kept.parts m).toFinset \ (next.parts m).toFinset).card := by
  have hle := Finset.le_card_sdiff (next.parts m).toFinset (kept.parts m).toFinset
  rw [toFinset_card_of_nodup hkept] at hle
  have hcard := toFinset_card_le (next.parts m)
  simp only [Assignment.load]
  omega

theorem Sticky.card_sdiff_le (h : Sticky M parts kept pending next) (hkept : (kept.parts m).Nodup) :
    ((kept.parts m).toFinset \ (next.parts m).toFinset).card ≤ kept.load m - next.load m := by
  rcases Nat.le_total (kept.load m) (next.load m) with hle | hle
  · have hsub : (kept.parts m).toFinset ⊆ (next.parts m).toFinset := fun p hp =>
      mem_toFinset.mpr (h.keeps m hle (mem_toFinset.mp hp))
    rw [Finset.sdiff_eq_empty_iff_subset.mpr hsub, Finset.card_empty]
    exact Nat.zero_le _
  have hsub : (next.parts m).toFinset ⊆ (kept.parts m).toFinset := fun p hp =>
    mem_toFinset.mpr (h.only m hle (mem_toFinset.mp hp))
  rw [Finset.card_sdiff_of_subset hsub, toFinset_card_of_nodup hkept,
    toFinset_card_of_nodup (h.nodup m)]
  exact Nat.le_refl _

theorem Balanced.sticky (h : Balanced members partitions next) :
    Sticky (sortedMembers members) (sortedParts partitions) next [] next where
  members m := (h.mem_iff m).trans mem_sortedMembers.symm
  nodup := h.nodup
  nodup_pending := nodup_nil
  holder p m j hm hj := (h.complete p (h.mem_partitions m p hm)).unique hm hj
  notHeld p hp := absurd hp not_mem_nil
  mem p := by
    rw [mem_sortedParts]
    refine ⟨fun hp => .inr (h.complete p hp).exists, ?_⟩
    rintro (hp | ⟨m, hm⟩)
    · exact absurd hp not_mem_nil
    · exact h.mem_partitions m p hm
  keeps m _ := List.Subset.refl _
  only m _ := List.Subset.refl _

theorem Sticky.balanced (hne : members ≠ [])
    (h : Sticky (sortedMembers members) (sortedParts partitions) kept [] next)
    (hlevel : ∀ m ∈ sortedMembers members, floorLoad members partitions ≤ next.load m ∧
      next.load m ≤ ceilLoad members partitions) : Balanced members partitions next where
  mem_iff m := (h.members m).trans mem_sortedMembers
  nodup := h.nodup
  complete p hp := by
    rcases (h.mem p).mp (mem_sortedParts.mpr hp) with hpending | ⟨m, hm⟩
    · exact absurd hpending not_mem_nil
    · exact ⟨m, hm, fun j hj => h.holder p j m hj hm⟩
  mem_partitions m p hp := mem_sortedParts.mp ((h.mem p).mpr (.inr ⟨m, hp⟩))
  floor_le m hm := floorLoad_eq members partitions ▸ (hlevel m (mem_sortedMembers.mpr hm)).1
  le_ceil m hm := ceilLoad_eq hne partitions ▸ (hlevel m (mem_sortedMembers.mpr hm)).2

theorem taken_le {prev other : Assignment} (hne : members ≠ [])
    (h : Underway (sortedMembers members) (sortedParts partitions)
      (keepAll prev members partitions).next (floorLoad members partitions)
      (ceilLoad members partitions) [] next) (hother : Balanced members partitions other) :
    taken (firstListed prev members) members partitions next ≤
      taken (firstListed prev members) members partitions other := by
  have hkept := (kept_keepAll prev members partitions).nodup
  have htotal : ∑ m ∈ members.toFinset, next.load m = ∑ m ∈ members.toFinset, other.load m := by
    have hown := h.sticky.total (nodup_sortedParts partitions)
    have hothers := hother.sticky.total (nodup_sortedParts partitions)
    rw [toFinset_sortedMembers, length_nil] at hown hothers
    omega
  have hlevel : ∀ m ∈ members.toFinset,
      floorLoad members partitions ≤ other.load m ∧ other.load m ≤ ceilLoad members partitions := by
    intro m hm
    rw [floorLoad_eq, ceilLoad_eq hne]
    exact ⟨hother.floor_le m (mem_toFinset.mp hm), hother.le_ceil m (mem_toFinset.mp hm)⟩
  have hgreedy := toFinset_sortedMembers members ▸ h.greedy
  rw [taken_eq, taken_eq]
  calc ∑ m ∈ members.toFinset, (((keepAll prev members partitions).next.parts m).toFinset \
        (next.parts m).toFinset).card
      ≤ ∑ m ∈ members.toFinset, ((keepAll prev members partitions).next.load m - next.load m) :=
        Finset.sum_le_sum fun m _ => h.sticky.card_sdiff_le (hkept m)
    _ ≤ ∑ m ∈ members.toFinset, ((keepAll prev members partitions).next.load m - other.load m) :=
        hgreedy.sum_sub_le hlevel htotal
    _ ≤ ∑ m ∈ members.toFinset, (((keepAll prev members partitions).next.parts m).toFinset \
        (other.parts m).toFinset).card :=
        Finset.sum_le_sum fun m _ => sub_le_card_sdiff (hkept m)

/-- The result is balanced and takes as little as any balanced assignment from the owners before. -/
theorem reassign_balanced_minimal (prev : Assignment) (members partitions : List Str)
    (hne : members ≠ []) (hids : ∀ m ∈ members, m ≠ []) :
    ∃ next, (∀ fuel, 2 * partitions.length < fuel → reassign fuel prev members partitions = some next) ∧
      Balanced members partitions next ∧ ∀ other, Balanced members partitions other →
        taken (firstListed prev members) members partitions next ≤
          taken (firstListed prev members) members partitions other := by
  have hq := quota hids hne partitions
  have hsticky := sticky_keepAll prev members partitions
  have hfilled := assignFree_underway hq _ _ ⟨hsticky, Leveling.greedy_kept ..⟩ fun m _ =>
    Nat.min_le_left ..
  have hlength : (sortedParts partitions).length ≤ partitions.length := by
    rw [← card_partitions]
    exact toFinset_card_le partitions
  obtain ⟨done, hdone, hunderway, hlevel⟩ := rebalanceDown_spec hq (2 * partitions.length + 1) _ hfilled (by
    have := imbalance_le hq hfilled.sticky
    omega)
  obtain ⟨hsorted, hload⟩ := hunderway.sortAll
  refine ⟨sortAll (sortedMembers members) done, fun fuel hfuel => ?_, hsorted.sticky.balanced hne ?_,
    fun other => taken_le hne hsorted⟩
  · have hmembers : (sortedMembers members).length ≠ 0 := by
      rw [← card_members, Finset.card_ne_zero, toFinset_nonempty_iff]
      exact hne
    rw [reassign, if_neg hmembers]
    simp only [rebalanceDown_of_le hfuel hdone, Option.map_some]
  · rwa [hload]

/-- One member lists both partitions. -/
def soleOwner : Assignment := (∅ : Assignment).insert [97] [[1], [2]]

/-- A second member joins, and one of the two partitions has to move to it. -/
theorem one_partition_moves : ∃ next,
    (∀ fuel, 4 < fuel → reassign fuel soleOwner [[97], [98]] [[1], [2]] = some next) ∧
    Balanced [[97], [98]] [[1], [2]] next ∧ ∀ other, Balanced [[97], [98]] [[1], [2]] other →
      taken (firstListed soleOwner [[97], [98]]) [[97], [98]] [[1], [2]] next ≤
        taken (firstListed soleOwner [[97], [98]]) [[97], [98]] [[1], [2]] other :=
  reassign_balanced_minimal soleOwner [[97], [98]] [[1], [2]] (by decide) (by decide)

/-- Two members list the partition `1`. -/
def listedTwice : Assignment := ((∅ : Assignment).insert [97] [[1], [2]]).insert [98] [[1]]

/-- Each of the two members keeps one of its partitions. -/
def eachKeepsOne : Assignment := ((∅ : Assignment).insert [97] [[2]]).insert [98] [[1]]

theorem balanced_eachKeepsOne : Balanced [[97], [98]] [[1], [2]] eachKeepsOne := by
  have hparts : ∀ m, eachKeepsOne.parts m =
      if m = [98] then [[1]] else if m = [97] then [[2]] else [] := fun m => by
    rw [eachKeepsOne, parts_insert, parts_insert]
    rfl
  refine ⟨fun m => ?_, fun m => ?_, fun p hp => ?_, fun m p hp => ?_, by decide, by decide⟩
  · rw [eachKeepsOne, AList.mem_insert, AList.mem_insert]
    simp [AList.notMem_empty, or_comm]
  · rw [hparts]
    split
    · decide
    · split <;> decide
  · simp only [hparts]
    simp only [mem_cons, not_mem_nil, or_false] at hp
    rcases hp with rfl | rfl
    · exact ⟨[98], by decide, fun m hm => by grind⟩
    · exact ⟨[97], by decide, fun m hm => by grind⟩
  · rw [hparts] at hp
    grind

/-- The first member keeps the partition that both list, though each could keep one of its own. -/
theorem listed_twice_not_minimal : (reassign 5 listedTwice [[97], [98]] [[1], [2]]).map
      (taken (listed listedTwice) [[97], [98]] [[1], [2]]) = some 2 ∧
    Balanced [[97], [98]] [[1], [2]] eachKeepsOne ∧
    taken (listed listedTwice) [[97], [98]] [[1], [2]] eachKeepsOne = 1 :=
  ⟨by decide, balanced_eachKeepsOne, by decide⟩

end HelixCluster.Rebalance
