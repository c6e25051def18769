import HelixCluster.Mvcc.Refinement

/-!
# Reads after compaction

`Compact(rev)` drops every superseded version with `ModRev < rev`, and with it some reads
(`compact_get_iff`).
-/

namespace HelixCluster.Mvcc

open List

/-- The stores that a number of calls of `Put`, and calls of `Compact`, reach from `New`. -/
inductive Reachable : ℕ → Store → Prop where
  | new : Reachable 0 Store.new
  | put {n : ℕ} {s s' : Store} {key : Str} {val : List UInt8} {rev : Int64} :
      Reachable n s → s.put key val = some (rev, s') → Reachable (n + 1) s'
  | compact {n : ℕ} {s s' : Store} {rev : Int64} :
      Reachable n s → s.compact rev = some s' → Reachable n s'

variable {s : Store} {n : ℕ} {s' : Store}

theorem Reachable.putAll {puts : List PutCall} (hreach : Reachable n s)
    (hputs : s.putAll puts = some s') : Reachable (n + puts.length) s' := by
  induction puts generalizing s n with
  | nil =>
    cases hputs
    exact hreach
  | cons call rest ih =>
    obtain ⟨⟨rev, s₁⟩, hput, hrest⟩ := Option.bind_eq_some_iff.mp hputs
    rw [length_cons, Nat.add_comm rest.length, ← Nat.add_assoc]
    exact ih (hreach.put hput) hrest

/-- The invariant of the reachable stores: every history ascends up to the current revision. -/
structure Consistent (s : Store) : Prop where
  valid : s.Valid
  ascending : ∀ k, KeyHistory.Ascending (s.history k)
  modRev_le : ∀ k, ∀ v ∈ s.history k, v.modRev ≤ s.rev

variable {rev r : Int64} {versions : List Version}

theorem Consistent.put {key : Str} {val : List UInt8} (hcons : Consistent s)
    (hput : s.put key val = some (rev, s')) (hnext : s.rev < s.rev + 1) : Consistent s' := by
  obtain ⟨s₁, hput₁, hvalid, hrev, -, hhistory, -⟩ := hcons.valid.put_spec key val
  obtain ⟨-, rfl⟩ := Prod.mk.inj (Option.some.inj (hput₁.symm.trans hput))
  refine ⟨hvalid, fun k => ?_, fun k v hv => ?_⟩
  · rw [hhistory]
    split
    · refine pairwise_append.mpr ⟨hcons.ascending key, pairwise_singleton _ _, ?_⟩
      intro a ha b hb
      obtain rfl := mem_singleton.mp hb
      exact Int64.lt_of_le_of_lt (hcons.modRev_le key a ha) hnext
    · exact hcons.ascending k
  rw [hhistory] at hv
  rw [hrev]
  split at hv
  · rcases mem_append.mp hv with hv | hv
    · exact Int64.le_trans (hcons.modRev_le key v hv) (Int64.le_of_lt hnext)
    · obtain rfl := mem_singleton.mp hv
      exact Int64.le_refl _
  · exact Int64.le_trans (hcons.modRev_le k v hv) (Int64.le_of_lt hnext)

theorem KeyHistory.compact_sublist (h : KeyHistory) (rev : Int64) :
    (h.compact rev).versions.Sublist h.versions := by
  obtain ⟨versions⟩ := h
  rcases eq_nil_or_concat versions with rfl | ⟨front, latest, rfl⟩
  · exact nil_sublist _
  · rw [concat_eq_append, KeyHistory.compact_eq]
    exact filter_sublist.append_right _

theorem Consistent.compact (hcons : Consistent s) (hcompact : s.compact rev = some s') :
    Consistent s' := by
  obtain ⟨s₁, hcompact₁, hvalid, hrev, -, -, hhistory⟩ := hcons.valid.compact_spec rev
  cases hcompact₁.symm.trans hcompact
  refine ⟨hvalid, fun k => ?_, fun k v hv => ?_⟩
  · rw [hhistory]
    exact (hcons.ascending k).sublist (KeyHistory.compact_sublist _ rev)
  rw [hhistory] at hv
  rw [hrev]
  exact hcons.modRev_le k v ((KeyHistory.compact_sublist _ rev).subset hv)

theorem Reachable.rev_eq (hreach : Reachable n s) : s.Valid ∧ s.rev = .ofNat n := by
  induction hreach with
  | new => exact ⟨Store.new_valid, rfl⟩
  | @put n s s' key val rev _ hput ih =>
    obtain ⟨s₁, hput₁, hvalid, hrev, -⟩ := ih.1.put_spec key val
    obtain ⟨-, rfl⟩ := Prod.mk.inj (Option.some.inj (hput₁.symm.trans hput))
    rw [hrev, ih.2, Int64.ofNat_add]
    exact ⟨hvalid, rfl⟩
  | @compact n s s' rev _ hcompact ih =>
    obtain ⟨s₁, hcompact₁, hvalid, hrev, -⟩ := ih.1.compact_spec rev
    cases hcompact₁.symm.trans hcompact
    exact ⟨hvalid, hrev.trans ih.2⟩

theorem Reachable.consistent (hreach : Reachable n s) (hn : n < 2 ^ 63) : Consistent s := by
  induction hreach with
  | new => exact ⟨Store.new_valid, fun _ => List.Pairwise.nil, fun _ _ hv => nomatch hv⟩
  | @put n s _ _ _ _ hreach hput ih =>
    refine (ih (by omega)).put hput ?_
    have hsucc : s.rev + 1 = .ofNat (n + 1) := by
      rw [hreach.rev_eq.2, Int64.ofNat_add]
      rfl
    rw [hsucc, hreach.rev_eq.2, Int64.lt_iff_toInt_lt, Int64.toInt_ofNat_of_lt hn,
      Int64.toInt_ofNat_of_lt (by omega)]
    omega
  | compact _ hcompact ih => exact (ih hn).compact hcompact

/-- The history has no version up to `r`, or none after `r`, or one between `rev` and `r`. -/
def ReadRetained (versions : List Version) (rev r : Int64) : Prop :=
  (∀ v ∈ versions, r < v.modRev) ∨ (∀ v ∈ versions, v.modRev ≤ r) ∨
    ∃ v ∈ versions, rev ≤ v.modRev ∧ v.modRev ≤ r

/-- A read at `r` survives exactly when nothing was visible, or a version from `rev` on is. -/
theorem asOf_filter_iff (hascending : KeyHistory.Ascending versions) : (KeyHistory.asOf (versions.filter fun v => rev ≤ v.modRev) r).map Version.value =
        (KeyHistory.asOf versions r).map Version.value ↔
      (∀ v ∈ versions, r < v.modRev) ∨ ∃ v ∈ versions, rev ≤ v.modRev ∧ v.modRev ≤ r := by
  rw [KeyHistory.asOf, KeyHistory.asOf, filter_comm]
  rcases eq_nil_or_concat (versions.filter fun v => v.modRev ≤ r) with
    hvisible | ⟨init, last, hvisible⟩
  · rw [hvisible]
    refine iff_of_true rfl (.inl fun v hv => ?_)
    simpa using filter_eq_nil_iff.mp hvisible v hv
  rw [concat_eq_append] at hvisible
  have hmem (v : Version) : v ∈ init ++ [last] ↔ v ∈ versions ∧ v.modRev ≤ r := by
    rw [← hvisible, mem_filter, decide_eq_true_eq]
  obtain ⟨hlast, hlastLe⟩ := (hmem last).mp (by simp)
  rw [hvisible]
  by_cases hkept : rev ≤ last.modRev
  · exact iff_of_true (by simp [hkept]) (.inr ⟨last, hlast, hkept, hlastLe⟩)
  -- the visible version is dropped, and all older ones with it
  have hsorted := hascending.filter fun v => decide (v.modRev ≤ r)
  rw [hvisible] at hsorted
  have hdropped : ∀ v ∈ init ++ [last], v.modRev < rev := by
    intro v hv
    rcases mem_append.mp hv with hv | hv
    · have hlt := (pairwise_append.mp hsorted).2.2 v hv last (by simp)
      exact Int64.lt_trans hlt (Int64.not_le.mp hkept)
    · obtain rfl := mem_singleton.mp hv
      exact Int64.not_le.mp hkept
  have hnil : (init ++ [last]).filter (fun v => rev ≤ v.modRev) = [] := by
    rw [filter_eq_nil_iff]
    intro v hv
    simpa using hdropped v hv
  rw [hnil]
  refine iff_of_false (by simp) ?_
  intro h
  rcases h with hnewer | ⟨v, hv, hge, hle⟩
  · exact Int64.not_le.mpr (hnewer last hlast) hlastLe
  · exact Int64.not_le.mpr (hdropped v ((hmem v).mpr ⟨hv, hle⟩)) hge

theorem asOf_concat_newer (front : List Version) {latest : Version}
    (h : ¬ latest.modRev ≤ r) :
    KeyHistory.asOf (front ++ [latest]) r = KeyHistory.asOf front r := by
  have hnone : [latest].filter (fun v => v.modRev ≤ r) = [] := by simpa using h
  rw [KeyHistory.asOf, KeyHistory.asOf, filter_append, hnone, append_nil]

theorem get_compact_iff (hascending : KeyHistory.Ascending versions) (hpos : 0 < r) :
    (KeyHistory.compact ⟨versions⟩ rev).get r = KeyHistory.get ⟨versions⟩ r ↔
      ReadRetained versions rev r := by
  have hcompacted := hascending.sublist (KeyHistory.compact_sublist ⟨versions⟩ rev)
  rw [KeyHistory.get_asOf hascending hpos,
    show KeyHistory.get _ r = _ from KeyHistory.get_asOf hcompacted hpos]
  rcases eq_nil_or_concat versions with rfl | ⟨front, latest, rfl⟩
  · exact iff_of_true rfl (.inl (by simp))
  rw [concat_eq_append] at hascending ⊢
  obtain ⟨hfront, -, hlatest⟩ := pairwise_append.mp hascending
  rw [KeyHistory.compact_eq]
  by_cases hle : latest.modRev ≤ r
  · -- the latest version is visible, and compaction never drops it
    refine iff_of_true (by simp [KeyHistory.asOf, hle]) (.inr (.inl fun v hv => ?_))
    rcases mem_append.mp hv with hv | hv
    · exact Int64.le_trans (Int64.le_of_lt (hlatest v hv latest (mem_singleton_self latest))) hle
    · obtain rfl := mem_singleton.mp hv
      exact hle
  rw [asOf_concat_newer _ hle, asOf_concat_newer _ hle, asOf_filter_iff hfront]
  have hnewer : r < latest.modRev := Int64.not_le.mp hle
  simp only [ReadRetained, mem_append, mem_singleton, or_imp, forall_and, forall_eq,
    hnewer, hle, and_true, and_false, false_or, or_and_right, exists_or, exists_eq_left, or_false]

theorem get_compact_latest (versions : List Version) (hnonpos : r ≤ 0) :
    (KeyHistory.compact ⟨versions⟩ rev).get r = KeyHistory.get ⟨versions⟩ r := by
  rw [KeyHistory.get_latest versions hnonpos,
    show KeyHistory.get _ r = _ from KeyHistory.get_latest _ hnonpos]
  rcases eq_nil_or_concat versions with rfl | ⟨front, latest, rfl⟩
  · rfl
  · rw [concat_eq_append, KeyHistory.compact_eq, List.getLast?_concat, List.getLast?_concat]

/-- A read is the same after `Compact(rev)` exactly when it is of the latest value or its version is
retained. -/
theorem compact_get_iff {s : Store} {n : ℕ} (hreach : Reachable n s)
    (hn : n < 2 ^ 63) (rev r : Int64) (k : Str) :
    ∃ s', s.compact rev = some s' ∧
      (s'.get k r = s.get k r ↔ r ≤ 0 ∨ ReadRetained (s.history k) rev r) := by
  have hcons := hreach.consistent hn
  obtain ⟨s', hcompact, hvalid', -, -, -, hhistory⟩ := hcons.valid.compact_spec rev
  refine ⟨s', hcompact, ?_⟩
  rw [hvalid'.get_eq, hcons.valid.get_eq, Option.some_inj, hhistory]
  by_cases hnonpos : r ≤ 0
  · exact iff_of_true (get_compact_latest _ hnonpos) (.inl hnonpos)
  · simp only [hnonpos, false_or]
    exact get_compact_iff (hcons.ascending k) (Int64.not_le.mp hnonpos)

/-- The store after `Put("k", "a")`, `Put("j", "x")` and `Put("k", "b")`. -/
def supersededStore : Store where
  rev := 3
  index := ⟨.mk true [⟨[106], 1⟩, ⟨[107], 0⟩] [], 4⟩
  heap := [⟨[⟨1, [97]⟩, ⟨3, [98]⟩]⟩, ⟨[⟨2, [120]⟩]⟩]
  log := [⟨1, [107], [97]⟩, ⟨2, [106], [120]⟩, ⟨3, [107], [98]⟩]

theorem putAll_supersededStore :
    Store.new.putAll [([107], [97]), ([106], [120]), ([107], [98])] = some supersededStore :=
  rfl

/-- Compacting at 2 drops version 1 of `k`, which is what a read at 2 returned. -/
theorem compact_drops_visible_version :
    ∃ s', Reachable 3 supersededStore ∧ supersededStore.compact 2 = some s' ∧
      supersededStore.get [107] 2 = some (some [97]) ∧ s'.get [107] 2 = some none :=
  ⟨_, Reachable.new.putAll putAll_supersededStore, rfl, by decide, by decide⟩

/-- The same compaction preserves the read at 3, whose version it keeps. -/
theorem compact_keeps_latest_version : ∃ s', supersededStore.compact 2 = some s' ∧
      s'.get [107] 3 = supersededStore.get [107] 3 := by
  obtain ⟨s', hcompact, hiff⟩ :=
    compact_get_iff (Reachable.new.putAll putAll_supersededStore) (by decide) 2 3 [107]
  exact ⟨s', hcompact, hiff.mpr (.inr (.inr (.inl (by decide))))⟩

end HelixCluster.Mvcc
