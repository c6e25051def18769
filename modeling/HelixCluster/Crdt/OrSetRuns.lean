import HelixCluster.Crdt.OrSet
import HelixCluster.Pair

/-!
# Runs of state-based observed-remove sets

Every replica adds under its own ID and merges snapshots of any age. As long as no sequence number
comes round, tags are fresh and an `Add` wins over a `Remove` that had not observed it
(`fresh_tags_add_wins`).
-/

namespace HelixCluster.Crdt

open List StateNetwork

/-- The calls of a replica. -/
inductive OrSetOp where
  | add (element : Str)
  | remove (element : Str)
  deriving DecidableEq

/-- The call is an `Add`. -/
def OrSetOp.isAdd : OrSetOp → Bool
  | add _ => true
  | remove _ => false

variable {ι : Type} [DecidableEq ι] {node : ι → Str}

/-- The set as a replicated object whose replicas add under their own IDs. -/
def orSetObject (node : ι → Str) : StateObject ι OrSet OrSetOp where
  apply i
    | .add element, s => s.add element (node i)
    | .remove element, s => s.remove element
  merge := OrSet.merge

/-- The sequence numbers among the add-tags of a replica ID. -/
def addSeqs (s : OrSet) (id : Str) : Set ℕ :=
  {n | ∃ element seq, ⟨id, seq⟩ ∈ s.adds.tags element ∧ seq.toNat = n}

/-- The clock of an ID is its largest add-tag or zero, and tombstones name add-tags of their
element. -/
structure Consistent (s : OrSet) : Prop where
  le_clock : ∀ id, ∀ n ∈ addSeqs s id, n ≤ s.clock id
  clock_mem : ∀ id, s.clock id = 0 ∨ s.clock id ∈ addSeqs s id
  tombs_subset : ∀ element, s.tombs.tags element ⊆ s.adds.tags element

variable {s : OrSet}

theorem Consistent.clock_greatest (hcons : Consistent s) (id : Str) :
    (addSeqs s id = ∅ ∧ s.clock id = 0) ∨ IsGreatest (addSeqs s id) (s.clock id) := by
  rcases Set.eq_empty_or_nonempty (addSeqs s id) with hempty | ⟨n, hn⟩
  · refine .inl ⟨hempty, (hcons.clock_mem id).resolve_right fun h => ?_⟩
    rw [hempty] at h
    exact h
  refine .inr ⟨?_, fun m hm => hcons.le_clock id m hm⟩
  rcases hcons.clock_mem id with hzero | hmem
  · have hle := hcons.le_clock id n hn
    rw [hzero] at hle ⊢
    exact Nat.le_zero.mp hle ▸ hn
  · exact hmem

theorem consistent_new : Consistent newOrSet where
  le_clock _ _ hn := by
    obtain ⟨element, seq, ht, -⟩ := hn
    exact absurd ht (Finset.notMem_empty _)
  clock_mem _ := .inl rfl
  tombs_subset _ := Finset.Subset.refl _

theorem mem_addSeqs_add (s : OrSet) (element id k : Str) (n : ℕ) :
    n ∈ addSeqs (s.add element id) k ↔
      (k = id ∧ n = (s.nextTag id).seq.toNat) ∨ n ∈ addSeqs s k := by
  simp only [addSeqs, Set.mem_ofPred_eq, OrSet.adds_add]
  constructor
  · intro h
    obtain ⟨el, seq, ht, hn⟩ := h
    split at ht
    · rcases Finset.mem_insert.mp ht with ht | ht
      · obtain ⟨rfl, rfl⟩ := Tag.mk.inj ht
        exact .inl ⟨rfl, hn.symm⟩
      · exact .inr ⟨element, seq, ht, hn⟩
    · exact .inr ⟨el, seq, ht, hn⟩
  intro h
  rcases h with ⟨rfl, rfl⟩ | ⟨el, seq, ht, hn⟩
  · exact ⟨element, _, by simp [OrSet.nextTag], rfl⟩
  refine ⟨el, seq, ?_, hn⟩
  split
  · next hel => exact Finset.mem_insert_of_mem (hel ▸ ht)
  · exact ht

theorem mem_addSeqs_merge (s t : OrSet) (k : Str) (n : ℕ) :
    n ∈ addSeqs (s.merge t) k ↔ n ∈ addSeqs s k ∨ n ∈ addSeqs t k := by
  simp only [addSeqs, Set.mem_ofPred_eq, OrSet.adds_merge, Finset.mem_union, or_and_right, exists_or]

theorem Consistent.add (hcons : Consistent s) (element : Str) {id : Str}
    (hwrap : s.clock id + 1 < 2 ^ 64) : Consistent (s.add element id) where
  le_clock k n hn := by
    rw [OrSet.clock_add]
    rcases (mem_addSeqs_add s element id k n).mp hn with ⟨rfl, rfl⟩ | hn
    · rw [if_pos rfl]
    have hle := hcons.le_clock k n hn
    split_ifs with hk
    · subst hk
      rw [OrSet.nextTag_seq s hwrap]
      omega
    · exact hle
  clock_mem k := by
    rw [OrSet.clock_add, mem_addSeqs_add]
    split_ifs with hk
    · exact .inr (.inl ⟨hk, rfl⟩)
    · exact (hcons.clock_mem k).imp_right .inr
  tombs_subset k := by
    rw [OrSet.adds_add]
    split_ifs with hk
    · subst hk
      exact (hcons.tombs_subset k).trans (Finset.subset_insert _ _)
    · exact hcons.tombs_subset k

theorem Consistent.remove (hcons : Consistent s) (element : Str) :
    Consistent (s.remove element) := by
  have hseqs (k : Str) : addSeqs (s.remove element) k = addSeqs s k := by
    rw [addSeqs, OrSet.adds_remove]
    rfl
  have hclock (k : Str) : (s.remove element).clock k = s.clock k := by
    rw [OrSet.clock, OrSet.clocks_remove]
    rfl
  refine ⟨fun k => ?_, fun k => ?_, fun k => ?_⟩
  · rw [hseqs, hclock]
    exact hcons.le_clock k
  · rw [hseqs, hclock]
    exact hcons.clock_mem k
  rw [OrSet.tombs_remove, OrSet.adds_remove]
  split_ifs with hk
  · subst hk
    exact Finset.union_subset (hcons.tombs_subset k) (Finset.Subset.refl _)
  · exact hcons.tombs_subset k

theorem Consistent.merge {t : OrSet} (hs : Consistent s) (ht : Consistent t) :
    Consistent (s.merge t) where
  le_clock k n hn := by
    rw [OrSet.clock_merge]
    rcases (mem_addSeqs_merge s t k n).mp hn with hn | hn
    · exact le_max_of_le_left (hs.le_clock k n hn)
    · exact le_max_of_le_right (ht.le_clock k n hn)
  clock_mem k := by
    rw [OrSet.clock_merge, mem_addSeqs_merge]
    rcases max_choice (s.clock k) (t.clock k) with h | h
    · rw [h]
      exact (hs.clock_mem k).imp_right .inl
    · rw [h]
      exact (ht.clock_mem k).imp_right .inr
  tombs_subset k := by
    rw [OrSet.tombs_merge, OrSet.adds_merge]
    exact Finset.union_subset_union (hs.tombs_subset k) (ht.tombs_subset k)

theorem Consistent.clock_eq {t : OrSet} (hs : Consistent s) (ht : Consistent t)
    (hequal : s.equal t = true) (id : Str) : s.clock id = t.clock id := by
  have hseqs : addSeqs s id = addSeqs t id := by
    have hadds := tags_eq_of_sameTagMap (Bool.and_eq_true_iff.mp hequal).1
    simp only [addSeqs, hadds]
  refine le_antisymm ?_ ?_
  · rcases hs.clock_mem id with hzero | hmem
    · exact hzero ▸ Nat.zero_le _
    · exact ht.le_clock id _ (hseqs ▸ hmem)
  rcases ht.clock_mem id with hzero | hmem
  · exact hzero ▸ Nat.zero_le _
  · exact hs.le_clock id _ (hseqs ▸ hmem)

/-! ## Whole runs -/

/-- The tag that an `Add` call has minted. -/
def Call.tag (node : ι → Str) (c : Call ι OrSet OrSetOp) : Tag :=
  c.before.nextTag (node c.caller)

/-- No `Add` of the calls runs on the largest clock. -/
def NoWrap (node : ι → Str) (calls : List (Call ι OrSet OrSetOp)) : Prop :=
  ∀ c ∈ calls, c.op.isAdd = true → c.before.clock (node c.caller) + 1 < 2 ^ 64

/-- The number of `Add` calls of a replica. -/
def addCount (i : ι) (calls : List (Call ι OrSet OrSetOp)) : ℕ :=
  calls.countP fun c => decide (c.caller = i) && c.op.isAdd

theorem addCount_concat (i : ι) (calls : List (Call ι OrSet OrSetOp)) (c : Call ι OrSet OrSetOp) :
    addCount i (calls ++ [c]) =
      addCount i calls + if c.caller = i ∧ c.op.isAdd = true then 1 else 0 := by
  simp [addCount, countP_append, countP_singleton]

variable {w : World ι OrSet OrSetOp}

theorem clock_le_addCount (hnode : Function.Injective node)
    (hw : Reachable (orSetObject node) (fun _ => newOrSet) w)
    (hs : w.Snapshot (fun _ => newOrSet) s) (i : ι) :
    s.clock (node i) ≤ addCount i w.calls := by
  refine hw.forall_snapshot (P := fun calls s => ∀ i, s.clock (node i) ≤ addCount i calls)
    (fun _ _ => Nat.zero_le _) (fun calls c s h i => ?_) (fun calls j op s h i => ?_)
    (fun calls s t h h' i => ?_) hs i
  · rw [addCount_concat]
    exact Nat.le_add_right_of_le (h i)
  · rw [addCount_concat]
    have hle := h i
    cases op with
    | remove element =>
      simp only [orSetObject, OrSet.clock, OrSet.clocks_remove]
      exact Nat.le_add_right_of_le hle
    | add element =>
      simp only [orSetObject, OrSet.clock_add]
      split
      · next hij =>
        obtain rfl := hnode hij
        have hnext := OrSet.nextTag_seq_le s (node i)
        simp only [OrSetOp.isAdd, and_self, if_true]
        omega
      · exact Nat.le_add_right_of_le hle
  · simp only [orSetObject, OrSet.clock_merge]
    exact Nat.max_le.mpr ⟨h i, h' i⟩

theorem noWrap_of_addCount (hnode : Function.Injective node)
    (hw : Reachable (orSetObject node) (fun _ => newOrSet) w)
    (hcount : ∀ i, addCount i w.calls < 2 ^ 64) : NoWrap node w.calls := by
  induction hw with
  | start => exact fun c hc => absurd hc not_mem_nil
  | @call w j op hw ih =>
    simp only [World.call, addCount_concat] at hcount
    refine forall_mem_append.mpr ⟨ih fun i => lt_of_le_of_lt (Nat.le_add_right ..) (hcount i), ?_⟩
    rintro c hc hadd
    obtain rfl := mem_singleton.mp hc
    have hle := clock_le_addCount hnode hw (hw.replica_snapshot j) j
    have hlt := hcount j
    rw [if_pos ⟨rfl, hadd⟩] at hlt
    exact lt_of_le_of_lt (Nat.add_le_add_right hle 1) hlt
  | merge _ _ _ ih => exact ih hcount

theorem consistent_of_snapshot (hw : Reachable (orSetObject node) (fun _ => newOrSet) w)
    (hwrap : NoWrap node w.calls) (hs : w.Snapshot (fun _ => newOrSet) s) : Consistent s := by
  refine hw.forall_snapshot (P := fun calls s => NoWrap node calls → Consistent s)
    (fun _ _ => consistent_new) (fun _ _ _ h hwrap => h fun c hc => hwrap c (mem_append_left _ hc))
    (fun calls i op s h hwrap => ?_) (fun _ _ _ h h' hwrap => (h hwrap).merge (h' hwrap)) hs hwrap
  have hs := h fun c hc => hwrap c (mem_append_left _ hc)
  cases op with
  | add element => exact hs.add element (hwrap _ (mem_append_right _ (mem_singleton_self _)) rfl)
  | remove element => exact hs.remove element

theorem observed_of_mem_tombs (hw : Reachable (orSetObject node) (fun _ => newOrSet) w)
    (hs : w.Snapshot (fun _ => newOrSet) s) {element : Str} {t : Tag}
    (ht : t ∈ s.tombs.tags element) :
    ∃ r ∈ w.calls, r.op = .remove element ∧ t ∈ r.before.adds.tags element := by
  revert element t
  refine hw.forall_snapshot (P := fun calls s => ∀ {element t}, t ∈ s.tombs.tags element →
    ∃ r ∈ calls, r.op = .remove element ∧ t ∈ r.before.adds.tags element)
    (fun _ _ _ ht => absurd ht (Finset.notMem_empty _)) (fun calls c s h element t ht => ?_)
    (fun calls i op s h element t ht => ?_) (fun calls s s' h h' element t ht => ?_) hs
  · obtain ⟨r, hr, hop, hadd⟩ := h ht
    exact ⟨r, mem_append_left _ hr, hop, hadd⟩
  · have hold (ht : t ∈ s.tombs.tags element) : ∃ r ∈ calls ++ [⟨i, op, s⟩],
        r.op = .remove element ∧ t ∈ r.before.adds.tags element := by
      obtain ⟨r, hr, hop, hadd⟩ := h ht
      exact ⟨r, mem_append_left _ hr, hop, hadd⟩
    cases op with
    | add el => exact hold ht
    | remove el =>
      simp only [orSetObject, OrSet.tombs_remove] at ht
      split_ifs at ht with hel
      · subst hel
        rcases Finset.mem_union.mp ht with ht | ht
        · exact hold ht
        · exact ⟨_, mem_append_right _ (mem_singleton_self _), rfl, ht⟩
      · exact hold ht
  · simp only [orSetObject, OrSet.tombs_merge] at ht
    rcases Finset.mem_union.mp ht with ht | ht
    · exact h ht
    · exact h' ht

theorem tags_fresh (hnode : Function.Injective node)
    (hw : Reachable (orSetObject node) (fun _ => newOrSet) w) (hwrap : NoWrap node w.calls) :
    w.calls.Pairwise fun c d => ∀ e e', c.op = .add e → d.op = .add e' →
      Call.tag node c ≠ Call.tag node d := by
  -- the replica keeps every tag it has minted, and the next one lies above all it holds
  have hordered := (hw.calls_ordered (R := fun c s => ∀ e, c.op = .add e →
    Call.tag node c ∈ s.adds.tags e) ?_ ?_ ?_).2
  · refine hordered.imp_of_mem fun {c d} _ hd hcd e e' hc hadd htag => ?_
    obtain ⟨hid, -⟩ := Tag.mk.inj htag
    have hheld := hcd (hnode hid) e hc
    rw [htag] at hheld
    have hcons := consistent_of_snapshot hw hwrap (hw.call_snapshot hd)
    have hle := hcons.le_clock _ _ ⟨e, _, hheld, rfl⟩
    have hnext := OrSet.nextTag_seq d.before (hwrap d hd (by rw [hadd]; rfl))
    exact absurd hnext (Nat.ne_of_lt (Nat.lt_succ_of_le hle))
  · rintro i op s e rfl
    simp [orSetObject, OrSet.adds_add, Call.tag]
  · intro c op s h e hc
    cases op with
    | add el =>
      simp only [orSetObject, OrSet.adds_add]
      split
      · next hel => exact Finset.mem_insert_of_mem (hel ▸ h e hc)
      · exact h e hc
    | remove el =>
      simpa only [orSetObject, OrSet.adds_remove] using h e hc
  intro c s t h e hc
  simp only [orSetObject, OrSet.adds_merge]
  exact Finset.mem_union_left _ (h e hc)

/-- A tag that a `Remove` had not observed stays live when the result is merged. -/
theorem contains_merge_remove {r x : OrSet} (hr : Consistent r) {element : Str} {t : Tag}
    (hunobserved : t ∉ r.adds.tags element) (hadd : t ∈ x.adds.tags element)
    (hlive : t ∉ x.tombs.tags element) : (x.merge (r.remove element)).contains element = true ∧
      ((r.remove element).merge x).contains element = true := by
  have htomb : t ∉ r.tombs.tags element := fun h => hunobserved (hr.tombs_subset element h)
  simp only [OrSet.contains_iff, OrSet.adds_merge, OrSet.tombs_merge, OrSet.adds_remove,
    OrSet.tombs_remove, if_true]
  exact ⟨⟨t, by simp [hadd], by simp [hlive, htomb, hunobserved]⟩,
    ⟨t, by simp [hadd], by simp [hlive, htomb, hunobserved]⟩⟩

/-- Tags are fresh, clocks are the greatest numbers, tombstones are add-tags, and an `Add` that no
`Remove` had observed wins. -/
theorem fresh_tags_add_wins (hnode : Function.Injective node)
    (hw : Reachable (orSetObject node) (fun _ => newOrSet) w)
    (hcount : ∀ i, addCount i w.calls < 2 ^ 64) :
    (w.calls.Pairwise fun c d => ∀ e e', c.op = .add e → d.op = .add e' →
      Call.tag node c ≠ Call.tag node d) ∧ (∀ s, w.Snapshot (fun _ => newOrSet) s →
      (∀ id, (addSeqs s id = ∅ ∧ s.clock id = 0) ∨ IsGreatest (addSeqs s id) (s.clock id)) ∧
      ∀ element, s.tombs.tags element ⊆ s.adds.tags element) ∧
    (∀ s t, w.Snapshot (fun _ => newOrSet) s → w.Snapshot (fun _ => newOrSet) t →
      s.equal t = true → ∀ id, s.clock id = t.clock id) ∧
    (∀ a ∈ w.calls, ∀ r ∈ w.calls, ∀ element, a.op = .add element → r.op = .remove element →
      Call.tag node a ∉ r.before.adds.tags element →
      ∀ x, Call.tag node a ∈ x.adds.tags element → Call.tag node a ∉ x.tombs.tags element →
        (x.merge (r.before.remove element)).contains element = true ∧
          ((r.before.remove element).merge x).contains element = true) ∧
    ∀ a ∈ w.calls, ∀ element, a.op = .add element → (∀ r ∈ w.calls, r.op = .remove element →
        Call.tag node a ∉ r.before.adds.tags element) →
      ∀ s, w.Snapshot (fun _ => newOrSet) s → Call.tag node a ∈ s.adds.tags element →
        s.contains element = true := by
  have hwrap := noWrap_of_addCount hnode hw hcount
  have hconsistent {s : OrSet} := consistent_of_snapshot (s := s) hw hwrap
  refine ⟨tags_fresh hnode hw hwrap, fun s hs => ?_, fun s t hs ht hequal id => ?_, ?_, ?_⟩
  · exact ⟨(hconsistent hs).clock_greatest, (hconsistent hs).tombs_subset⟩
  · exact (hconsistent hs).clock_eq (hconsistent ht) hequal id
  · intro a _ r hr element _ _ hunobserved x hadd hlive
    exact contains_merge_remove (hconsistent (hw.call_snapshot hr)) hunobserved hadd hlive
  intro a _ element _ hunobserved s hs hadd
  refine (OrSet.contains_iff s element).mpr ⟨_, hadd, fun htomb => ?_⟩
  obtain ⟨r, hr, hop, hobserved⟩ := observed_of_mem_tombs hw hs htomb
  exact hunobserved r hr hop hobserved

/-- `a` adds `x`, `b` merges it and removes it. -/
def removedElsewhere : World Site OrSet OrSetOp :=
  let added := (World.start fun _ => newOrSet).call (orSetObject twoNames) .a (.add [120])
  (added.mergeState (orSetObject twoNames) .b (added.replica .a)).call (orSetObject twoNames) .b
    (.remove [120])

/-- `a` then adds `x` again and merges the state of `b`. -/
def reAddedAfterRemove : World Site OrSet OrSetOp :=
  (removedElsewhere.call (orSetObject twoNames) .a (.add [120])).mergeState (orSetObject twoNames)
    .a (removedElsewhere.replica .b)

/-- The `Remove` had not observed the second tag, so `x` is present after merging. -/
theorem reAddedAfterRemove_contains : (reAddedAfterRemove.replica .a).contains [120] = true := by
  have hadded : Reachable (orSetObject twoNames) (fun _ => newOrSet)
      ((World.start fun _ => newOrSet).call (orSetObject twoNames) .a (.add [120])) :=
    .call Site.a _ .start
  have hremoved : Reachable (orSetObject twoNames) (fun _ => newOrSet) removedElsewhere :=
    .call Site.b _ (.merge Site.b hadded (hadded.replica_snapshot .a))
  have hw : Reachable (orSetObject twoNames) (fun _ => newOrSet) reAddedAfterRemove :=
    .merge Site.a (.call Site.a _ hremoved) ((hremoved.replica_snapshot .b).imp_right
      fun h => mem_append_left _ h)
  have hcount : ∀ i, addCount i reAddedAfterRemove.calls < 2 ^ 64 := by
    intro i
    cases i <;> decide
  refine (fresh_tags_add_wins twoNames_injective hw hcount).2.2.2.2
    ⟨.a, .add [120], removedElsewhere.replica .a⟩ ?_ [120] rfl ?_ _ (hw.replica_snapshot .a)
    (by decide)
  · exact mem_append_right _ (mem_singleton_self _)
  intro r hr hop
  simp only [reAddedAfterRemove, World.mergeState, World.call, removedElsewhere, World.start,
    nil_append, cons_append, mem_cons, not_mem_nil, or_false] at hr
  rcases hr with rfl | rfl | rfl
  · cases hop
  · decide
  · cases hop

end HelixCluster.Crdt
