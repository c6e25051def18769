import HelixCluster.Lib.StateNetwork

/-!
# The operations that a state has incorporated

A state carries the operations of its own replica and those of the states that were merged into it,
which take no part in what the replicas do.
-/

namespace HelixCluster.StateNetwork

open List

variable {ι σ Op : Type} [DecidableEq ι]

/-- The identity of an operation: the replica, and a number that no other operation of it has. -/
structure OpId (ι : Type) where
  replica : ι
  number : ℕ
  deriving DecidableEq

/-- A state with the operations that it has incorporated. -/
structure Traced (ι σ : Type) where
  state : σ
  ops : Finset (OpId ι)

/-- The next operation of a replica, above those that it has incorporated. -/
def Traced.nextId (s : Traced ι σ) (i : ι) : OpId ι := ⟨i, s.ops.sup fun e => e.number + 1⟩

/-- The object with the operations that its states have incorporated. -/
def traced (obj : StateObject ι σ Op) : StateObject ι (Traced ι σ) Op where
  apply i op s := ⟨obj.apply i op s.state, insert (s.nextId i) s.ops⟩
  merge s t := ⟨obj.merge s.state t.state, s.ops ∪ t.ops⟩

/-- Initially nothing is incorporated. -/
def untouched (init : ι → σ) (i : ι) : Traced ι σ := ⟨init i, ∅⟩

/-- The operation of a call. -/
def Call.id (c : Call ι (Traced ι σ) Op) : OpId ι := c.before.nextId c.caller

omit [DecidableEq ι] in
theorem Traced.nextId_notMem (s : Traced ι σ) (i : ι) : s.nextId i ∉ s.ops := by
  intro hmem
  have hle := Finset.le_sup (f := fun e : OpId ι => e.number + 1) hmem
  exact absurd hle (Nat.not_succ_le_self _)

variable {obj : StateObject ι σ Op} {init : ι → σ} {w : World ι (Traced ι σ) Op}

namespace Reachable

variable (hw : Reachable (traced obj) (untouched init) w)
include hw

theorem own_ops : (∀ c ∈ w.calls, c.id ∈ (w.replica c.caller).ops) ∧
      w.calls.Pairwise fun c d => c.caller = d.caller → c.id ∈ d.before.ops :=
  hw.calls_ordered (R := fun c s => c.id ∈ s.ops) (fun _ _ _ => Finset.mem_insert_self ..)
    (fun _ _ _ h => Finset.mem_insert_of_mem h) (fun _ _ _ h => Finset.mem_union_left _ h)

variable {s : Traced ι σ}

theorem exists_call (hs : w.Snapshot (untouched init) s) {e : OpId ι} (he : e ∈ s.ops) :
    ∃ c ∈ w.calls, c.id = e := by
  revert e
  refine hw.forall_snapshot (P := fun calls s => ∀ {e}, e ∈ s.ops → ∃ c ∈ calls, c.id = e)
    (fun _ _ he => absurd he (Finset.notMem_empty _)) (fun calls d s h e he => ?_)
    (fun calls i op s h e he => ?_) (fun calls s t h h' e he => ?_) hs
  · obtain ⟨c, hc, hid⟩ := h he
    exact ⟨c, mem_append_left _ hc, hid⟩
  · rcases Finset.mem_insert.mp he with rfl | he
    · exact ⟨_, mem_append_right _ (mem_singleton_self _), rfl⟩
    · obtain ⟨c, hc, hid⟩ := h he
      exact ⟨c, mem_append_left _ hc, hid⟩
  · exact (Finset.mem_union.mp he).elim h h'

theorem nextId_fresh (i : ι) (hs : w.Snapshot (untouched init) s) :
    (w.replica i).nextId i ∉ s.ops := by
  intro hmem
  obtain ⟨c, hc, hid⟩ := hw.exists_call hs hmem
  have hcaller : c.caller = i := congrArg OpId.replica hid
  have hown := hw.own_ops.1 c hc
  rw [hid, hcaller] at hown
  exact (w.replica i).nextId_notMem i hown

theorem ids_distinct : w.calls.Pairwise fun c d => c.id ≠ d.id := by
  refine hw.own_ops.2.imp fun {c d} hbefore hid => ?_
  have hmem := hbefore (congrArg OpId.replica hid)
  rw [hid] at hmem
  exact d.before.nextId_notMem d.caller hmem

theorem forall_incorporated {Q : Call ι (Traced ι σ) Op → σ → Prop}
    (hcall : ∀ i op s, Q ⟨i, op, s⟩ (obj.apply i op s.state))
    (hkeep : ∀ c i op s, Q c s → Q c (obj.apply i op s))
    (hleft : ∀ c s t, Q c s → Q c (obj.merge s t)) (hright : ∀ c s t, Q c t → Q c (obj.merge s t))
    {c : Call ι (Traced ι σ) Op} (hc : c ∈ w.calls) (hs : w.Snapshot (untouched init) s)
    (hid : c.id ∈ s.ops) : Q c s.state := by
  induction hw generalizing c s with
  | start => exact absurd hc not_mem_nil
  | @call w i op hw ih =>
    have hnew : (w.replica i).nextId i ∉ (w.replica i).ops := (w.replica i).nextId_notMem i
    -- an old state has only old operations, and the new one has the new operation as well
    have hold {s : Traced ι σ} (hs : w.Snapshot (untouched init) s) (hid : c.id ∈ s.ops) : Q c s.state := by
      rcases mem_append.mp hc with hc | hc
      · exact ih hc hs hid
      · obtain rfl := mem_singleton.mp hc
        exact absurd hid (hw.nextId_fresh i hs)
    rcases hs with hs | hs
    · exact hold (.inl hs) hid
    rcases mem_append.mp hs with hs | hs
    · exact hold (.inr hs) hid
    obtain rfl := mem_singleton.mp hs
    rcases mem_append.mp hc with hc | hc
    · rcases Finset.mem_insert.mp hid with hid | hid
      · have hcaller : c.caller = i := congrArg OpId.replica hid
        have hown := hw.own_ops.1 c hc
        rw [hid, hcaller] at hown
        exact absurd hown hnew
      · exact hkeep c i op _ (ih hc (hw.replica_snapshot i) hid)
    · obtain rfl := mem_singleton.mp hc
      exact hcall i op _
  | @merge w i t hw ht ih =>
    rcases hs with hs | hs
    · exact ih hc (.inl hs) hid
    rcases mem_append.mp hs with hs | hs
    · exact ih hc (.inr hs) hid
    obtain rfl := mem_singleton.mp hs
    rcases Finset.mem_union.mp hid with hid | hid
    · exact hleft c _ _ (ih hc (hw.replica_snapshot i) hid)
    · exact hright c _ _ (ih hc ht hid)

end Reachable

/-- There are no facts initially, a call gains some, and a merge is a union. -/
structure Gains {T : Type} (obj : StateObject ι σ Op) (init : ι → σ) (facts : σ → Set T)
    (gain : ι → Op → σ → Set T) : Prop where
  start : ∀ i, facts (init i) = ∅
  apply : ∀ i op s, facts (obj.apply i op s) = facts s ∪ gain i op s
  merge : ∀ s t, facts (obj.merge s t) = facts s ∪ facts t

namespace Gains

variable {T : Type} {facts : σ → Set T} {gain : ι → Op → σ → Set T}
  (hgains : Gains obj init facts gain) (hw : Reachable (traced obj) (untouched init) w)
include hgains hw

theorem mem_iff {s : Traced ι σ} (hs : w.Snapshot (untouched init) s) {x : T} :
    x ∈ facts s.state ↔ ∃ c ∈ w.calls, c.id ∈ s.ops ∧ x ∈ gain c.caller c.op c.before.state := by
  constructor
  · refine hw.forall_snapshot (P := fun calls s => x ∈ facts s.state →
      ∃ c ∈ calls, c.id ∈ s.ops ∧ x ∈ gain c.caller c.op c.before.state)
      (fun i hx => ?_) (fun calls d s h hx => ?_) (fun calls i op s h hx => ?_)
      (fun calls s t h h' hx => ?_) hs
    · have hnone : x ∈ (∅ : Set T) := hgains.start i ▸ hx
      exact absurd hnone (Set.notMem_empty x)
    · obtain ⟨c, hc, hid, hgain⟩ := h hx
      exact ⟨c, mem_append_left _ hc, hid, hgain⟩
    · have hunion : x ∈ facts s.state ∪ gain i op s.state := hgains.apply i op s.state ▸ hx
      rcases hunion with hx | hx
      · obtain ⟨c, hc, hid, hgain⟩ := h hx
        exact ⟨c, mem_append_left _ hc, Finset.mem_insert_of_mem hid, hgain⟩
      · exact ⟨⟨i, op, s⟩, mem_append_right _ (mem_singleton_self _), Finset.mem_insert_self .., hx⟩
    · have hunion : x ∈ facts s.state ∪ facts t.state := hgains.merge s.state t.state ▸ hx
      rcases hunion with hx | hx
      · obtain ⟨c, hc, hid, hgain⟩ := h hx
        exact ⟨c, hc, Finset.mem_union_left _ hid, hgain⟩
      · obtain ⟨c, hc, hid, hgain⟩ := h' hx
        exact ⟨c, hc, Finset.mem_union_right _ hid, hgain⟩
  · rintro ⟨c, hc, hid, hgain⟩
    have hsubset : gain c.caller c.op c.before.state ⊆ facts s.state := by
      refine hw.forall_incorporated
        (Q := fun c s => gain c.caller c.op c.before.state ⊆ facts s) ?_ ?_ ?_ ?_ hc hs hid
      · intro i op s
        rw [hgains.apply]
        exact Set.subset_union_right
      · intro c i op s h
        rw [hgains.apply]
        exact h.trans Set.subset_union_left
      · intro c s t h
        rw [hgains.merge]
        exact h.trans Set.subset_union_left
      intro c s t h
      rw [hgains.merge]
      exact h.trans Set.subset_union_right
    exact hsubset hgain

theorem facts_eq {s t : Traced ι σ} (hs : w.Snapshot (untouched init) s)
    (ht : w.Snapshot (untouched init) t) (hops : s.ops = t.ops) : facts s.state = facts t.state := by
  ext x
  rw [hgains.mem_iff hw hs, hgains.mem_iff hw ht, hops]

end Gains

end HelixCluster.StateNetwork
