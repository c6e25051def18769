import Mathlib

/-!
# Networks of delta-state replicas

An operation on a replica emits a delta, and any replica may merge any delta at any time, any number
of times, or never.
-/

namespace HelixCluster

/-- A replicated object. The operations that are `full` emit their state and leave it alone. -/
structure DeltaObject (σ Op δ : Type) where
  mutate : Op → σ → σ × δ
  merge : σ → δ → σ
  full : Op → Bool

namespace DeltaNetwork

variable {ι σ Op δ A : Type} [DecidableEq ι]

/-- A delta with its replica, its operation, what its source had taken in, and what it carries. -/
structure Emission (ι Op δ : Type) where
  source : ι
  op : Op
  delta : δ
  seen : Finset ℕ
  covers : Finset ℕ

/-- The replicas, the emissions so far, and what each replica has taken in. -/
structure World (ι σ Op δ : Type) where
  replica : ι → σ
  log : List (Emission ι Op δ)
  applied : ι → Finset ℕ

namespace World

/-- The world before the first operation. -/
def start (init : ι → σ) : World ι σ Op δ where
  replica := init
  log := []
  applied := fun _ => ∅

/-- The emission of an operation at a replica. -/
def emission (obj : DeltaObject σ Op δ) (w : World ι σ Op δ) (i : ι) (op : Op) :
    Emission ι Op δ where
  source := i
  op := op
  delta := (obj.mutate op (w.replica i)).2
  seen := w.applied i
  covers := insert w.log.length (if obj.full op then w.applied i else ∅)

/-- An operation at a replica. -/
def issue (obj : DeltaObject σ Op δ) (w : World ι σ Op δ) (i : ι) (op : Op) :
    World ι σ Op δ where
  replica := Function.update w.replica i (obj.mutate op (w.replica i)).1
  log := w.log ++ [w.emission obj i op]
  applied := Function.update w.applied i (insert w.log.length (w.applied i))

/-- The delivery of an emission to a replica. -/
def deliver (obj : DeltaObject σ Op δ) (w : World ι σ Op δ) (i : ι) (e : Emission ι Op δ) :
    World ι σ Op δ where
  replica := Function.update w.replica i (obj.merge (w.replica i) e.delta)
  log := w.log
  applied := Function.update w.applied i (w.applied i ∪ e.covers)

section Fields

variable (obj : DeltaObject σ Op δ) (w : World ι σ Op δ) {i j : ι} (op : Op) (e : Emission ι Op δ)

@[simp] theorem issue_log : (w.issue obj i op).log = w.log ++ [w.emission obj i op] := rfl

@[simp] theorem issue_replica_self :
    (w.issue obj i op).replica i = (obj.mutate op (w.replica i)).1 := Function.update_self ..

theorem issue_replica_ne (h : j ≠ i) : (w.issue obj i op).replica j = w.replica j :=
  Function.update_of_ne h ..

@[simp] theorem issue_applied_self :
    (w.issue obj i op).applied i = insert w.log.length (w.applied i) := Function.update_self ..

theorem issue_applied_ne (h : j ≠ i) : (w.issue obj i op).applied j = w.applied j :=
  Function.update_of_ne h ..

@[simp] theorem deliver_replica_self :
    (w.deliver obj i e).replica i = obj.merge (w.replica i) e.delta := Function.update_self ..

theorem deliver_replica_ne (h : j ≠ i) : (w.deliver obj i e).replica j = w.replica j :=
  Function.update_of_ne h ..

@[simp] theorem deliver_applied_self :
    (w.deliver obj i e).applied i = w.applied i ∪ e.covers := Function.update_self ..

theorem deliver_applied_ne (h : j ≠ i) : (w.deliver obj i e).applied j = w.applied j :=
  Function.update_of_ne h ..

end Fields

/-- The deltas that a replica has taken in. -/
def deltas (w : World ι σ Op δ) (i : ι) : Set δ :=
  {d | ∃ n ∈ w.applied i, ∃ e, w.log[n]? = some e ∧ e.delta = d}

/-- What the emission with this number contributes to a join. -/
def contribution [SemilatticeSup A] [OrderBot A] (absδ : δ → A) (w : World ι σ Op δ) (n : ℕ) : A :=
  w.log[n]?.elim ⊥ fun e => absδ e.delta

end World

/-- The worlds reached by allowed operations and by deliveries of emitted deltas. -/
inductive Reachable (obj : DeltaObject σ Op δ) (init : ι → σ) (allowed : Op → σ → Prop) :
    World ι σ Op δ → Prop where
  | start : Reachable obj init allowed (World.start init)
  | issue {w : World ι σ Op δ} (i : ι) (op : Op) : Reachable obj init allowed w →
      allowed op (w.replica i) → Reachable obj init allowed (w.issue obj i op)
  | deliver {w : World ι σ Op δ} (i : ι) {e : Emission ι Op δ} : Reachable obj init allowed w →
      e ∈ w.log → Reachable obj init allowed (w.deliver obj i e)

variable {e : Emission ι Op δ} {n : ℕ}

section Bookkeeping

variable {obj : DeltaObject σ Op δ} {init : ι → σ} {allowed : Op → σ → Prop} {w : World ι σ Op δ}

section

variable (hw : Reachable obj init allowed w)

include hw

theorem Reachable.bounded : (∀ i, ∀ n ∈ w.applied i, n < w.log.length) ∧
      ∀ e ∈ w.log, ∀ n ∈ e.covers, n < w.log.length := by
  induction hw with
  | start => exact ⟨by simp [World.start], by simp [World.start]⟩
  | @issue w i op _ _ ih =>
    obtain ⟨happlied, hcovers⟩ := ih
    rw [World.issue_log, List.length_append, List.length_singleton]
    refine ⟨fun j n hn => ?_, fun e he n hn => ?_⟩
    · rcases eq_or_ne j i with rfl | hj
      · rcases Finset.mem_insert.mp (w.issue_applied_self obj op ▸ hn) with rfl | hn
        · exact Nat.lt_succ_self _
        · exact Nat.lt_succ_of_lt (happlied j n hn)
      · rw [w.issue_applied_ne obj op hj] at hn
        exact Nat.lt_succ_of_lt (happlied j n hn)
    rcases List.mem_append.mp he with he | he
    · exact Nat.lt_succ_of_lt (hcovers e he n hn)
    · obtain rfl := List.mem_singleton.mp he
      rcases Finset.mem_insert.mp hn with rfl | hn
      · exact Nat.lt_succ_self _
      split at hn
      · exact Nat.lt_succ_of_lt (happlied i n hn)
      · simp at hn
  | @deliver w i e _ he ih =>
    obtain ⟨happlied, hcovers⟩ := ih
    refine ⟨fun j n hn => ?_, hcovers⟩
    rcases eq_or_ne j i with rfl | hj
    · rw [World.deliver_applied_self, Finset.mem_union] at hn
      exact hn.elim (happlied j n) (hcovers e he n)
    · rw [w.deliver_applied_ne obj e hj] at hn
      exact happlied j n hn

theorem Reachable.exists_emission {i : ι}
    (hn : n ∈ w.applied i) : ∃ e, w.log[n]? = some e :=
  ⟨_, List.getElem?_eq_getElem (hw.bounded.1 i n hn)⟩

theorem Reachable.origin (he : w.log[n]? = some e) :
    ∃ w', Reachable obj init allowed w' ∧ w'.log = w.log.take n ∧
      allowed e.op (w'.replica e.source) ∧
      e.delta = (obj.mutate e.op (w'.replica e.source)).2 ∧ e.seen = w'.applied e.source := by
  induction hw with
  | start => simp [World.start] at he
  | @issue w i op hw hallowed ih =>
    rw [World.issue_log] at he ⊢
    rcases Nat.lt_trichotomy n w.log.length with hlt | rfl | hgt
    · rw [List.getElem?_append_left hlt] at he
      rw [List.take_append_of_le_length hlt.le]
      exact ih he
    · obtain rfl : w.emission obj i op = e := by simpa using he
      exact ⟨w, hw, by simp, hallowed, rfl, rfl⟩
    · rw [List.getElem?_eq_none (by simp; omega)] at he
      exact nomatch he
  | deliver _ _ _ ih => exact ih he

end

end Bookkeeping

/-! ## Replicas as joins -/

section Joins

variable [SemilatticeSup A] [OrderBot A] (obj : DeltaObject σ Op δ) (init : ι → σ)
  (allowed : Op → σ → Prop)

/-- States and deltas as elements of a semilattice, where operations and merges join the delta. -/
structure Simulation (abs : σ → A) (absδ : δ → A) : Prop where
  start : ∀ i, abs (init i) = ⊥
  issue : ∀ {w : World ι σ Op δ}, Reachable obj init allowed w → ∀ i op,
    allowed op (w.replica i) → abs (obj.mutate op (w.replica i)).1 =
      abs (w.replica i) ⊔ absδ (obj.mutate op (w.replica i)).2
  deliver : ∀ {w : World ι σ Op δ}, Reachable obj init allowed w → ∀ i, ∀ e ∈ w.log,
    abs (obj.merge (w.replica i) e.delta) = abs (w.replica i) ⊔ absδ e.delta
  full : ∀ op s, obj.full op = true → absδ (obj.mutate op s).2 = abs s

variable {obj init allowed} {abs : σ → A} {absδ : δ → A} {w : World ι σ Op δ}

omit [DecidableEq ι] in
theorem contribution_eq (he : w.log[n]? = some e) :
    w.contribution absδ n = absδ e.delta := by
  rw [World.contribution, he]
  rfl

theorem sup_contribution_issue (i : ι) (op : Op) {s : Finset ℕ} (hs : ∀ n ∈ s, n < w.log.length) :
    s.sup ((w.issue obj i op).contribution absδ) = s.sup (w.contribution absδ) := by
  refine Finset.sup_congr rfl fun n hn => ?_
  simp only [World.contribution, World.issue, List.getElem?_append_left (hs n hn)]

theorem contribution_issue (i : ι) (op : Op) : (w.issue obj i op).contribution absδ w.log.length =
      absδ (obj.mutate op (w.replica i)).2 := by
  simp [World.contribution, World.issue, World.emission]

section

variable (hsim : Simulation obj init allowed abs absδ) (hw : Reachable obj init allowed w)

include hsim hw

theorem Simulation.joins : (∀ i, abs (w.replica i) = (w.applied i).sup (w.contribution absδ)) ∧
      ∀ e ∈ w.log, absδ e.delta = e.covers.sup (w.contribution absδ) := by
  induction hw with
  | start => exact ⟨hsim.start, by simp [World.start]⟩
  | @issue w i op hw hallowed ih =>
    obtain ⟨hreplica, hlog⟩ := ih
    obtain ⟨happlied, hcovers⟩ := hw.bounded
    refine ⟨fun j => ?_, fun e he => ?_⟩
    · rcases eq_or_ne j i with rfl | hj
      · rw [World.issue_replica_self, World.issue_applied_self, Finset.sup_insert,
          contribution_issue, sup_contribution_issue j op (happlied j), ← hreplica, sup_comm]
        exact hsim.issue hw j op hallowed
      · rw [w.issue_replica_ne obj op hj, w.issue_applied_ne obj op hj,
          sup_contribution_issue i op (happlied j)]
        exact hreplica j
    rcases List.mem_append.mp he with he | he
    · rw [sup_contribution_issue i op (hcovers e he)]
      exact hlog e he
    · obtain rfl := List.mem_singleton.mp he
      simp only [World.emission, Finset.sup_insert, contribution_issue]
      split_ifs with hfull
      · rw [sup_contribution_issue i op (happlied i), ← hreplica, hsim.full _ _ hfull, sup_idem]
      · simp
  | @deliver w i e hw he ih =>
    obtain ⟨hreplica, hlog⟩ := ih
    refine ⟨fun j => ?_, hlog⟩
    rcases eq_or_ne j i with rfl | hj
    · rw [World.deliver_replica_self, World.deliver_applied_self, Finset.sup_union,
        hsim.deliver hw j e he, hreplica, hlog e he]
      rfl
    · rw [w.deliver_replica_ne obj e hj, w.deliver_applied_ne obj e hj]
      exact hreplica j

theorem Simulation.abs_replica (i : ι) :
    abs (w.replica i) = (w.applied i).sup (w.contribution absδ) :=
  (hsim.joins hw).1 i

theorem Simulation.mem_replica_iff {T : Type} (part : A → Finset T) (hbot : part ⊥ = ∅)
    (hsup : ∀ a b t, t ∈ part (a ⊔ b) ↔ t ∈ part a ∨ t ∈ part b) (i : ι) (t : T) :
    t ∈ part (abs (w.replica i)) ↔
      ∃ n ∈ w.applied i, ∃ e, w.log[n]? = some e ∧ t ∈ part (absδ e.delta) := by
  have hmem (s : Finset ℕ) :
      t ∈ part (s.sup (w.contribution absδ)) ↔ ∃ n ∈ s, t ∈ part (w.contribution absδ n) := by
    induction s using Finset.induction_on with
    | empty => simp [hbot]
    | insert n s _ ih => simp [Finset.sup_insert, hsup, ih]
  rw [hsim.abs_replica hw, hmem]
  refine exists_congr fun n => and_congr_right fun hn => ?_
  obtain ⟨e, he⟩ := hw.exists_emission hn
  simp [contribution_eq he, he]

theorem Simulation.abs_le_of_deltas_subset {i j : ι} (hsubset : w.deltas i ⊆ w.deltas j) :
    abs (w.replica i) ≤ abs (w.replica j) := by
  rw [hsim.abs_replica hw, hsim.abs_replica hw]
  refine Finset.sup_le fun n hn => ?_
  obtain ⟨e, he⟩ := hw.exists_emission hn
  obtain ⟨m, hm, e', he', hdelta⟩ := hsubset ⟨n, hn, e, he, rfl⟩
  have hle := Finset.le_sup (f := w.contribution absδ) hm
  rw [contribution_eq he', hdelta] at hle
  rwa [contribution_eq he]

theorem Simulation.converges {i j : ι} (hsame : w.deltas i = w.deltas j) :
    abs (w.replica i) = abs (w.replica j) :=
  le_antisymm (hsim.abs_le_of_deltas_subset hw hsame.subset)
    (hsim.abs_le_of_deltas_subset hw hsame.superset)

end

end Joins

end DeltaNetwork

end HelixCluster
