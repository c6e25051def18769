import HelixCluster.DeltaCrdt.OrSet
import HelixCluster.Pair

/-!
# Observed-remove semantics under any delivery

A replica of an `ORSet` is, element by element, the union of the tags in the deltas it has applied
(`orSet_simulation`).
-/

namespace HelixCluster.DeltaCrdt

open List DeltaNetwork

/-- The calls of a replica. -/
inductive OrSetOp where
  | add (elem : Str)
  | remove (elem : Str)
  deriving DecidableEq

/-- The call is an `Add`. -/
def OrSetOp.isAdd : OrSetOp → Bool
  | add _ => true
  | remove _ => false

/-- The set as a replicated object. -/
def orSetObject (sha256 : Str → Str) (isPrintWide : Char → Bool) :
    DeltaObject OrSet OrSetOp OrSetDelta where
  mutate
    | .add elem, o => o.add sha256 isPrintWide elem
    | .remove elem, o => o.remove elem
  merge := OrSet.merge
  full _ := false

/-! ## Tags -/

/-- The number of `Add` calls of a replica in a log. -/
def addCount {ι : Type} [DecidableEq ι] (i : ι) (log : List (Emission ι OrSetOp OrSetDelta)) : Nat :=
  log.countP fun e => decide (e.source = i) && e.op.isAdd

theorem addCount_concat {ι : Type} [DecidableEq ι] (i : ι)
    (log : List (Emission ι OrSetOp OrSetDelta)) (e : Emission ι OrSetOp OrSetDelta) :
    addCount i (log ++ [e]) = addCount i log + if e.source = i ∧ e.op.isAdd then 1 else 0 := by
  simp [addCount, countP_append, countP_singleton]

section Runs

variable {sha256 : Str → Str} {isPrintWide : Char → Bool} {ι : Type} [DecidableEq ι]
  {node : ι → Str} {w : World ι OrSet OrSetOp OrSetDelta}

theorem orSet_simulation :
    Simulation (orSetObject sha256 isPrintWide) (fun i => newOrSet (node i)) (fun _ _ => True)
      (fun o k => ((o.stateFor k).adds, (o.stateFor k).removes))
      (fun d k => (d.addedTags k, d.removedTags k)) where
  start _ := rfl
  issue {w} _ i op _ := by
    funext k
    cases op with
    | add elem =>
      simp only [orSetObject, OrSet.stateFor_add, OrSet.addedTags_add, OrSet.removedTags_add,
        Pi.sup_apply, Prod.mk_sup_mk]
      split
      · next hk => simp [hk]
      · simp
    | remove elem =>
      simp only [orSetObject, OrSet.stateFor_remove, OrSet.addedTags_remove,
        OrSet.removedTags_remove, Pi.sup_apply, Prod.mk_sup_mk]
      split
      · next hk => simp [hk]
      · simp
  deliver {w} _ i e _ := by
    funext k
    simp [orSetObject, OrSet.stateFor_merge]
  full _ _ h := nomatch h

variable (hw : Reachable (orSetObject sha256 isPrintWide) (fun i => newOrSet (node i))
  (fun _ _ => True) w)

include hw

variable {k : Str} {t : Tag}

variable {i : ι}

theorem mem_adds_iff : t ∈ ((w.replica i).stateFor k).adds ↔
      ∃ n ∈ w.applied i, ∃ e, w.log[n]? = some e ∧ t ∈ e.delta.addedTags k := by
  refine orSet_simulation.mem_replica_iff hw (fun a => (a k).1) rfl (fun a b t => ?_) i t
  simp

variable {e : Emission ι OrSetOp OrSetDelta}

variable {n : ℕ}

omit hw in
/-- The tag of an element is covered by a `Remove` that the replica has applied. -/
def Covered (w : World ι OrSet OrSetOp OrSetDelta) (i : ι) (k : Str) (t : Tag) : Prop :=
  ∃ m ∈ w.applied i, ∃ r, w.log[m]? = some r ∧ r.op = .remove k ∧ t ∈ r.delta.removedTags k

variable {a : Emission ι OrSetOp OrSetDelta}

end Runs

/-! ## A concurrent re-add -/

end HelixCluster.DeltaCrdt
