import HelixCluster.Lib.Runs
import HelixCluster.Omega.Effects

/-!
# Optimistic commits

A client reads the version and later makes a call that expects it. It sees the state of the read, if
nobody changes the set of nodes or evicts in vain in between (`optimistic_commit_sees_same_state`).
-/

namespace HelixCluster.Omega

open Scheduler

variable {C : Type}

/-- The nodes with their available resources, and the placements. -/
@[ext]
structure View (C : Type) where
  available : Str → Option (Resources C)
  placements : Str → Option (Placement C)

def Scheduler.view (s : Scheduler C) : View C :=
  ⟨fun id => (s.nodes.lookup id).map Node.available, s.placements.lookup⟩

variable [Cpu C]

/-- Nodes are registered only as they are and none is unregistered. `SchedulePreempt` evicts no
victims of a job that finds no node and that the plugins do not bind to the node they leave. -/
def Careful (plugins : List (Plugin C)) (s : Scheduler C) : Call C → Prop
  | .registerNode n => (s.nodes.lookup n.id).map Node.available = some n.available
  | .unregisterNode id => s.nodes.lookup id = none
  | .place (.preempt job order) expected =>
    (∀ v ∈ expected, v = s.version) →
      (bestNodeAmong plugins job s.nodes).bind (runBind plugins job) = none →
        ∀ nodeID victims node, s.bestPlan plugins job order = some (nodeID, victims) →
          s.nodes.lookup nodeID = some node → runBind plugins job (node.freed victims) = none →
            victims = []
  | _ => True

variable {plugins : List (Plugin C)} {s : Scheduler C}

theorem eq_nil_of_careful {what : Placing C} {expected : Option UInt64} {victims : List (Placement C)}
    (h : Careful plugins s (.place what expected)) (hversion : ∀ v ∈ expected, v = s.version)
    (hplan : s.plan plugins what = .error victims) : victims = [] := by
  cases what with
  | schedule job =>
    unfold plan at hplan
    dsimp only at hplan
    split at hplan <;> cases hplan
    rfl
  | gang jobs =>
    unfold plan at hplan
    dsimp only at hplan
    split_ifs at hplan
    · cases hplan
      rfl
    split at hplan <;> cases hplan
    rfl
  | preempt job order =>
    unfold plan at hplan
    dsimp only at hplan
    split at hplan
    · cases hplan
    next htarget =>
    split at hplan
    · cases hplan
      rfl
    next nodeID victims' hbest =>
    split at hplan
    · next hbind =>
      cases hplan
      obtain ⟨node, hnode⟩ := Option.ne_none_iff_exists'.mp (bestPlan_spec hbest).1
      rw [hnode] at hbind
      refine h hversion ?_ nodeID _ node hbest hnode hbind
      refine Option.bind_eq_none_iff.mpr fun best hfound => ?_
      simpa using Option.filter_eq_none_iff.mp htarget best hfound
    · cases hplan

theorem step_of_careful {call : Call C} (h : Careful plugins s call) :
    (s.step plugins call).view = s.view ∧ (s.step plugins call).version = s.version ∨
      (s.step plugins call).version = s.version + 1 := by
  have heffect := effect_perform plugins s call
  unfold step
  generalize s.perform plugins call = done at heffect ⊢
  obtain ⟨s', result⟩ := done
  cases heffect with
  | @registers n =>
    refine .inl ⟨View.ext (funext fun id => ?_) rfl, rfl⟩
    show ((s.nodes.set n).lookup id).map Node.available = (s.nodes.lookup id).map Node.available
    rw [Table.lookup_set]
    split
    · next hid => rw [hid, Option.map_some, ← h]
    · rfl
  | @unregisters id =>
    refine .inl ⟨View.ext (funext fun other => ?_) rfl, rfl⟩
    show ((s.nodes.erase id).lookup other).map _ = (s.nodes.lookup other).map _
    rw [Table.lookup_erase]
    split
    · next hid => rw [hid, (h : s.nodes.lookup id = none)]
    · rfl
  | findsNone hcall => exact .inl ⟨rfl, rfl⟩
  | releases hcall hp => exact .inr rfl
  | conflicts => exact .inl ⟨rfl, rfl⟩
  | evicts hvictims hversion hplan =>
    obtain rfl := eq_nil_of_careful h hversion hplan
    exact .inl ⟨rfl, rfl⟩
  | places => exact .inr rfl

theorem version_of_careful {calls : List (Call C)} (h : Along (step plugins) (Careful plugins) s calls) :
    ∃ bumps ≤ calls.length,
      (calls.foldl (step plugins) s).version = s.version + UInt64.ofNat bumps ∧
        (bumps = 0 → (calls.foldl (step plugins) s).view = s.view) := by
  induction calls generalizing s with
  | nil => exact ⟨0, le_refl _, (UInt64.add_zero _).symm, fun _ => rfl⟩
  | cons call calls ih =>
    obtain ⟨bumps, hle, hversion, hview⟩ := ih h.2
    rcases step_of_careful h.1 with ⟨hsame, hkept⟩ | hbumped
    · refine ⟨bumps, hle.trans (Nat.le_succ _), ?_, fun hzero => (hview hzero).trans hsame⟩
      exact hversion.trans (by rw [hkept])
    refine ⟨bumps + 1, Nat.succ_le_succ hle, hversion.trans ?_, nofun⟩
    rw [hbumped, UInt64.add_assoc, UInt64.ofNat_add, UInt64.add_comm (UInt64.ofNat bumps)]
    rfl

/-- A call that expects the version of `s` sees the state of `s`, if all calls in between are
careful. -/
theorem optimistic_commit_sees_same_state {calls : List (Call C)}
    (hcareful : Along (step plugins) (Careful plugins) s calls) (hshort : calls.length < 2 ^ 64)
    {what : Placing C} {reply : Reply}
    (hok : ((calls.foldl (step plugins) s).perform plugins (.place what (some s.version))).2 =
      .ok reply) : (calls.foldl (step plugins) s).view = s.view := by
  obtain ⟨bumps, hle, hversion, hview⟩ := version_of_careful hcareful
  have hexpected : (calls.foldl (step plugins) s).version = s.version := by
    by_contra hne
    rw [perform, if_pos hne] at hok
    cases hok
  apply hview
  have hnat := congrArg UInt64.toNat (hversion.symm.trans hexpected)
  rw [UInt64.toNat_add, UInt64.toNat_ofNat'] at hnat
  have hlt := s.version.toNat_lt
  omega

/-- A node with one CPU. -/
def smallNode : Node ℚ := ⟨[110], ⟨1, 0, 0⟩, ∅⟩

/-- A job that needs one CPU. -/
def smallJob : Job ℚ := ⟨[106], ⟨1, 0, 0⟩, 0, ∅⟩

/-- Between the read and the commit a job is released that does not run, and one is refused that
would have to preempt more than there is. -/
theorem optimistic_commit_after_release :
    let s := newScheduler.registerNode smallNode
    let calls := [.release [106], .place (.preempt ⟨[107], ⟨2, 0, 0⟩, 1, ∅⟩ ⟨id, .refl⟩) none]
    (calls.foldl (step [nodeResourcesFit]) s).view = s.view := by
  intro s calls
  have hok : ((calls.foldl (step [nodeResourcesFit]) s).perform [nodeResourcesFit]
      (.place (.schedule smallJob) (some s.version))).2 = .ok (.scheduled [110]) := by
    decide +kernel
  have hnone : s.bestPlan [nodeResourcesFit] ⟨[107], ⟨2, 0, 0⟩, 1, ∅⟩ ⟨id, .refl⟩ = none := by
    decide +kernel
  have hcareful : Along (step [nodeResourcesFit]) (Careful [nodeResourcesFit]) s calls := by
    refine ⟨trivial, fun _ _ _ _ _ hbest => ?_, trivial⟩
    cases hnone.symm.trans hbest
  exact optimistic_commit_sees_same_state hcareful (by decide) hok

/-- A node is registered after the version was read, and the call places the job on it. -/
theorem optimistic_commit_on_new_node :
    let s := newScheduler
    let registered := s.step [nodeResourcesFit] (.registerNode smallNode)
    (registered.perform [nodeResourcesFit] (.place (.schedule smallJob) (some s.version))).2 =
        .ok (.scheduled [110]) ∧
      s.view.available [110] = none ∧ registered.view.available [110] = some ⟨1, 0, 0⟩ := by
  decide +kernel

end HelixCluster.Omega
