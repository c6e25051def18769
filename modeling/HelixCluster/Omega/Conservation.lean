import HelixCluster.Lib.Runs
import HelixCluster.Omega.Fit

/-!
# Resource conservation

Resources are counted as exact amounts. If only `NodeResourcesFit` binds resources, the sum of what
a node has available and what is placed on it is its worth, until a placement is overwritten
(`resources_conserved_iff`).
-/

namespace HelixCluster.Omega

open Option List Scheduler

/-- CPU, memory and GPUs as exact numbers. -/
def Resources.amount (r : Resources ℚ) : ℚ × ℤ × ℤ := (r.cpu, r.memory.toNat, r.gpu.toInt)

/-- The amount of a placement that is on the given node. -/
def amountOn (id : Str) (p : Placement ℚ) : ℚ × ℤ × ℤ :=
  if p.nodeID = id then p.resources.amount else 0

/-- The amount of all placements on a node. -/
def placedOn (placements : Placements ℚ) (id : Str) : ℚ × ℤ × ℤ :=
  placements.total (amountOn id)

/-- The placements that are overwritten when placements are recorded one after the other. -/
def lost (placements : Placements ℚ) : List (Placement ℚ) → List (Placement ℚ)
  | [] => []
  | p :: ps => (placements.lookup p.jobID).toList ++ lost (placements.set p) ps

/-- A scheduler, with the resources of the nodes at their registration. -/
structure World where
  scheduler : Scheduler ℚ
  registered : Str → Resources ℚ

namespace World

/-- A new scheduler. -/
def start : World := ⟨newScheduler, fun _ => ⟨0, 0, 0⟩⟩

def step (fit : FitOnly ℚ) (w : World) (call : Call ℚ) : World where
  scheduler := w.scheduler.step fit.plugins call
  registered :=
    match call with
    | .registerNode n => Function.update w.registered n.id n.available
    | _ => w.registered

/-- The available resources and the placements add up to those registered, and none is negative. -/
def Conserved (w : World) : Prop :=
  ∀ id node, w.scheduler.nodes.lookup id = some node →
    node.available.amount + placedOn w.scheduler.placements id = (w.registered id).amount ∧
      0 ≤ node.available.amount

/-- Nodes are registered once and not unregistered, and no request is negative. -/
def Admissible (w : World) : Call ℚ → Prop
  | .registerNode n => w.scheduler.nodes.lookup n.id = none
  | .unregisterNode _ => False
  | .place what _ => ∀ job ∈ what.jobs, 0 ≤ job.resources.amount
  | _ => True

/-- Nodes have no negative resources, and only placements of no resources are overwritten. -/
def LosesNothing (fit : FitOnly ℚ) (w : World) : Call ℚ → Prop
  | .registerNode n => 0 ≤ n.available.amount
  | .place what expected => (∀ v ∈ expected, v = w.scheduler.version) → ∀ victims ps,
      w.scheduler.plan fit.plugins what = .ok (victims, ps) →
        ∀ p ∈ lost ((victims.map Placement.jobID).foldl Table.erase w.scheduler.placements) ps,
          p.resources.amount = 0
  | _ => True

end World

/-! ### Amounts -/

theorem nonneg_iff {r : Resources ℚ} : 0 ≤ r.amount ↔ 0 ≤ r.cpu ∧ 0 ≤ r.gpu.toInt := by
  simp [Resources.amount, Prod.le_def]

theorem amount_sub {a r : Resources ℚ} (hr : 0 ≤ r.amount) (h : a.covers r) :
    (a.sub r).amount = a.amount - r.amount ∧ 0 ≤ (a.sub r).amount := by
  obtain ⟨hcpu, hmemory, hgpu⟩ := of_decide_eq_true h
  obtain ⟨_, hgpu0⟩ := nonneg_iff.mp hr
  have hgpu := Int64.le_iff_toInt_le.mp hgpu
  have hlt := a.gpu.toInt_lt
  have hsub : (a.gpu - r.gpu).toInt = a.gpu.toInt - r.gpu.toInt := by
    rw [Int64.toInt_sub, Int.bmod_def]
    split <;> omega
  have hmem : (a.memory - r.memory).toNat = a.memory.toNat - r.memory.toNat :=
    UInt64.toNat_sub_of_le _ _ hmemory
  have hmemory := UInt64.le_iff_toNat_le.mp hmemory
  constructor
  · simp only [Resources.amount, Resources.sub, Prod.mk_sub_mk, Prod.mk.injEq, hsub, hmem, true_and,
      and_true]
    omega
  rw [nonneg_iff]
  refine ⟨sub_nonneg.mpr hcpu, ?_⟩
  show 0 ≤ (a.gpu - r.gpu).toInt
  omega

theorem amount_add {a r total : Resources ℚ} (ha : 0 ≤ a.amount) (hr : 0 ≤ r.amount)
    (h : a.amount + r.amount ≤ total.amount) : (a.add r).amount = a.amount + r.amount := by
  obtain ⟨_, ha⟩ := nonneg_iff.mp ha
  obtain ⟨_, hr⟩ := nonneg_iff.mp hr
  obtain ⟨_, hmemory, hgpu⟩ : a.cpu + r.cpu ≤ total.cpu ∧
      (a.memory.toNat : ℤ) + r.memory.toNat ≤ total.memory.toNat ∧
      a.gpu.toInt + r.gpu.toInt ≤ total.gpu.toInt := h
  have hgpult := total.gpu.toInt_lt
  have hmemlt := total.memory.toNat_lt
  have hadd : (a.gpu + r.gpu).toInt = a.gpu.toInt + r.gpu.toInt := by
    rw [Int64.toInt_add, Int.bmod_def]
    split <;> omega
  have hmem : (a.memory + r.memory).toNat = a.memory.toNat + r.memory.toNat := by
    rw [UInt64.toNat_add]
    omega
  simp [Resources.amount, Resources.add, hadd, hmem]

/-! ### The worth of a node -/

theorem placedOn_erase {placements : Placements ℚ} {k : Str} {p : Placement ℚ}
    (h : placements.lookup k = some p) (id : Str) :
    placedOn placements id = amountOn id p + placedOn (placements.erase k) id :=
  Table.total_erase _ h

theorem placedOn_set (placements : Placements ℚ) (p : Placement ℚ) (id : Str) :
    placedOn (placements.set p) id + ((placements.lookup p.jobID).toList.map (amountOn id)).sum =
      amountOn id p + placedOn placements id := by
  have hset := placements.total_set (amountOn id) p
  cases h : placements.lookup p.jobID <;> simpa [h, placedOn] using hset

theorem amountOn_nonneg {p : Placement ℚ} (h : 0 ≤ p.resources.amount) (id : Str) :
    0 ≤ amountOn id p := by
  unfold amountOn
  split
  · exact h
  · exact le_refl 0

/-- Every node has its worth, and every placement is on a node and not negative. -/
structure Balanced (nodes : Nodes ℚ) (placements : Placements ℚ)
    (registered : Str → Resources ℚ) : Prop where
  worth : ∀ id node, nodes.lookup id = some node →
    node.available.amount + placedOn placements id = (registered id).amount
  available : ∀ id node, nodes.lookup id = some node → 0 ≤ node.available.amount
  placed : ∀ id p, placements.lookup id = some p →
    0 ≤ p.resources.amount ∧ nodes.lookup p.nodeID ≠ none

variable {nodes nodes' : Nodes ℚ} {placements : Placements ℚ}
  {registered : Str → Resources ℚ}

theorem placedOn_nonneg (h : ∀ id p, placements.lookup id = some p → 0 ≤ p.resources.amount)
    (id : Str) : 0 ≤ placedOn placements id := by
  refine sum_nonneg fun x hx => ?_
  obtain ⟨p, hp, rfl⟩ := mem_map.mp hx
  exact amountOn_nonneg (h _ p (Table.mem_values.mp hp)) id

theorem balanced_evict (h : Balanced nodes placements registered) {p : Placement ℚ}
    (hp : placements.lookup p.jobID = some p) :
    Balanced (credit nodes p.nodeID p.resources) (placements.erase p.jobID) registered := by
  have hpositive := (h.placed _ p hp).1
  have hrest : ∀ id, 0 ≤ placedOn (placements.erase p.jobID) id := placedOn_nonneg fun id q hq => by
    rw [Table.lookup_erase] at hq
    split at hq
    · cases hq
    · exact (h.placed id q hq).1
  -- the node of the placement can take its resources back, since they were part of its worth
  have hcredit : ∀ node, nodes.lookup p.nodeID = some node →
      (node.available.add p.resources).amount = node.available.amount + p.resources.amount := by
    intro node hnode
    have hfits : node.available.amount + p.resources.amount ≤ (registered p.nodeID).amount := by
      rw [← h.worth _ node hnode, placedOn_erase hp, amountOn, if_pos rfl]
      exact add_le_add_right (le_add_of_nonneg_right (hrest p.nodeID)) _
    exact amount_add (h.available _ node hnode) hpositive hfits
  refine ⟨fun id node' hnode' => ?_, fun id node' hnode' => ?_, fun id q hq => ?_⟩
  · rw [lookup_credit] at hnode'
    obtain ⟨node, hnode, rfl⟩ := map_eq_some_iff.mp hnode'
    have hworth := h.worth id node hnode
    rw [placedOn_erase hp] at hworth
    rcases eq_or_ne id p.nodeID with rfl | hid
    · rw [amountOn, if_pos rfl] at hworth
      rw [if_pos rfl, hcredit node hnode, add_assoc]
      exact hworth
    rw [amountOn, if_neg (Ne.symm hid), zero_add] at hworth
    rw [if_neg hid]
    exact hworth
  · rw [lookup_credit] at hnode'
    obtain ⟨node, hnode, rfl⟩ := map_eq_some_iff.mp hnode'
    rcases eq_or_ne id p.nodeID with rfl | hid
    · rw [if_pos rfl, hcredit node hnode]
      exact add_nonneg (h.available _ node hnode) hpositive
    · rw [if_neg hid]
      exact h.available id node hnode
  rw [Table.lookup_erase] at hq
  split at hq
  · cases hq
  obtain ⟨hq0, hnode⟩ := h.placed id q hq
  refine ⟨hq0, ?_⟩
  rw [lookup_credit]
  exact fun hnone => hnode (map_eq_none_iff.mp hnone)

theorem balanced_foldl_evict {s : Scheduler ℚ} (h : Balanced s.nodes s.placements registered)
    {victims : List (Placement ℚ)} (hvictims : Victims s victims) :
    Balanced (victims.foldl evict s).nodes (victims.foldl evict s).placements registered := by
  induction victims generalizing s with
  | nil => exact h
  | cons v victims ih =>
    obtain ⟨hlookup, hnodup⟩ := hvictims
    obtain ⟨hv, hnodup⟩ := nodup_cons.mp hnodup
    refine ih (s := s.evict v) (balanced_evict h (hlookup v mem_cons_self)) ⟨?_, hnodup⟩
    intro u hu
    have hne : u.jobID ≠ v.jobID := fun heq => hv (heq ▸ mem_map_of_mem hu)
    exact ((Table.lookup_erase ..).trans (if_neg hne)).trans
      (hlookup u (mem_cons_of_mem _ hu))

/-! ### Placing jobs -/

variable {ps : List (Placement ℚ)}

theorem amount_debits {a b : Resources ℚ} {rs : List (Resources ℚ)} (hrs : ∀ r ∈ rs, 0 ≤ r.amount)
    (h : a.Debits rs b) :
    b.amount + (rs.map Resources.amount).sum = a.amount ∧ (0 ≤ a.amount → 0 ≤ b.amount) := by
  induction rs generalizing a with
  | nil =>
    obtain rfl := h
    exact ⟨by simp, id⟩
  | cons r rs ih =>
    obtain ⟨hr, hrs⟩ := forall_mem_cons.mp hrs
    obtain ⟨hamount, hpositive⟩ := amount_sub hr h.1
    obtain ⟨hsum, hleft⟩ := ih hrs h.2
    refine ⟨?_, fun _ => hleft hpositive⟩
    rw [map_cons, sum_cons, add_left_comm, hsum, hamount, add_sub_cancel]

theorem sum_amountOn (ps : List (Placement ℚ)) (id : Str) :
    (ps.map (amountOn id)).sum = ((resourcesOn id ps).map Resources.amount).sum := by
  induction ps with
  | nil => rfl
  | cons p ps ih =>
    by_cases hid : p.nodeID = id <;> simp [amountOn, resourcesOn, hid] at ih ⊢ <;> exact ih

theorem amount_binds {fit : FitOnly ℚ} (hbinds : Binds fit.plugins nodes ps nodes')
    (hps : ∀ p ∈ ps, 0 ≤ p.resources.amount) {id : Str} {node' : Node ℚ}
    (hnode' : nodes'.lookup id = some node') : ∃ old, nodes.lookup id = some old ∧
      node'.available.amount + (ps.map (amountOn id)).sum = old.available.amount ∧
      (0 ≤ old.available.amount → 0 ≤ node'.available.amount) := by
  obtain ⟨old, hold, hdebits⟩ := debits_binds hbinds hnode'
  refine ⟨old, hold, ?_⟩
  rw [sum_amountOn]
  refine amount_debits (fun r hr => ?_) hdebits
  obtain ⟨p, hp, rfl⟩ := mem_map.mp hr
  exact hps p (mem_of_mem_filter hp)

theorem placedOn_foldl_set (placements : Placements ℚ) (ps : List (Placement ℚ)) (id : Str) :
    placedOn (ps.foldl Table.set placements) id + ((lost placements ps).map (amountOn id)).sum =
      (ps.map (amountOn id)).sum + placedOn placements id := by
  induction ps generalizing placements with
  | nil => simp [lost]
  | cons p ps ih =>
    rw [foldl_cons, lost, map_append, sum_append, add_left_comm, ih, map_cons, sum_cons, add_left_comm,
      add_comm _ (placedOn _ id), placedOn_set]
    abel

theorem worth_binds {fit : FitOnly ℚ} (hbinds : Binds fit.plugins nodes ps nodes')
    (hps : ∀ p ∈ ps, 0 ≤ p.resources.amount) (placements : Placements ℚ) {id : Str}
    {node' : Node ℚ} (hnode' : nodes'.lookup id = some node') : ∃ old, nodes.lookup id = some old ∧
      node'.available.amount + placedOn (ps.foldl Table.set placements) id +
          ((lost placements ps).map (amountOn id)).sum =
        old.available.amount + placedOn placements id ∧
      (0 ≤ old.available.amount → 0 ≤ node'.available.amount) := by
  obtain ⟨old, hold, hsum, hleft⟩ := amount_binds hbinds hps hnode'
  refine ⟨old, hold, ?_, hleft⟩
  rw [add_assoc, placedOn_foldl_set, ← add_assoc, hsum]

theorem of_mem_lost {q : Placement ℚ} (h : q ∈ lost placements ps) :
    (∃ id, placements.lookup id = some q) ∨ q ∈ ps := by
  induction ps generalizing placements with
  | nil => cases h
  | cons p ps ih =>
    rcases mem_append.mp h with hold | hlater
    · exact .inl ⟨p.jobID, mem_toList.mp hold⟩
    rcases ih hlater with ⟨id, hid⟩ | hq
    · rw [Table.lookup_set] at hid
      split at hid
      · exact .inr (Option.some.inj hid ▸ mem_cons_self)
      · exact .inl ⟨id, hid⟩
    · exact .inr (mem_cons_of_mem _ hq)

theorem of_lookup_foldl_set {id : Str} {q : Placement ℚ}
    (h : (ps.foldl Table.set placements).lookup id = some q) :
    placements.lookup id = some q ∨ q ∈ ps := by
  induction ps generalizing placements with
  | nil => exact .inl h
  | cons p ps ih =>
    rcases ih h with hid | hq
    · rw [Table.lookup_set] at hid
      split at hid
      · exact .inr (Option.some.inj hid ▸ mem_cons_self)
      · exact .inl hid
    · exact .inr (mem_cons_of_mem _ hq)

theorem balanced_binds {fit : FitOnly ℚ} (h : Balanced nodes placements registered)
    (hbinds : Binds fit.plugins nodes ps nodes') (hps : ∀ p ∈ ps, 0 ≤ p.resources.amount)
    (hlost : ∀ q ∈ lost placements ps, q.resources.amount = 0) :
    Balanced nodes' (ps.foldl Table.set placements) registered := by
  have hzero : ∀ id, ((lost placements ps).map (amountOn id)).sum = 0 := fun id =>
    sum_eq_zero fun x hx => by
      obtain ⟨q, hq, rfl⟩ := mem_map.mp hx
      rw [amountOn, hlost q hq, ite_self]
  obtain ⟨hdomain, hnodes⟩ := domain_binds hbinds
  refine ⟨fun id node hnode => ?_, fun id node hnode => ?_, fun id q hq => ?_⟩
  · obtain ⟨old, hold, hworth, _⟩ := worth_binds hbinds hps placements hnode
    rw [hzero, add_zero] at hworth
    rw [hworth, h.worth id old hold]
  · obtain ⟨old, hold, _, hleft⟩ := worth_binds hbinds hps placements hnode
    exact hleft (h.available id old hold)
  rcases of_lookup_foldl_set hq with hold | hnew
  · exact ⟨(h.placed id q hold).1, mt (hdomain _).mp (h.placed id q hold).2⟩
  · exact ⟨hps q hnew, mt (hdomain _).mp (hnodes q hnew)⟩

theorem lost_eq_zero {fit : FitOnly ℚ} (h : Balanced nodes placements registered)
    (hbinds : Binds fit.plugins nodes ps nodes') (hps : ∀ p ∈ ps, 0 ≤ p.resources.amount)
    (hworth : ∀ id node, nodes'.lookup id = some node →
      node.available.amount + placedOn (ps.foldl Table.set placements) id = (registered id).amount)
    {q : Placement ℚ} (hq : q ∈ lost placements ps) : q.resources.amount = 0 := by
  obtain ⟨hdomain, hnodes⟩ := domain_binds hbinds
  have hlost : ∀ q ∈ lost placements ps, 0 ≤ q.resources.amount ∧ nodes.lookup q.nodeID ≠ none := by
    intro q hq
    rcases of_mem_lost hq with ⟨id, hid⟩ | hmem
    · exact h.placed id q hid
    · exact ⟨hps q hmem, hnodes q hmem⟩
  obtain ⟨node, hnode⟩ := ne_none_iff_exists'.mp (mt (hdomain _).mp (hlost q hq).2)
  obtain ⟨old, hold, hbefore, _⟩ := worth_binds hbinds hps placements hnode
  rw [hworth _ node hnode, h.worth _ old hold, add_eq_left] at hbefore
  have hle : amountOn q.nodeID q ≤ ((lost placements ps).map (amountOn q.nodeID)).sum := by
    refine single_le_sum (fun x hx => ?_) _ (mem_map_of_mem hq)
    obtain ⟨p, hp, rfl⟩ := mem_map.mp hx
    exact amountOn_nonneg (hlost p hp).1 _
  rw [hbefore, amountOn, if_pos rfl] at hle
  exact le_antisymm hle (hlost q hq).1

/-! ### Runs -/

namespace World

variable {fit : FitOnly ℚ} {w : World} {call : Call ℚ}

/-- The books of the scheduler are balanced. -/
def Ledger (w : World) : Prop := Balanced w.scheduler.nodes w.scheduler.placements w.registered

theorem conserved_of_ledger (h : w.Ledger) : w.Conserved :=
  fun id node hnode => ⟨h.worth id node hnode, h.available id node hnode⟩

theorem ledger_start : start.Ledger := ⟨nofun, nofun, nofun⟩

theorem placements_foldl_evict (s : Scheduler ℚ) (victims : List (Placement ℚ)) :
    (victims.foldl evict s).placements =
      (victims.map Placement.jobID).foldl Table.erase s.placements := by
  induction victims generalizing s with
  | nil => rfl
  | cons v victims ih => exact ih (s.evict v)

theorem placedOn_eq_zero (h : w.Ledger) {id : Str} (hid : w.scheduler.nodes.lookup id = none) :
    placedOn w.scheduler.placements id = 0 := by
  refine sum_eq_zero fun x hx => ?_
  obtain ⟨p, hp, rfl⟩ := mem_map.mp hx
  refine if_neg fun heq => ?_
  exact (h.placed _ p (Table.mem_values.mp hp)).2 (heq ▸ hid)

theorem ledger_register (h : w.Ledger) {n : Node ℚ} (hnew : w.scheduler.nodes.lookup n.id = none)
    (hn : 0 ≤ n.available.amount) : Balanced (w.scheduler.nodes.set n) w.scheduler.placements
      (Function.update w.registered n.id n.available) := by
  refine ⟨fun id node hnode => ?_, fun id node hnode => ?_, fun id p hp => ?_⟩
  · rw [Table.lookup_set] at hnode
    split_ifs at hnode with hid
    · subst hid
      cases hnode
      rw [placedOn_eq_zero h hnew, Function.update_self, add_zero]
    · rw [Function.update_of_ne hid]
      exact h.worth id node hnode
  · rw [Table.lookup_set] at hnode
    split at hnode
    · rwa [← Option.some.inj hnode]
    · exact h.available id node hnode
  obtain ⟨hp0, hnode⟩ := h.placed id p hp
  refine ⟨hp0, ?_⟩
  rw [Table.lookup_set]
  split
  · exact some_ne_none _
  · exact hnode

theorem step_iff (h : w.Ledger) (hadmissible : w.Admissible call) :
    ((w.step fit call).Conserved ↔ w.LosesNothing fit call) ∧
      (w.LosesNothing fit call → (w.step fit call).Ledger) := by
  have heffect := effect_perform fit.plugins w.scheduler call
  generalize hdone : w.scheduler.perform fit.plugins call = done at heffect
  have hscheduler : (w.step fit call).scheduler = done.1 := congrArg Prod.fst hdone
  obtain ⟨s', result⟩ := done
  -- where the books are kept in any case, both sides hold
  have hkept : (w.step fit call).Ledger → w.LosesNothing fit call →
      ((w.step fit call).Conserved ↔ w.LosesNothing fit call) ∧
        (w.LosesNothing fit call → (w.step fit call).Ledger) := fun hledger hnothing =>
    ⟨iff_of_true (conserved_of_ledger hledger) hnothing, fun _ => hledger⟩
  cases heffect with
  | @registers n =>
    have hledger : w.LosesNothing fit (.registerNode n) →
        (w.step fit (.registerNode n)).Ledger := ledger_register h hadmissible
    refine ⟨⟨fun hconserved => ?_, fun hn => conserved_of_ledger (hledger hn)⟩, hledger⟩
    exact (hconserved n.id n ((Table.lookup_set ..).trans (if_pos rfl))).2
  | unregisters => exact hadmissible.elim
  | findsNone hcall =>
    obtain ⟨jobID, rfl | rfl⟩ := hcall <;>
      exact hkept (by unfold Ledger; rw [hscheduler]; exact h) trivial
  | releases hcall hp =>
    obtain ⟨jobID, rfl | rfl⟩ := hcall <;>
      exact hkept (by unfold Ledger; rw [hscheduler]; exact balanced_evict h hp) trivial
  | @conflicts _ expected _ hne =>
    refine hkept ?_ fun hversion => absurd (hversion expected rfl) hne
    unfold Ledger
    rw [hscheduler]
    exact h
  | evicts hvictims _ hplan =>
    refine hkept ?_ fun _ _ _ hok => nomatch hplan.symm.trans hok
    unfold Ledger
    rw [hscheduler]
    exact balanced_foldl_evict h hvictims
  | @places what expected victims ps nodes reply hvictims hversion hplan hbinds hjobs =>
    have hevicted := balanced_foldl_evict h hvictims
    have hps : ∀ p ∈ ps, 0 ≤ p.resources.amount := by
      intro p hp
      obtain ⟨job, hjob, heq⟩ := hjobs p hp
      rw [heq]
      exact hadmissible job hjob
    have hnothing : w.LosesNothing fit (.place what expected) ↔
        ∀ q ∈ lost (victims.foldl evict w.scheduler).placements ps, q.resources.amount = 0 := by
      rw [placements_foldl_evict]
      refine ⟨fun hlost => hlost hversion victims ps hplan, fun hlost _ _ _ hok => ?_⟩
      cases hplan.symm.trans hok
      exact hlost
    have hledger : w.LosesNothing fit (.place what expected) →
        (w.step fit (.place what expected)).Ledger := fun hlost => by
      unfold Ledger
      rw [hscheduler]
      exact balanced_binds hevicted hbinds hps (hnothing.mp hlost)
    refine ⟨⟨fun hconserved => hnothing.mpr fun q hq => ?_,
      fun hlost => conserved_of_ledger (hledger hlost)⟩, hledger⟩
    refine lost_eq_zero hevicted hbinds hps (fun id node hnode => ?_) hq
    have hnode' := hconserved id node (by rw [hscheduler]; exact hnode)
    rw [hscheduler] at hnode'
    exact hnode'.1

end World

/-- **Resource conservation** with `NodeResourcesFit` alone, if and only if no node has negative
resources and no placement with some is overwritten. -/
theorem resources_conserved_iff (fit : FitOnly ℚ) {calls : List (Call ℚ)}
    (hadmissible : Along (World.step fit) World.Admissible .start calls) :
    (∀ w ∈ states (World.step fit) .start calls, w.Conserved) ↔
      Along (World.step fit) (World.LosesNothing fit) .start calls :=
  forall_states_iff_within (I := World.Ledger) (fun _ _ h hd hc => (World.step_iff h hd).2 hc)
    (fun _ _ h hd => (World.step_iff h hd).1) World.ledger_start
    (World.conserved_of_ledger World.ledger_start) hadmissible

/-- `NodeResourcesFit` alone. -/
def fitAlone : FitOnly ℚ := ⟨[], [], nofun⟩

/-- A node with four CPUs. -/
def fourCpus : Node ℚ := ⟨[110], ⟨4, 0, 0⟩, ∅⟩

/-- A job that needs one CPU. -/
def oneCpu : Job ℚ := ⟨[106], ⟨1, 0, 0⟩, 0, ∅⟩

/-- A job is scheduled on the node and completes. -/
theorem conserved_schedule_complete :
    let calls := [Call.registerNode fourCpus, .place (.schedule oneCpu) none, .complete [106]]
    Along (World.step fitAlone) (World.LosesNothing fitAlone) .start calls ∧
      ∀ w ∈ states (World.step fitAlone) .start calls, w.Conserved := by
  intro calls
  have hadmissible : Along (World.step fitAlone) World.Admissible .start calls := by
    refine ⟨rfl, ?_, trivial, trivial⟩
    simp [World.Admissible, Placing.jobs, oneCpu, nonneg_iff]
  have hnothing : Along (World.step fitAlone) (World.LosesNothing fitAlone) .start calls := by
    refine ⟨(by decide +kernel : 0 ≤ fourCpus.available.amount), fun _ victims ps hplan p hp => ?_,
      trivial, trivial⟩
    have hplanned : (World.start.step fitAlone (.registerNode fourCpus)).scheduler.plan
        fitAlone.plugins (.schedule oneCpu) = .ok ([], [placementOn oneCpu [110]]) := by
      decide +kernel
    cases hplanned.symm.trans hplan
    cases hp
  exact ⟨hnothing, (resources_conserved_iff fitAlone hadmissible).mpr hnothing⟩

/-- The job is scheduled twice. Two of the four CPUs are available and one is placed. -/
theorem scheduled_twice_loses_cpu :
    let w := [Call.registerNode fourCpus, .place (.schedule oneCpu) none,
      .place (.schedule oneCpu) none].foldl (World.step fitAlone) .start
    (w.scheduler.nodes.lookup [110]).map (fun node => node.available.amount) = some (2, 0, 0) ∧
      placedOn w.scheduler.placements [110] = (1, 0, 0) ∧
      (w.registered [110]).amount = (4, 0, 0) := by
  decide +kernel

end HelixCluster.Omega
