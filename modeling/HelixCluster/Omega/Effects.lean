import HelixCluster.Omega.Selection

/-!
# What a call can do

Every call of the scheduler has one of a few effects (`effect_perform`): it changes the set of
nodes, releases a placement or finds none, conflicts, evicts victims without placing
anything, or evicts victims and places jobs. Which victims and which placements is known before (`Scheduler.plan`).
-/

namespace HelixCluster.Omega

open List Scheduler

variable {C : Type}

/-- The jobs that a call is to place. -/
def Placing.jobs : Placing C → List (Job C)
  | .schedule job => [job]
  | .gang jobs => jobs
  | .preempt job _ => [job]

/-- The node with the resources of placements given back. -/
def Node.freed [Cpu C] (node : Node C) (victims : List (Placement C)) : Node C :=
  { node with available := victims.foldl (fun r v => r.add v.resources) node.available }

/-- The node on which a job is placed without preemption. -/
def Scheduler.target (plugins : List (Plugin C)) (s : Scheduler C) (job : Job C) : Option (Node C) :=
  (bestNodeAmong plugins job s.nodes).filter fun best => (runBind plugins job best).isSome

/-- What a call that places jobs will do in the state: the placements that it evicts before it fails,
or those that it evicts with those that it records. -/
def Scheduler.plan [Cpu C] (plugins : List (Plugin C)) (s : Scheduler C) :
    Placing C → Except (List (Placement C)) (List (Placement C) × List (Placement C))
  | .schedule job =>
    match s.target plugins job with
    | none => .error []
    | some best => .ok ([], [placementOn job best.id])
  | .gang jobs =>
    if jobs = [] then .error []
    else
      match planGang plugins s.nodes jobs with
      | none => .error []
      | some (_, planned) => .ok ([], gangPlacements jobs planned)
  | .preempt job order =>
    match s.target plugins job with
    | some best => .ok ([], [placementOn job best.id])
    | none =>
      match s.bestPlan plugins job order with
      | none => .error []
      | some (nodeID, victims) =>
        match (s.nodes.lookup nodeID).bind fun node => runBind plugins job (node.freed victims) with
        | none => .error victims
        | some bound => .ok (victims, [placementOn job bound.id])

/-- The placements can be evicted one after the other. -/
def Victims (s : Scheduler C) (victims : List (Placement C)) : Prop :=
  (∀ v ∈ victims, s.placements.lookup v.jobID = some v) ∧ (victims.map Placement.jobID).Nodup

theorem victims_nil {s : Scheduler C} : Victims s [] := ⟨nofun, nodup_nil⟩

/-- Jobs are bound to registered nodes one after the other. -/
inductive Binds (plugins : List (Plugin C)) :
    Nodes C → List (Placement C) → Nodes C → Prop where
  | nil {nodes : Nodes C} : Binds plugins nodes [] nodes
  | cons {nodes nodes' : Nodes C} {job : Job C} {node bound : Node C} {ps : List (Placement C)}
      (hlookup : nodes.lookup node.id = some node) (hbind : runBind plugins job node = some bound)
      (hrest : Binds plugins (nodes.set bound) ps nodes') :
      Binds plugins nodes (placementOn job node.id :: ps) nodes'

/-- `Complete` or `Release`. -/
def Call.Releasing (call : Call C) : Prop := ∃ jobID, call = .complete jobID ∨ call = .release jobID

/-- The effects of a call. -/
inductive Effect [Cpu C] (plugins : List (Plugin C)) (s : Scheduler C) :
    Call C → Scheduler C → Except Error Reply → Prop where
  | registers {n : Node C} : Effect plugins s (.registerNode n) (s.registerNode n) (.ok .done)
  | unregisters {id : Str} :
      Effect plugins s (.unregisterNode id) (s.unregisterNode id) (.ok .done)
  | findsNone {call : Call C} (hcall : call.Releasing) :
      Effect plugins s call s (.ok (.released false))
  | releases {call : Call C} {p : Placement C} (hcall : call.Releasing)
      (hp : s.placements.lookup p.jobID = some p) :
      Effect plugins s call { s.evict p with version := s.version + 1 } (.ok (.released true))
  | conflicts {what : Placing C} {expected : UInt64} {err : Error} (hne : expected ≠ s.version) :
      Effect plugins s (.place what (some expected)) s (.error err)
  | evicts {what : Placing C} {expected : Option UInt64} {victims : List (Placement C)} {err : Error}
      (hvictims : Victims s victims) (hversion : ∀ v ∈ expected, v = s.version)
      (hplan : s.plan plugins what = .error victims) :
      Effect plugins s (.place what expected) (victims.foldl evict s) (.error err)
  | places {what : Placing C} {expected : Option UInt64} {victims ps : List (Placement C)}
      {nodes : Nodes C} {reply : Reply} (hvictims : Victims s victims)
      (hversion : ∀ v ∈ expected, v = s.version) (hplan : s.plan plugins what = .ok (victims, ps))
      (hbinds : Binds plugins (victims.foldl evict s).nodes ps nodes)
      (hjobs : ∀ p ∈ ps, ∃ job ∈ what.jobs, p.resources = job.resources) :
      Effect plugins s (.place what expected)
        ⟨nodes, ps.foldl Table.set (victims.foldl evict s).placements, s.version + 1⟩ (.ok reply)

variable {plugins : List (Plugin C)} {s : Scheduler C}

/-! ### Choosing nodes and victims -/

variable {job : Job C}

theorem id_of_runBind {node bound : Node C} (h : runBind plugins job node = some bound) :
    bound.id = node.id := by
  induction plugins generalizing node with
  | nil =>
    cases h
    rfl
  | cons p plugins ih =>
    obtain ⟨next, hnext, hrest⟩ := Option.bind_eq_some_iff.mp h
    obtain ⟨r, _, rfl⟩ := Option.map_eq_some_iff.mp hnext
    have hid := ih hrest
    exact hid

theorem lookup_bestNodeAmong {nodes : Nodes C} {best : Node C}
    (h : bestNodeAmong plugins job nodes = some best) : nodes.lookup best.id = some best :=
  (chosen_of_bestNodeAmong h).1.passing.1

theorem planGang_spec {jobs : List (Job C)} {shadow nodes : Nodes C}
    {planned : List (Str × Str)}
    (h : planGang plugins shadow jobs = some (nodes, planned)) :
    Binds plugins shadow (gangPlacements jobs planned) nodes ∧
      planned.map Prod.fst = jobs.map Job.id := by
  induction jobs generalizing shadow planned with
  | nil =>
    cases h
    exact ⟨.nil, rfl⟩
  | cons job jobs ih =>
    unfold planGang at h
    split at h
    · cases h
    · next best hbest =>
      split at h
      · cases h
      · next bound hbind =>
        obtain ⟨⟨nodes', rest⟩, hrest, heq⟩ := Option.map_eq_some_iff.mp h
        cases heq
        obtain ⟨hbinds, hids⟩ := ih hrest
        exact ⟨.cons (lookup_bestNodeAmong hbest) hbind hbinds, congrArg _ hids⟩

theorem mem_gangPlacements {jobs : List (Job C)} {planned : List (Str × Str)}
    {p : Placement C} (h : p ∈ gangPlacements jobs planned) :
    ∃ job ∈ jobs, p.resources = job.resources := by
  rw [gangPlacements, ← map_uncurry_zip_eq_zipWith] at h
  obtain ⟨⟨job, task⟩, hmem, rfl⟩ := mem_map.mp h
  exact ⟨job, (of_mem_zip hmem).1, rfl⟩

theorem target_eq_none (h : ∀ best ∈ bestNodeAmong plugins job s.nodes, s.place plugins job best = none) :
    s.target plugins job = none := by
  refine Option.filter_eq_none_iff.mpr fun best hbest => ?_
  have hbind : runBind plugins job best = none := Option.map_eq_none_iff.mp (h best hbest)
  simp [hbind]

variable {victims : List (Placement C)} {expected : Option UInt64}

theorem victims_of_sublist {order : Shuffle (Placement C)} {nodeID : Str}
    (h : victims.Sublist (s.candidates job order nodeID)) :
    Victims s victims ∧ ∀ v ∈ victims, v.nodeID = nodeID := by
  have hperm : (s.candidates job order nodeID).Perm
      ((order.run s.placements.values).filter fun p =>
        p.priority < job.priority ∧ p.nodeID = nodeID) := perm_insertionSort _ _
  have hmem : ∀ v ∈ victims, v ∈ s.placements.values ∧ v.nodeID = nodeID := by
    intro v hv
    obtain ⟨hvalue, hkept⟩ := mem_filter.mp (hperm.mem_iff.mp (h.subset hv))
    exact ⟨(order.perm _).mem_iff.mp hvalue, (of_decide_eq_true hkept).2⟩
  have hnodup : ((s.candidates job order nodeID).map Placement.jobID).Nodup := by
    rw [(hperm.map _).nodup_iff]
    refine List.Nodup.sublist (filter_sublist.map _) ?_
    rw [((order.perm _).map _).nodup_iff]
    exact s.placements.nodup_map_key
  exact ⟨⟨fun v hv => Table.mem_values.mp (hmem v hv).1, hnodup.sublist (h.map _)⟩,
    fun v hv => (hmem v hv).2⟩

variable [Cpu C]

theorem simulate_sublist (plugins : List (Plugin C)) (job : Job C) (sim : Node C) (vs : List (Placement C)) :
    (simulate plugins job sim vs).1.Sublist vs := by
  induction vs generalizing sim with
  | nil => exact .slnil
  | cons v vs ih =>
    unfold simulate
    split
    · exact nil_sublist _
    · exact (ih _).cons_cons v

theorem bestPlan_spec {order : Shuffle (Placement C)} {nodeID : Str}
    (h : s.bestPlan plugins job order = some (nodeID, victims)) :
    s.nodes.lookup nodeID ≠ none ∧ Victims s victims ∧ ∀ v ∈ victims, v.nodeID = nodeID := by
  have hfold : ∀ (ids : List Str) (acc : Option (Str × List (Placement C))),
      (∀ plan ∈ acc, s.nodes.lookup plan.1 ≠ none ∧ Victims s plan.2 ∧
        ∀ v ∈ plan.2, v.nodeID = plan.1) →
      ∀ plan ∈ ids.foldl (s.betterPlan plugins job order) acc,
        s.nodes.lookup plan.1 ≠ none ∧ Victims s plan.2 ∧ ∀ v ∈ plan.2, v.nodeID = plan.1 := by
    intro ids
    induction ids with
    | nil => exact fun acc hacc => hacc
    | cons id ids ih =>
      refine fun acc hacc => ih _ fun plan hplan => ?_
      unfold betterPlan at hplan
      split at hplan
      · exact hacc plan hplan
      · next node hnode =>
        have hnew : s.nodes.lookup id ≠ none := by
          rw [hnode]
          exact Option.some_ne_none _
        have hchosen := victims_of_sublist
          (simulate_sublist plugins job node (s.candidates job order id))
        dsimp only at hplan
        split at hplan
        · split at hplan
          · cases hplan
            exact ⟨hnew, hchosen⟩
          · split at hplan
            · cases hplan
              exact ⟨hnew, hchosen⟩
            · exact hacc plan hplan
        · exact hacc plan hplan
  exact hfold _ none nofun (nodeID, victims) h

/-! ### The effects -/

theorem version_foldl_evict (s : Scheduler C) (victims : List (Placement C)) :
    (victims.foldl evict s).version = s.version := by
  induction victims generalizing s with
  | nil => rfl
  | cons v victims ih => exact ih (s.evict v)

theorem lookup_credit (nodes : Nodes C) (nodeID : Str) (r : Resources C) (id : Str) :
    (credit nodes nodeID r).lookup id = (nodes.lookup id).map fun node =>
      if id = nodeID then { node with available := node.available.add r } else node := by
  unfold credit
  cases hnode : nodes.lookup nodeID with
  | none =>
    by_cases hid : id = nodeID
    · rw [hid, hnode]
      rfl
    · simp [hid]
  | some node =>
    have hkey : node.id = nodeID := Table.key_of_lookup hnode
    dsimp only
    rw [Table.lookup_set]
    by_cases hid : id = nodeID
    · simp [hid, hnode, hkey]
    · simp [hid, hkey]

theorem lookup_foldl_evict {nodeID : Str} (h : ∀ v ∈ victims, v.nodeID = nodeID) :
    (victims.foldl evict s).nodes.lookup nodeID =
      (s.nodes.lookup nodeID).map fun node => node.freed victims := by
  induction victims generalizing s with
  | nil => exact Option.map_id'.symm
  | cons v victims ih =>
    obtain ⟨hv, hvictims⟩ := forall_mem_cons.mp h
    rw [foldl_cons, ih hvictims, evict, lookup_credit, Option.map_map, hv]
    simp [Function.comp_def, Node.freed]

theorem effect_of_place {what : Placing C} {expected : Option UInt64} {node : Node C} {s' : Scheduler C}
    {reply : Reply} (hvictims : Victims s victims) (hversion : ∀ v ∈ expected, v = s.version)
    (hlookup : (victims.foldl evict s).nodes.lookup node.id = some node)
    (hplace : (victims.foldl evict s).place plugins job node = some s')
    (hplan : s.plan plugins what = .ok (victims, [placementOn job node.id])) (hjob : job ∈ what.jobs) :
    Effect plugins s (.place what expected) s' (.ok reply) := by
  obtain ⟨bound, hbind, rfl⟩ := Option.map_eq_some_iff.mp hplace
  rw [id_of_runBind hbind, version_foldl_evict]
  refine .places hvictims hversion hplan (.cons hlookup hbind .nil) fun p hp => ?_
  obtain rfl := mem_singleton.mp hp
  exact ⟨job, hjob, rfl⟩

theorem effect_of_target {what : Placing C} {best : Node C}
    {s' : Scheduler C} {reply : Reply} (hversion : ∀ v ∈ expected, v = s.version)
    (hbest : bestNodeAmong plugins job s.nodes = some best)
    (hplace : s.place plugins job best = some s')
    (hplan : s.target plugins job = some best →
      s.plan plugins what = .ok ([], [placementOn job best.id])) (hjob : job ∈ what.jobs) :
    Effect plugins s (.place what expected) s' (.ok reply) := by
  obtain ⟨bound, hbind, _⟩ := Option.map_eq_some_iff.mp hplace
  refine effect_of_place victims_nil hversion (lookup_bestNodeAmong hbest) hplace (hplan ?_) hjob
  simp [target, hbest, hbind]

theorem effect_preemptVictims {order : Shuffle (Placement C)}
    (hversion : ∀ v ∈ expected, v = s.version) (htarget : s.target plugins job = none) :
    Effect plugins s (.place (.preempt job order) expected)
      (s.preemptVictims plugins job order).1 (s.preemptVictims plugins job order).2 := by
  unfold preemptVictims
  cases hbest : s.bestPlan plugins job order with
  | none => exact .evicts victims_nil hversion (by simp [plan, htarget, hbest])
  | some chosen =>
    obtain ⟨nodeID, victims⟩ := chosen
    obtain ⟨_, hvictims, hnodeIDs⟩ := bestPlan_spec hbest
    have hlookup := lookup_foldl_evict (s := s) hnodeIDs
    dsimp only
    cases hnode : (victims.foldl evict s).nodes.lookup nodeID with
    | none =>
      rw [hnode] at hlookup
      refine .evicts hvictims hversion ?_
      simp [plan, htarget, hbest, Option.map_eq_none_iff.mp hlookup.symm]
    | some node =>
      rw [hnode] at hlookup
      obtain ⟨before, hbefore, rfl⟩ := Option.map_eq_some_iff.mp hlookup.symm
      dsimp only
      cases hplace : (victims.foldl evict s).place plugins job (before.freed victims) with
      | none =>
        have hbind : runBind plugins job (before.freed victims) = none :=
          Option.map_eq_none_iff.mp hplace
        refine .evicts hvictims hversion ?_
        simp [plan, htarget, hbest, hbefore, hbind]
      | some s' =>
        obtain ⟨bound, hbind, _⟩ := Option.map_eq_some_iff.mp hplace
        rw [← Table.key_of_lookup hnode] at hnode
        have hplan : s.plan plugins (.preempt job order) =
            .ok (victims, [placementOn job (before.freed victims).id]) := by
          simp [plan, htarget, hbest, hbefore, hbind, id_of_runBind hbind]
        exact effect_of_place hvictims hversion hnode hplace hplan mem_cons_self

theorem effect_placing (what : Placing C)
    (hversion : ∀ v ∈ expected, v = s.version) :
    Effect plugins s (.place what expected) (s.placing plugins what).1
      (s.placing plugins what).2 := by
  cases what with
  | schedule job =>
    rw [placing]
    unfold schedule
    split
    · next hnone =>
      exact .evicts victims_nil hversion (by simp [plan, target_eq_none (s := s), hnone])
    · next best hbest =>
      split
      · next hplace =>
        have htarget : s.target plugins job = none := target_eq_none (by simp [hbest, hplace])
        exact .evicts victims_nil hversion (by simp [plan, htarget])
      · next s' hplace =>
        exact effect_of_target hversion hbest hplace (fun h => by simp [plan, h]) mem_cons_self
  | gang jobs =>
    rw [placing]
    unfold scheduleGang
    split
    · next hempty => exact .evicts victims_nil hversion (if_pos hempty)
    next hjobs =>
    split
    · next hnone => exact .evicts victims_nil hversion (by simp [plan, hjobs, hnone])
    · next shadow planned hplan =>
      exact .places victims_nil hversion (by simp [plan, hjobs, hplan]) (planGang_spec hplan).1
        fun p hp => mem_gangPlacements hp
  | preempt job order =>
    rw [placing]
    unfold schedulePreempt
    split
    · next hnone => exact effect_preemptVictims hversion (target_eq_none (by simp [hnone]))
    · next best hbest =>
      split
      · next hplace =>
        exact effect_preemptVictims hversion (target_eq_none (by simp [hbest, hplace]))
      · next s' hplace =>
        exact effect_of_target hversion hbest hplace (fun h => by simp [plan, h]) mem_cons_self

theorem effect_releasePlacement (jobID : Str) {call : Call C} (hcall : call.Releasing) :
    Effect plugins s call (s.releasePlacement jobID).1 (.ok (s.releasePlacement jobID).2) := by
  unfold releasePlacement
  split
  · exact .findsNone hcall
  · next p hp =>
    obtain rfl := Table.key_of_lookup hp
    exact .releases hcall hp

theorem effect_perform (plugins : List (Plugin C)) (s : Scheduler C) (call : Call C) :
    Effect plugins s call (s.perform plugins call).1 (s.perform plugins call).2 := by
  cases call with
  | registerNode n => exact .registers
  | unregisterNode id => exact .unregisters
  | complete jobID => exact effect_releasePlacement jobID ⟨jobID, .inl rfl⟩
  | release jobID => exact effect_releasePlacement jobID ⟨jobID, .inr rfl⟩
  | place what expected =>
    cases expected with
    | none => exact effect_placing what nofun
    | some expected =>
      unfold perform
      dsimp only
      split_ifs with hne
      · exact .conflicts (Ne.symm hne)
      · exact effect_placing what (by simpa using (not_not.mp hne).symm)

end HelixCluster.Omega
