import HelixCluster.Omega.Effects

/-!
# Resources that are bound

If only `NodeResourcesFit` binds resources, then what jobs take from a node was available and is
taken one after the other (`debits_binds`).
-/

namespace HelixCluster.Omega

open List Scheduler

variable {C : Type}

/-- Plugins of which only `NodeResourcesFit` changes the available resources of a node. -/
structure FitOnly (C : Type) where
  before : List (Plugin C)
  after : List (Plugin C)
  passive : ∀ p ∈ before ++ after, ∀ job node r, p.bind job node = some r → r = node.available

/-- The resources of the placements on a node. -/
def resourcesOn (id : Str) (ps : List (Placement C)) : List (Resources C) :=
  (ps.filter fun p => p.nodeID = id).map Placement.resources

theorem runBind_passive {plugins : List (Plugin C)}
    (h : ∀ p ∈ plugins, ∀ job node r, p.bind job node = some r → r = node.available) {job : Job C}
    {node bound : Node C} (hbind : runBind plugins job node = some bound) : bound = node := by
  induction plugins generalizing node with
  | nil => exact (Option.some.inj hbind).symm
  | cons p plugins ih =>
    obtain ⟨next, hnext, hrest⟩ := Option.bind_eq_some_iff.mp hbind
    obtain ⟨r, hr, rfl⟩ := Option.map_eq_some_iff.mp hnext
    obtain rfl := h p mem_cons_self job node r hr
    exact ih (fun q hq => h q (mem_cons_of_mem _ hq)) hrest

variable {nodes nodes' : Nodes C} {ps : List (Placement C)}

theorem domain_binds {plugins : List (Plugin C)} (hbinds : Binds plugins nodes ps nodes') :
    (∀ id, nodes'.lookup id = none ↔ nodes.lookup id = none) ∧
      ∀ p ∈ ps, nodes.lookup p.nodeID ≠ none := by
  induction hbinds with
  | nil => exact ⟨fun _ => Iff.rfl, nofun⟩
  | @cons nodes nodes' job node bound ps hlookup hbind hrest ih =>
    have hset : ∀ id, (nodes.set bound).lookup id = none ↔ nodes.lookup id = none := by
      intro id
      rw [Table.lookup_set, id_of_runBind hbind]
      split
      · next hid => simp [hid, hlookup]
      · rfl
    refine ⟨fun id => (ih.1 id).trans (hset id), forall_mem_cons.mpr ⟨?_, fun p hp => ?_⟩⟩
    · show nodes.lookup node.id ≠ none
      simp [hlookup]
    · exact fun hnone => ih.2 p hp ((hset _).mpr hnone)

variable [Cpu C] [DecidableLE C] [DecidableLT C]

def FitOnly.plugins (fit : FitOnly C) : List (Plugin C) := fit.before ++ nodeResourcesFit :: fit.after

/-- Resources are taken one after the other, each of them available. -/
def Resources.Debits : Resources C → List (Resources C) → Resources C → Prop
  | a, [], b => b = a
  | a, r :: rs, b => a.covers r ∧ (a.sub r).Debits rs b

theorem runBind_fit {fit : FitOnly C} {job : Job C} {node bound : Node C}
    (hbind : runBind fit.plugins job node = some bound) : node.available.covers job.resources ∧
      bound = { node with available := node.available.sub job.resources } := by
  unfold runBind FitOnly.plugins at hbind
  rw [foldlM_append] at hbind
  obtain ⟨first, hbefore, hrest⟩ := Option.bind_eq_some_iff.mp hbind
  obtain ⟨second, hfit, hafter⟩ := Option.bind_eq_some_iff.mp hrest
  have hfirst := runBind_passive (fun p hp => fit.passive p (mem_append_left _ hp)) hbefore
  have hsecond := runBind_passive (fun p hp => fit.passive p (mem_append_right _ hp)) hafter
  subst hfirst hsecond
  obtain ⟨r, hr, rfl⟩ := Option.map_eq_some_iff.mp hfit
  unfold nodeResourcesFit at hr
  dsimp only at hr
  split at hr
  · next hcovers => exact ⟨hcovers, by rw [Option.some.inj hr]⟩
  · cases hr

theorem debits_binds {fit : FitOnly C} (hbinds : Binds fit.plugins nodes ps nodes') {id : Str}
    {node' : Node C} (hnode' : nodes'.lookup id = some node') : ∃ old, nodes.lookup id = some old ∧
      old.available.Debits (resourcesOn id ps) node'.available := by
  induction hbinds with
  | nil => exact ⟨node', hnode', rfl⟩
  | @cons nodes nodes' job node bound ps hlookup hbind hrest ih =>
    obtain ⟨hcovers, rfl⟩ := runBind_fit hbind
    obtain ⟨middle, hmiddle, hdebits⟩ := ih hnode'
    rw [Table.lookup_set] at hmiddle
    change (if id = node.id then _ else _) = _ at hmiddle
    split_ifs at hmiddle with hid
    · cases hmiddle
      refine ⟨node, hid ▸ hlookup, ?_⟩
      rw [resourcesOn, filter_cons_of_pos (by simp [placementOn, hid])]
      exact ⟨hcovers, hdebits⟩
    · refine ⟨middle, hmiddle, ?_⟩
      rwa [resourcesOn, filter_cons_of_neg (by simp [placementOn, Ne.symm hid])]

end HelixCluster.Omega
