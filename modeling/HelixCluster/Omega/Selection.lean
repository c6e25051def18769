import HelixCluster.Omega.State

/-!
# The node that is chosen

The loop of `bestNodeAmong` starts from the score `-1`, so it finds no node where all scores are
negative, although nodes pass the filters (`schedulable_iff`).
-/

namespace HelixCluster.Omega

open List Scheduler

variable {C : Type}

/-- A registered node that passes all filters. -/
def Passing (plugins : List (Plugin C)) (job : Job C) (nodes : Nodes C) (node : Node C) : Prop :=
  nodes.lookup node.id = some node ∧ runFilters plugins job node

/-- A passing node of the highest score, with the smallest ID among those. -/
structure Chosen (plugins : List (Plugin C)) (job : Job C) (nodes : Nodes C) (node : Node C) :
    Prop where
  passing : Passing plugins job nodes node
  best : ∀ other, Passing plugins job nodes other →
    runScorers plugins job other ≤ runScorers plugins job node ∧
      (runScorers plugins job other = runScorers plugins job node → node.id ≤ other.id)

/-- All calls that place a single job place it on the node. -/
structure PlacesOn [Cpu C] (plugins : List (Plugin C)) (s : Scheduler C) (job : Job C)
    (nodeID : Str) : Prop where
  schedule : (s.schedule plugins job).2 = .ok (.scheduled nodeID)
  scheduleOptimistic :
    (s.perform plugins (.place (.schedule job) (some s.version))).2 = .ok (.scheduled nodeID)
  scheduleGang : (s.scheduleGang plugins [job]).2 = .ok (.gang [(job.id, nodeID)])

variable {plugins : List (Plugin C)} {job : Job C} {nodes : Nodes C} {ids : List Str}
  {r : Option (Node C) × Int64} {id : Str}

/-- What the loop has found among the nodes with these IDs. -/
structure Found (plugins : List (Plugin C)) (job : Job C) (nodes : Nodes C) (ids : List Str)
    (r : Option (Node C) × Int64) : Prop where
  score : r.2 = r.1.elim (-1) (runScorers plugins job)
  passing : ∀ best ∈ r.1, Passing plugins job nodes best ∧ best.id ∈ ids ∧ 0 ≤ r.2
  best : ∀ other, Passing plugins job nodes other → other.id ∈ ids →
    runScorers plugins job other ≤ r.2 ∧
      ∀ best ∈ r.1, runScorers plugins job other = r.2 → best.id ≤ other.id

section

variable (h : Found plugins job nodes ids r)

include h

theorem Found.nonneg_of_lt {score : Int64} (hlt : r.2 < score) : 0 ≤ score := by
  have hfloor : -1 ≤ r.2.toInt := by
    cases hbest : r.1 with
    | none => simp [h.score, hbest]
    | some best => exact (by decide : (-1 : ℤ) ≤ 0).trans (Int64.le_iff_toInt_le.mp (h.passing best hbest).2.2)
  have hlt := Int64.lt_iff_toInt_lt.mp hlt
  rw [Int64.le_iff_toInt_le, Int64.toInt_zero]
  omega

theorem Found.skip
    (hid : ∀ node, Passing plugins job nodes node → node.id = id → runScorers plugins job node ≤ r.2)
    (hle : ∀ i ∈ ids, i ≤ id) : Found plugins job nodes (ids ++ [id]) r where
  score := h.score
  passing best hbest := by
    obtain ⟨hpassing, hmem, hscore⟩ := h.passing best hbest
    exact ⟨hpassing, mem_append_left _ hmem, hscore⟩
  best other hother hmem := by
    rcases mem_append.mp hmem with hmem | hmem
    · exact h.best other hother hmem
    rw [mem_singleton] at hmem
    refine ⟨hid other hother hmem, fun best hbest _ => ?_⟩
    rw [hmem]
    exact hle _ (h.passing best hbest).2.1

theorem Found.better (hle : ∀ i ∈ ids, i ≤ id) :
    Found plugins job nodes (ids ++ [id]) (better plugins job nodes r id) := by
  unfold Scheduler.better
  split
  · next hnone =>
    refine h.skip (fun node hnode hid => ?_) hle
    cases (hid ▸ hnode.1).symm.trans hnone
  · next node hnode =>
    have hsame : ∀ other, Passing plugins job nodes other → other.id = id → other = node :=
      fun other hother hid => Option.some.inj ((hid ▸ hother.1).symm.trans hnode)
    obtain rfl := Table.key_of_lookup hnode
    split
    · next hpasses =>
      dsimp only
      split
      · next hscore =>
        refine ⟨rfl, ?_, fun other hother hmem => ?_⟩
        · rintro _ ⟨⟩
          exact ⟨⟨hnode, hpasses⟩, by simp, h.nonneg_of_lt hscore⟩
        rcases mem_append.mp hmem with hmem | hmem
        · have hlt := Int64.lt_of_le_of_lt (h.best other hother hmem).1 hscore
          exact ⟨Int64.le_of_lt hlt, fun _ _ heq => absurd heq (Int64.ne_of_lt hlt)⟩
        obtain rfl := hsame other hother (mem_singleton.mp hmem)
        refine ⟨Int64.le_refl _, ?_⟩
        rintro _ ⟨⟩ _
        exact le_rfl
      · next hscore =>
        refine h.skip (fun other hother hid => ?_) hle
        rw [hsame other hother hid]
        exact Int64.not_lt.mp hscore
    · next hfails =>
      refine h.skip (fun other hother hid => ?_) hle
      exact absurd (hsame other hother hid ▸ hother.2) hfails

theorem Found.foldl {more : List Str} (hsorted : (ids ++ more).Pairwise (· ≤ ·)) :
    Found plugins job nodes (ids ++ more) (more.foldl (Scheduler.better plugins job nodes) r) := by
  induction more generalizing ids r with
  | nil => rwa [append_nil]
  | cons id more ih =>
    rw [append_cons] at hsorted ⊢
    refine ih (h.better fun i hi => ?_) hsorted
    exact (pairwise_append.mp (pairwise_append.mp hsorted).1).2.2 i hi id (mem_singleton_self id)

end

theorem found_all (plugins : List (Plugin C)) (job : Job C) (nodes : Nodes C) :
    ∃ r, bestNodeAmong plugins job nodes = r.1 ∧
      Found plugins job nodes (nodes.map.keys.insertionSort (· ≤ ·)) r := by
  have hstart : Found plugins job nodes [] (none, -1) :=
    ⟨rfl, nofun, nofun⟩
  exact ⟨_, rfl, hstart.foldl (pairwise_insertionSort (· ≤ ·) _)⟩

theorem Passing.mem {node : Node C} (h : Passing plugins job nodes node) :
    node.id ∈ nodes.map.keys.insertionSort (· ≤ ·) := by
  rw [mem_insertionSort]
  exact GoMap.mem_of_lookup h.1

theorem chosen_of_bestNodeAmong {best : Node C} (h : bestNodeAmong plugins job nodes = some best) :
    Chosen plugins job nodes best ∧ 0 ≤ runScorers plugins job best := by
  obtain ⟨⟨_, score⟩, hr, hfound⟩ := found_all plugins job nodes
  obtain rfl := h.symm.trans hr
  obtain rfl : score = runScorers plugins job best := hfound.score
  obtain ⟨hpassing, _, hscore⟩ := hfound.passing best rfl
  refine ⟨⟨hpassing, fun other hother => ?_⟩, hscore⟩
  obtain ⟨hle, htie⟩ := hfound.best other hother hother.mem
  exact ⟨hle, htie best rfl⟩

theorem bestNodeAmong_ne_none {node : Node C} (h : Passing plugins job nodes node)
    (hscore : 0 ≤ runScorers plugins job node) : bestNodeAmong plugins job nodes ≠ none := by
  obtain ⟨⟨best, score⟩, hr, hfound⟩ := found_all plugins job nodes
  rw [hr]
  rintro rfl
  obtain rfl : score = -1 := hfound.score
  have hle : (0 : Int64) ≤ -1 := Int64.le_trans hscore (hfound.best node h h.mem).1
  exact absurd hle (by decide)

theorem placesOn_of_best [Cpu C] {s : Scheduler C} {best bound : Node C}
    (hbest : bestNodeAmong plugins job s.nodes = some best)
    (hbound : runBind plugins job best = some bound) : PlacesOn plugins s job best.id := by
  have hschedule : (s.schedule plugins job).2 = .ok (.scheduled best.id) := by
    simp [schedule, place, hbest, hbound]
  refine ⟨hschedule, ?_, ?_⟩
  · simpa [perform, placing] using hschedule
  · simp [scheduleGang, planGang, hbest, hbound]

/-- **A schedulable job is scheduled** on the best node, if and only if some passing score is not
negative. -/
theorem schedulable_iff [Cpu C] (s : Scheduler C) (job : Job C)
    (hbind : ∀ node, runFilters plugins job node → runBind plugins job node ≠ none) :
    ((∃ node, Passing plugins job s.nodes node) →
        ∃ node, Chosen plugins job s.nodes node ∧ PlacesOn plugins s job node.id) ↔
      ((∃ node, Passing plugins job s.nodes node) →
        ∃ node, Passing plugins job s.nodes node ∧ 0 ≤ runScorers plugins job node) := by
  refine imp_congr_right fun _ => ⟨?_, ?_⟩
  · rintro ⟨node, _, hplaces⟩
    have hschedule := hplaces.schedule
    unfold schedule at hschedule
    split at hschedule
    · cases hschedule
    · next best hbest =>
      obtain ⟨hchosen, hscore⟩ := chosen_of_bestNodeAmong hbest
      exact ⟨best, hchosen.passing, hscore⟩
  rintro ⟨node, hpassing, hscore⟩
  obtain ⟨best, hbest⟩ := Option.ne_none_iff_exists'.mp (bestNodeAmong_ne_none hpassing hscore)
  obtain ⟨hchosen, _⟩ := chosen_of_bestNodeAmong hbest
  obtain ⟨bound, hbound⟩ := Option.ne_none_iff_exists'.mp (hbind best hchosen.passing.2)
  exact ⟨best, hchosen, placesOn_of_best hbest hbound⟩

/-- A plugin that gives the node with the ID `b` one score and the others another one. -/
def scored (b others : Int64) : Plugin ℚ :=
  ⟨fun _ _ => true, fun _ node => if node.id = [98] then b else others, fun _ node => some node.available⟩

/-- An empty node that is the only one. -/
def lone : Scheduler ℚ := newScheduler.registerNode ⟨[110], ⟨0, 0, 0⟩, ∅⟩

def idleJob : Job ℚ := ⟨[106], ⟨0, 0, 0⟩, 0, ∅⟩

/-- With a score of zero on `b` and a negative one on the other node. -/
theorem zero_score_placed :
    let s := lone.registerNode ⟨[98], ⟨0, 0, 0⟩, ∅⟩
    ∃ node, Chosen [scored 0 (-2)] idleJob s.nodes node ∧
      PlacesOn [scored 0 (-2)] s idleJob node.id := by
  have hpassing : Passing [scored 0 (-2)] idleJob (lone.registerNode ⟨[98], ⟨0, 0, 0⟩, ∅⟩).nodes
      ⟨[98], ⟨0, 0, 0⟩, ∅⟩ := ⟨rfl, rfl⟩
  have hbind : ∀ node, runFilters [scored 0 (-2)] idleJob node →
      runBind [scored 0 (-2)] idleJob node ≠ none := fun node _ => Option.some_ne_none node
  exact (schedulable_iff _ idleJob hbind).mpr (fun _ => ⟨_, hpassing, by decide⟩) ⟨_, hpassing⟩

theorem negative_score_unplaced : Passing [scored (-1) (-1)] idleJob lone.nodes ⟨[110], ⟨0, 0, 0⟩, ∅⟩ ∧
      (lone.schedule [scored (-1) (-1)] idleJob).2 = .error .noNodeAvailable ∧
      (lone.perform [scored (-1) (-1)] (.place (.schedule idleJob) (some lone.version))).2 =
        .error .noNodeAvailable ∧
      (lone.scheduleGang [scored (-1) (-1)] [idleJob]).2 = .error .gangNotAllPlaced :=
  ⟨⟨rfl, rfl⟩, rfl, rfl, rfl⟩

end HelixCluster.Omega
