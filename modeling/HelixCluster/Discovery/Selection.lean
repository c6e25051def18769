import HelixCluster.Lib.GoMap
import HelixCluster.Lib.SmoothRoundRobin
import HelixCluster.Lib.Order

/-!
# The weighted selector

`WeightedSelector` of `pkg/discovery/selection.go`.
-/

namespace HelixCluster.Discovery

open Option SmoothRoundRobin
open List hiding next

/-- `Instance`. A `LastSeen` counts the nanoseconds since the zero time. -/
structure Instance where
  id : Str
  service : Str
  address : Str
  port : Int64
  metadata : Option (GoMap Str Str)
  healthy : Bool
  lastSeen : ℤ
  ttl : Int64
  weight : ℤ
  deriving DecidableEq

def effectiveWeight (inst : Instance) : ℤ := if inst.weight ≤ 0 then 1 else inst.weight

theorem effectiveWeight_pos (inst : Instance) : 0 < effectiveWeight inst := by
  unfold effectiveWeight
  split_ifs <;> omega

/-- The comparison of `sort.Slice`. -/
def idLess (a b : Instance) : Bool := a.id < b.id

structure WeightedSelector where
  current : GoMap Str ℤ

def newWeightedSelector : WeightedSelector := ⟨∅⟩

/-- The variables of the loop over the instances. -/
structure Turn where
  total : ℤ
  best : Option Instance
  bestCurrent : ℤ
  current : GoMap Str ℤ

/-- The body of the loop. -/
def Turn.visit (t : Turn) (inst : Instance) : Turn :=
  let w := effectiveWeight inst
  let cur := t.current.read inst.id 0 + w
  let better := t.best = none ∨ t.bestCurrent < cur
  { total := t.total + w
    best := if better then some inst else t.best
    bestCurrent := if better then cur else t.bestCurrent
    current := t.current.insert inst.id cur }

/-- The body of the loop that deletes the running weights of the IDs that are not present. -/
def pruneOne (present : List Str) (m : GoMap Str ℤ) (id : Str) : GoMap Str ℤ :=
  if id ∈ present then m else m.erase id

def prune (present : List Str) (current : GoMap Str ℤ) : GoMap Str ℤ :=
  current.keys.foldl (pruneOne present) current

def WeightedSelector.pick (sorting : SortSlice idLess) (s : WeightedSelector) (instances : List Instance) :
    WeightedSelector × Option Instance :=
  if instances = [] then (s, none)
  else
    let ordered := sorting.sort instances
    let t := ordered.foldl Turn.visit ⟨0, none, 0, prune (ordered.map Instance.id) s.current⟩
    match t.best with
    | some best => (⟨t.current.insert best.id (t.current.read best.id 0 - t.total)⟩, some best)
    | none => (⟨t.current⟩, none)

/-! ### The loops -/

theorem read_pruneOne (present : List Str) (m : GoMap Str ℤ) (key id : Str) :
    (pruneOne present m key).read id 0 = if id = key ∧ key ∉ present then 0 else m.read id 0 := by
  unfold pruneOne
  by_cases hkey : key ∈ present
  · rw [if_pos hkey, if_neg fun h => h.2 hkey]
  rw [if_neg hkey, GoMap.read_erase_if]
  by_cases hid : id = key
  · rw [if_pos hid, if_pos ⟨hid, hkey⟩]
  · rw [if_neg hid, if_neg fun h => hid h.1]

variable {present : List Str}

theorem read_foldl_pruneOne_of_mem {id : Str} (hid : id ∈ present)
    (keys : List Str) (m : GoMap Str ℤ) :
    (keys.foldl (pruneOne present) m).read id 0 = m.read id 0 := by
  induction keys generalizing m with
  | nil => rfl
  | cons key keys ih =>
    rw [foldl_cons, ih, read_pruneOne, if_neg]
    rintro ⟨rfl, hkey⟩
    exact hkey hid

variable {m : GoMap Str ℤ}

theorem read_foldl_pruneOne_of_notMem {id : Str} (hid : id ∉ present)
    {keys : List Str} (h : id ∈ keys ∨ m.read id 0 = 0) :
    (keys.foldl (pruneOne present) m).read id 0 = 0 := by
  induction keys generalizing m with
  | nil => exact h.resolve_left not_mem_nil
  | cons key keys ih =>
    refine ih ?_
    rw [read_pruneOne]
    by_cases hkey : id = key
    · exact .inr (if_pos ⟨hkey, hkey ▸ hid⟩)
    · rw [if_neg fun h => hkey h.1]
      exact h.imp_left fun hmem => (mem_cons.mp hmem).resolve_left hkey

theorem read_prune (present : List Str) (m : GoMap Str ℤ) (id : Str) :
    (prune present m).read id 0 = if id ∈ present then m.read id 0 else 0 := by
  split_ifs with hid
  · exact read_foldl_pruneOne_of_mem hid m.keys m
  refine read_foldl_pruneOne_of_notMem hid ?_
  by_cases hkey : id ∈ m.keys
  · exact .inl hkey
  · exact .inr (by rw [GoMap.read, AList.lookup_eq_none.mpr hkey, getD_none])

/-- The running weight of an ID. -/
def WeightedSelector.view (s : WeightedSelector) (id : Str) : ℤ := s.current.read id 0

/-- The weights by ID. -/
def weightOf (instances : List Instance) (id : Str) : ℤ :=
  (instances.find? fun inst => inst.id = id).elim 0 effectiveWeight

variable {inst : Instance}

theorem weightOf_eq {instances : List Instance} (hid : (instances.map Instance.id).Nodup)
    (hinst : inst ∈ instances) : weightOf instances inst.id = effectiveWeight inst := by
  unfold weightOf
  cases hfind : instances.find? fun i => i.id = inst.id with
  | none => exact absurd (List.find?_eq_none.mp hfind inst hinst) (by simp)
  | some found =>
    have hfound : found.id = inst.id := by simpa using List.find?_some hfind
    rw [inj_on_of_nodup_map hid (mem_of_find?_eq_some hfind) hinst hfound]
    rfl

/-- What the loop has done after some instances, from weights `c`, which have grown to `b`. -/
structure Visited (c b : Str → ℤ) (done : List Instance) (t : Turn) : Prop where
  total : t.total = (done.map effectiveWeight).sum
  best : t.best.map Instance.id = bestOf b (done.map Instance.id)
  mem : ∀ inst ∈ t.best, inst ∈ done ∧ t.bestCurrent = b inst.id
  current : ∀ id, t.current.read id 0 = if id ∈ done.map Instance.id then b id else c id

variable {c b : Str → ℤ} {done : List Instance}

theorem Visited.visit {t : Turn}
    (h : Visited c b done t) (hnew : inst.id ∉ done.map Instance.id)
    (hb : b inst.id = c inst.id + effectiveWeight inst) :
    Visited c b (done ++ [inst]) (t.visit inst) := by
  have hcur : t.current.read inst.id 0 + effectiveWeight inst = b inst.id := by
    rw [h.current, if_neg hnew, hb]
  constructor
  · show t.total + effectiveWeight inst = _
    rw [h.total, map_append, sum_append, map_singleton, sum_singleton]
  · rw [map_append, map_singleton, bestOf_concat, ← h.best]
    show Option.map Instance.id (if t.best = none ∨ t.bestCurrent < _ then some inst else t.best) = _
    rw [hcur]
    cases hbest : t.best with
    | none => rw [if_pos (.inl rfl)]; rfl
    | some best =>
      rw [(h.mem best hbest).2]
      by_cases hlt : b best.id < b inst.id
      · rw [if_pos (.inr hlt), map_some, map_some, elim_some, if_pos hlt]
      · rw [if_neg (by simpa using hlt), map_some, elim_some, if_neg hlt]
  · show ∀ i ∈ (if t.best = none ∨ t.bestCurrent < _ then some inst else t.best), _ ∧
      (if t.best = none ∨ t.bestCurrent < _ then _ else t.bestCurrent) = b i.id
    rw [hcur]
    intro i hi
    split_ifs at hi ⊢ with hbetter
    · cases hi
      exact ⟨mem_append_right _ (mem_singleton_self inst), rfl⟩
    · obtain ⟨hmem, hvalue⟩ := h.mem i hi
      exact ⟨mem_append_left _ hmem, hvalue⟩
  intro id
  show GoMap.read (t.current.insert inst.id _) id 0 = _
  rw [GoMap.read_insert_if, hcur, h.current, map_append, map_singleton]
  by_cases hid : id = inst.id
  · subst hid
    rw [if_pos rfl, if_pos (mem_append_right _ (mem_singleton_self _))]
  rw [if_neg hid]
  refine if_congr ?_ rfl rfl
  rw [mem_append, mem_singleton, or_iff_left hid]

theorem visited_foldl (hid : (done.map Instance.id).Nodup)
    (hb : ∀ inst ∈ done, b inst.id = c inst.id + effectiveWeight inst)
    (hm : ∀ id, m.read id 0 = c id) : Visited c b done (done.foldl Turn.visit ⟨0, none, 0, m⟩) := by
  induction done using List.reverseRecOn with
  | nil => exact ⟨rfl, rfl, fun inst hinst => absurd hinst (not_mem_none inst), hm⟩
  | append_singleton done inst ih =>
    rw [map_append, map_singleton, nodup_append] at hid
    have hdone := ih hid.1 fun i hi => hb i (mem_append_left _ hi)
    have hnew : inst.id ∉ done.map Instance.id :=
      fun hmem => hid.2.2 _ hmem _ (mem_singleton_self _) rfl
    rw [foldl_append, foldl_cons, foldl_nil]
    exact hdone.visit hnew (hb inst (mem_append_right _ (mem_singleton_self inst)))

/-! ### A call is a turn -/

/-- The rule of the selector for instances in the order of their IDs. -/
def rule (x : Instance) (xs : List Instance) : Chooser (x.id :: xs.map Instance.id).toFinset :=
  Chooser.first x.id (xs.map Instance.id)

/-- The sum of the weights. -/
def totalWeight (instances : List Instance) : ℤ := (instances.map effectiveWeight).sum

theorem sum_weightOf {instances : List Instance} (hid : (instances.map Instance.id).Nodup) :
    ∑ id ∈ (instances.map Instance.id).toFinset, weightOf instances id = totalWeight instances := by
  rw [sum_toFinset _ hid, List.map_map, totalWeight]
  exact congrArg List.sum (map_congr_left fun inst hinst => weightOf_eq hid hinst)

variable {s : WeightedSelector}

theorem pick_view {sorting : SortSlice idLess} {instances : List Instance}
    {x : Instance} {xs : List Instance} (hordered : sorting.sort instances = x :: xs)
    (hid : ((x :: xs).map Instance.id).Nodup) :
    (s.pick sorting instances).1.view = next (rule x xs) (weightOf (x :: xs)) s.view ∧
      ∃ inst ∈ x :: xs, (s.pick sorting instances).2 = some inst ∧
        inst.id = picked (rule x xs) (weightOf (x :: xs)) s.view := by
  have hne : instances ≠ [] := by
    rintro rfl
    exact cons_ne_nil x xs (hordered.symm.trans (sorting.perm []).eq_nil)
  have hvisited := visited_foldl (c := fun id => if id ∈ (x :: xs).map Instance.id then s.view id else 0)
    (b := bump (weightOf (x :: xs)) s.view) hid
    (fun inst hinst => by rw [if_pos (mem_map_of_mem hinst), bump, weightOf_eq hid hinst])
    (read_prune ((x :: xs).map Instance.id) s.current)
  simp only [WeightedSelector.pick, if_neg hne, hordered]
  generalize (x :: xs).foldl Turn.visit _ = t at hvisited ⊢
  have hbest : t.best.map Instance.id = some (picked (rule x xs) (weightOf (x :: xs)) s.view) := hvisited.best
  obtain ⟨inst, hinst, hpicked⟩ := map_eq_some_iff.mp hbest
  obtain ⟨hmem, -⟩ := hvisited.mem inst hinst
  rw [hinst]
  refine ⟨funext fun id => ?_, inst, hmem, rfl, hpicked⟩
  show GoMap.read (t.current.insert inst.id _) id 0 = _
  rw [GoMap.read_insert_if, hvisited.current, hvisited.current, hvisited.total, next, ← hpicked,
    if_pos (mem_map_of_mem hmem)]
  have htotal : ∑ i ∈ (x.id :: xs.map Instance.id).toFinset, weightOf (x :: xs) i =
      ((x :: xs).map effectiveWeight).sum := sum_weightOf hid
  have hpeer : id ∈ (x.id :: xs.map Instance.id).toFinset ↔ id ∈ (x :: xs).map Instance.id :=
    mem_toFinset
  rw [htotal]
  rcases eq_or_ne id inst.id with rfl | hsame
  · rw [if_pos rfl, if_pos (hpeer.mpr (mem_map_of_mem hmem)), if_pos rfl]
  rw [if_neg hsame, if_neg hsame, sub_zero]
  by_cases hmem' : id ∈ (x :: xs).map Instance.id
  · rw [if_pos hmem', if_pos (hpeer.mpr hmem')]
  · rw [if_neg hmem', if_neg hmem', if_neg (hpeer.not.mpr hmem')]

/-! ### Runs -/

/-- The selector after some calls. -/
def pickAll (sorting : SortSlice idLess) (s : WeightedSelector) (calls : List (List Instance)) :
    WeightedSelector :=
  calls.foldl (fun s instances => (s.pick sorting instances).1) s

/-- What the calls return, in order. -/
def picks (sorting : SortSlice idLess) : WeightedSelector → List (List Instance) → List (Option Instance)
  | _, [] => []
  | s, instances :: calls => (s.pick sorting instances).2 :: picks sorting (s.pick sorting instances).1 calls

theorem nodup_sorted {sorting : SortSlice idLess} {instances sorted : List Instance}
    (hid : (instances.map Instance.id).Nodup) (hsorted : sorting.sort instances = sorted) :
    (sorted.map Instance.id).Nodup :=
  hsorted ▸ ((sorting.perm instances).map Instance.id).nodup_iff.mpr hid

theorem sort_eq_of_perm (sorting : SortSlice idLess) {instances call : List Instance}
    (hid : (instances.map Instance.id).Nodup) (hperm : call.Perm instances) :
    sorting.sort call = sorting.sort instances := by
  have hsorted : (sorting.sort call).Perm (sorting.sort instances) :=
    ((sorting.perm call).trans hperm).trans (sorting.perm instances).symm
  refine hsorted.eq_of_pairwise (fun a b ha hb hab hba => ?_) (sorting.ordered call) (sorting.ordered instances)
  have hid' : a.id = b.id := le_antisymm (not_lt.mp (of_decide_eq_false hab)) (not_lt.mp (of_decide_eq_false hba))
  refine inj_on_of_nodup_map hid ?_ ((sorting.perm instances).mem_iff.mp hb) hid'
  exact hperm.mem_iff.mp ((sorting.perm call).mem_iff.mp ha)


variable {calls : List (List Instance)}

theorem pickAll_nil {sorting : SortSlice idLess}
    (hcalls : ∀ call ∈ calls, call = []) : pickAll sorting s calls = s := by
  induction calls with
  | nil => rfl
  | cons call calls ih =>
    obtain ⟨rfl, hrest⟩ := forall_mem_cons.mp hcalls
    exact ih hrest

section Cycle

variable {sorting : SortSlice idLess} {instances : List Instance} {x : Instance} {xs : List Instance}
  {s : WeightedSelector} {n : ℕ}

section

variable (hid : (instances.map Instance.id).Nodup) (hsorted : sorting.sort instances = x :: xs) (hcalls : ∀ call ∈ calls, call.Perm instances) (hs : s.view = state (rule x xs) (weightOf (x :: xs)) n)

include hid hsorted hcalls hs

theorem pickAll_view :
    (pickAll sorting s calls).view = state (rule x xs) (weightOf (x :: xs)) (n + calls.length) := by
  induction calls generalizing s n with
  | nil => exact hs
  | cons call calls ih =>
    obtain ⟨hcall, hcalls⟩ := forall_mem_cons.mp hcalls
    have hordered := (sort_eq_of_perm sorting hid hcall).trans hsorted
    have hview : (s.pick sorting call).1.view = state (rule x xs) (weightOf (x :: xs)) (n + 1) := by
      rw [(pick_view hordered (nodup_sorted hid hsorted)).1, hs, state_succ]
    have hrest := ih hcalls hview
    rw [length_cons, Nat.add_comm calls.length, ← Nat.add_assoc]
    exact hrest

theorem count_picks (hinst : inst ∈ x :: xs) : (picks sorting s calls).count (some inst) =
      Nat.count (fun m => picked (rule x xs) (weightOf (x :: xs))
        (state (rule x xs) (weightOf (x :: xs)) (n + m)) = inst.id) calls.length := by
  induction calls generalizing s n with
  | nil => rfl
  | cons call calls ih =>
    obtain ⟨hcall, hcalls⟩ := forall_mem_cons.mp hcalls
    have hordered := (sort_eq_of_perm sorting hid hcall).trans hsorted
    obtain ⟨hview, found, hfound, hpick, hpicked⟩ := pick_view hordered (nodup_sorted hid hsorted) (s := s)
    rw [hs, ← state_succ] at hview
    rw [picks, count_cons, ih hcalls hview, length_cons, Nat.count_succ', hpick]
    have hsame : (some found == some inst) = true ↔
        picked (rule x xs) (weightOf (x :: xs)) (state (rule x xs) (weightOf (x :: xs)) (n + 0)) = inst.id := by
      rw [beq_iff_eq, some_inj, Nat.add_zero, ← hs, ← hpicked]
      exact ⟨congrArg Instance.id, inj_on_of_nodup_map (nodup_sorted hid hsorted) hfound hinst⟩
    simp only [hsame, Nat.add_right_comm n _ 1, ← Nat.add_assoc]

end

end Cycle

theorem weightOf_pos {x : Instance} {xs : List Instance} (hid : ((x :: xs).map Instance.id).Nodup) :
    ∀ id ∈ (x.id :: xs.map Instance.id).toFinset, 0 < weightOf (x :: xs) id := by
  intro id hpeer
  have hmem : id ∈ (x :: xs).map Instance.id := mem_toFinset.mp hpeer
  obtain ⟨inst, hinst, rfl⟩ := mem_map.mp hmem
  rw [weightOf_eq hid hinst]
  exact effectiveWeight_pos inst

theorem totalWeight_eq_sum {sorting : SortSlice idLess} {instances : List Instance} {x : Instance}
    {xs : List Instance} (hid : (instances.map Instance.id).Nodup) (hsorted : sorting.sort instances = x :: xs) :
    totalWeight instances = ∑ id ∈ (x.id :: xs.map Instance.id).toFinset, weightOf (x :: xs) id := by
  refine Eq.trans ?_ (sum_weightOf (nodup_sorted hid hsorted)).symm
  exact ((hsorted ▸ sorting.perm instances).symm.map effectiveWeight).sum_eq

theorem count_picks_window (sorting : SortSlice idLess) {instances : List Instance}
    (hid : (instances.map Instance.id).Nodup) {before window : List (List Instance)}
    (hcalls : ∀ call ∈ before ++ window, call.Perm instances)
    (hwindow : (window.length : ℤ) = totalWeight instances) (hinst : inst ∈ instances) :
    ((picks sorting (pickAll sorting newWeightedSelector before) window).count (some inst) : ℤ) =
      effectiveWeight inst := by
  cases hsorted : sorting.sort instances with
  | nil =>
    obtain rfl : instances = [] := (hsorted ▸ sorting.perm instances).symm.eq_nil
    exact absurd hinst not_mem_nil
  | cons x xs =>
    have hnodup := nodup_sorted hid hsorted
    obtain ⟨hbefore, hwindowCalls⟩ := forall_mem_append.mp hcalls
    have hmem : inst ∈ x :: xs := (hsorted ▸ sorting.perm instances).mem_iff.mpr hinst
    have hstart : newWeightedSelector.view = state (rule x xs) (weightOf (x :: xs)) 0 := rfl
    have hview := pickAll_view hid hsorted hbefore hstart
    rw [count_picks hid hsorted hwindowCalls hview hmem]
    have hcount := count_window (rule x xs) (weightOf_pos hnodup)
      (hwindow.trans (totalWeight_eq_sum hid hsorted)) (mem_toFinset.mpr (mem_map_of_mem hmem))
      (0 + before.length)
    rw [weightOf_eq hnodup hmem] at hcount
    exact hcount

theorem view_pickAll_cycles (sorting : SortSlice idLess) {instances : List Instance}
    (hid : (instances.map Instance.id).Nodup) (hcalls : ∀ call ∈ calls, call.Perm instances)
    (hdvd : totalWeight instances ∣ calls.length) (id : Str) :
    (pickAll sorting newWeightedSelector calls).view id = 0 := by
  cases hsorted : sorting.sort instances with
  | nil =>
    obtain rfl : instances = [] := (hsorted ▸ sorting.perm instances).symm.eq_nil
    rw [pickAll_nil fun call hcall => (hcalls call hcall).eq_nil]
    rfl
  | cons x xs =>
    have hpos := weightOf_pos (nodup_sorted hid hsorted)
    have hstart : newWeightedSelector.view = state (rule x xs) (weightOf (x :: xs)) 0 := rfl
    obtain ⟨cycle, hcycle⟩ := Int.eq_ofNat_of_zero_le (Finset.sum_nonneg fun id hid => (hpos id hid).le)
    rw [totalWeight_eq_sum hid hsorted, hcycle, Int.natCast_dvd_natCast] at hdvd
    obtain ⟨q, hq⟩ := hdvd
    rw [pickAll_view hid hsorted hcalls hstart, Nat.zero_add, hq, state_mul_cycle _ hpos hcycle.symm]

/-- Over a full cycle each instance is picked as often as its weight says, and no weight is left. -/
theorem picks_proportional (sorting : SortSlice idLess) {instances : List Instance}
    (hid : (instances.map Instance.id).Nodup) :
    (∀ before window : List (List Instance), (∀ call ∈ before ++ window, call.Perm instances) →
      (window.length : ℤ) = totalWeight instances → ∀ inst ∈ instances,
        ((picks sorting (pickAll sorting newWeightedSelector before) window).count (some inst) : ℤ) =
          effectiveWeight inst) ∧
    ∀ calls : List (List Instance), (∀ call ∈ calls, call.Perm instances) →
      totalWeight instances ∣ calls.length → ∀ id, (pickAll sorting newWeightedSelector calls).view id = 0 :=
  ⟨fun _ _ hcalls hwindow _ hinst => count_picks_window sorting hid hcalls hwindow hinst,
    fun _ hcalls hdvd id => view_pickAll_cycles sorting hid hcalls hdvd id⟩

/-- Sorting by ID. -/
def idSort : SortSlice idLess :=
  SortSlice.insertionSort idLess (fun a b c hab hbc => by
    simp only [idLess, decide_eq_false_iff_not, not_lt] at hab hbc ⊢
    exact hab.trans hbc) fun a b => by
    simp only [idLess, decide_eq_false_iff_not, not_lt]
    exact le_total a.id b.id

/-- An instance of the service `s`. -/
def sample (id : UInt8) (weight : ℤ) : Instance := ⟨[id], [115], [], 0, none, true, 1, -1, weight⟩

/-- Weights 2 and 1, with the instances in both orders. -/
theorem sample_proportional :
    ((picks idSort (pickAll idSort newWeightedSelector [[sample 97 2, sample 98 0]])
      [[sample 98 0, sample 97 2], [sample 97 2, sample 98 0], [sample 97 2, sample 98 0]]).count
        (some (sample 97 2)) : ℤ) = 2 ∧ (pickAll idSort newWeightedSelector
      [[sample 98 0, sample 97 2], [sample 97 2, sample 98 0], [sample 97 2, sample 98 0]]).view [97] = 0 := by
  have hid : ([sample 97 2, sample 98 0].map Instance.id).Nodup := by decide
  obtain ⟨hcount, hzero⟩ := picks_proportional idSort hid
  exact ⟨hcount _ _ (by decide) (by decide) (sample 97 2) (by decide), hzero _ (by decide) (by decide) [97]⟩

end HelixCluster.Discovery
