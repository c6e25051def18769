import HelixCluster.Discovery.Lookup

/-!
# Balance between services

`Select` looks a service up and lets the one selector of the registry pick.
-/

namespace HelixCluster.Discovery

open SmoothRoundRobin
open List hiding next

/-! ### The calls -/

/-- The test that `Select` repeats after `Lookup`. -/
def Instance.selectable (inst : Instance) (now : ℤ) : Bool :=
  inst.healthy ∧ ¬(0 < inst.ttl ∧ inst.lastSeen ≠ 0 ∧ inst.ttl < timeSub now inst.lastSeen)

/-- A call of `Select`. The clock is read once by `Lookup` and once after it. -/
structure SelectCall where
  service : Str
  order : RangeOrder
  found : ℤ
  now : ℤ

namespace ServiceRegistry

/-- What `Select` lets the selector pick from. -/
def eligible (r : ServiceRegistry) (call : SelectCall) : List Instance :=
  (r.lookup call.order call.found call.service).filter fun inst => inst.selectable call.now

def select (r : ServiceRegistry) (sorting : SortSlice idLess) (call : SelectCall) :
    ServiceRegistry × Except DiscoveryError Instance :=
  let picked := r.selector.pick sorting (r.eligible call)
  ({ r with selector := picked.1 }, picked.2.elim (.error .noInstances) .ok)

/-- What the calls return, in order, each with the service it was for. -/
def selections (sorting : SortSlice idLess) :
    ServiceRegistry → List SelectCall → List (Str × Option Instance)
  | _, [] => []
  | r, call :: calls =>
    (call.service, (r.select sorting call).2.toOption) :: selections sorting (r.select sorting call).1 calls

/-- The instances of a service. -/
def offered (r : ServiceRegistry) (service : Str) : List Instance :=
  (r.backend.data.entries.map Sigma.snd).filter fun inst => inst.service = service

/-- No instance is expired. -/
def Unexpired (r : ServiceRegistry) (now : ℤ) : Prop :=
  ∀ entry ∈ r.backend.data.entries,
    ¬(0 < entry.2.ttl ∧ entry.2.lastSeen ≠ 0 ∧ entry.2.ttl < timeSub now entry.2.lastSeen)

instance decidableUnexpired (r : ServiceRegistry) (now : ℤ) : Decidable (r.Unexpired now) :=
  inferInstanceAs (Decidable (∀ entry ∈ r.backend.data.entries,
    ¬(0 < entry.2.ttl ∧ entry.2.lastSeen ≠ 0 ∧ entry.2.ttl < timeSub now entry.2.lastSeen)))

/-- Healthy instances under their own names, without a `/` and with distinct IDs. -/
structure Stable (r : ServiceRegistry) : Prop where
  key_eq : ∀ entry ∈ r.backend.data.entries, entry.1 = instanceKey entry.2.service entry.2.id
  service : ∀ entry ∈ r.backend.data.entries, slash ∉ entry.2.service
  healthy : ∀ entry ∈ r.backend.data.entries, entry.2.healthy = true
  distinct : (r.backend.data.entries.map fun entry => entry.2.id).Nodup

/-- The call is for a name without a `/`, at a time when no instance is expired. -/
structure Timely (r : ServiceRegistry) (call : SelectCall) : Prop where
  service : slash ∉ call.service
  found : r.Unexpired call.found
  now : r.Unexpired call.now

end ServiceRegistry

/-- What was picked for a service. -/
def picksOf (service : Str) (results : List (Str × Option Instance)) : List (Option Instance) :=
  (results.filter fun result => result.1 = service).map Prod.snd

variable {service : Str} {calls : List SelectCall}

variable {s : WeightedSelector} {before : List (Option Instance)}

variable {inst : Instance}

namespace ServiceRegistry

/-- Over any full cycle of its calls each instance is picked as often as its weight says. -/
def Balanced (r : ServiceRegistry) (sorting : SortSlice idLess) : Prop :=
  ∀ calls : List SelectCall, (∀ call ∈ calls, r.Timely call) → ∀ (service : Str)
    (before window after : List (Option Instance)),
    picksOf service (r.selections sorting calls) = before ++ window ++ after →
      (window.length : ℤ) = totalWeight (r.offered service) →
        ∀ inst ∈ r.offered service, (window.count (some inst) : ℤ) = effectiveWeight inst

variable {r : ServiceRegistry} {sorting : SortSlice idLess}

/-! ### What is eligible -/

theorem Stable.nodup_offered (h : r.Stable) (service : Str) :
    ((r.offered service).map Instance.id).Nodup := by
  have hids : ((r.backend.data.entries.map Sigma.snd).map Instance.id).Nodup := by
    rw [map_map]
    exact h.distinct
  exact hids.sublist (filter_sublist.map Instance.id)

theorem Stable.eligible_perm (h : r.Stable) {call : SelectCall} (hcall : r.Timely call) :
    (r.eligible call).Perm (r.offered call.service) := by
  have hperm := (((call.order.perm r.backend.data.entries).filter
    fun entry => (call.service ++ [slash]).isPrefixOf entry.1).map Sigma.snd)
  have hlisted : ((r.backend.data.entries.filter
      fun entry => (call.service ++ [slash]).isPrefixOf entry.1).map Sigma.snd) = r.offered call.service := by
    rw [offered, filter_map]
    refine congrArg (List.map _) (filter_congr fun entry hentry => ?_)
    rw [Bool.eq_iff_iff, isPrefixOf_iff_prefix, h.key_eq entry hentry,
      starts_key_iff_of_services (h.service entry hentry) hcall.service, Function.comp_apply, decide_eq_true_iff,
      eq_comm]
  -- both tests hold of every instance there is
  have hpasses : ∀ now, r.Unexpired now → ∀ inst ∈ r.offered call.service, inst.selectable now = true := by
    intro now hnow inst hinst
    obtain ⟨entry, hentry, rfl⟩ := mem_map.mp (mem_filter.mp hinst).1
    exact decide_eq_true ⟨h.healthy entry hentry, hnow entry hentry⟩
  have hfound := filter_eq_self.mpr (hpasses call.found hcall.found)
  have hnow := filter_eq_self.mpr (hpasses call.now hcall.now)
  rw [hlisted] at hperm
  refine ((hperm.filter fun inst => inst.selectable call.found).filter
    fun inst => inst.selectable call.now).trans ?_
  rw [hfound, hnow]

/-! ### One selector for all services -/

theorem select_toOption (r : ServiceRegistry) (sorting : SortSlice idLess) (call : SelectCall) :
    (r.select sorting call).2.toOption = (r.selector.pick sorting (r.eligible call)).2 := by
  rw [select]
  cases (r.selector.pick sorting (r.eligible call)).2 <;> rfl

theorem picksOf_selections_cons (r : ServiceRegistry) (sorting : SortSlice idLess) (service : Str)
    (call : SelectCall) (calls : List SelectCall) :
    picksOf service (r.selections sorting (call :: calls)) = if call.service = service then
        (r.selector.pick sorting (r.eligible call)).2 ::
          picksOf service ((r.select sorting call).1.selections sorting calls)
      else picksOf service ((r.select sorting call).1.selections sorting calls) := by
  rw [selections, select_toOption, picksOf, filter_cons]
  by_cases hservice : call.service = service
  · rw [if_pos (decide_eq_true hservice), if_pos hservice]
    rfl
  · rw [if_neg (mt of_decide_eq_true hservice), if_neg hservice]
    rfl

theorem Stable.picksOf_alone (h : r.Stable) (sorting : SortSlice idLess)
    (halone : ∀ s, s ≠ service → r.offered s = []) (hcalls : ∀ call ∈ calls, r.Timely call)
    (s : WeightedSelector) :
    picksOf service (({ r with selector := s } : ServiceRegistry).selections sorting calls) =
      picks sorting s ((calls.filter fun call => call.service = service).map r.eligible) := by
  induction calls generalizing s with
  | nil => rfl
  | cons call calls ih =>
    obtain ⟨hcall, hcalls⟩ := forall_mem_cons.mp hcalls
    rw [picksOf_selections_cons, filter_cons]
    by_cases hservice : call.service = service
    · rw [if_pos hservice, if_pos (decide_eq_true hservice)]
      exact congrArg _ (ih hcalls _)
    have hempty : r.eligible call = [] :=
      (halone call.service hservice ▸ h.eligible_perm hcall).eq_nil
    have hselect : (({ r with selector := s } : ServiceRegistry).select sorting call).1 =
        { r with selector := s } := by
      show { r with selector := (s.pick sorting (r.eligible call)).1 } = _
      rw [hempty]
      rfl
    rw [if_neg hservice, if_neg (mt of_decide_eq_true hservice), hselect]
    exact ih hcalls s

theorem exists_of_picks_eq_append {calls : List (List Instance)} {rest : List (Option Instance)}
    (h : picks sorting s calls = before ++ rest) :
    ∃ first later, calls = first ++ later ∧ picks sorting s first = before ∧
      picks sorting (pickAll sorting s first) later = rest := by
  induction before generalizing s calls with
  | nil => exact ⟨[], calls, rfl, rfl, h⟩
  | cons pick before ih =>
    cases calls with
    | nil => exact absurd h.symm (cons_ne_nil pick _)
    | cons instances calls =>
      obtain ⟨hpick, hrest⟩ := cons_eq_cons.mp h
      obtain ⟨first, later, rfl, hfirst, hlater⟩ := ih hrest
      exact ⟨instances :: first, later, rfl, cons_eq_cons.mpr ⟨hpick, hfirst⟩, hlater⟩

theorem length_picks (s : WeightedSelector) (calls : List (List Instance)) :
    (picks sorting s calls).length = calls.length := by
  induction calls generalizing s with
  | nil => rfl
  | cons instances calls ih => exact congrArg (· + 1) (ih _)

theorem Stable.picksOf_single (h : r.Stable) (sorting : SortSlice idLess)
    (hoffered : r.offered service = [inst]) (hcalls : ∀ call ∈ calls, r.Timely call)
    (s : WeightedSelector) :
    ∀ pick ∈ picksOf service (({ r with selector := s } : ServiceRegistry).selections sorting calls),
      pick = some inst := by
  induction calls generalizing s with
  | nil => exact fun pick hpick => absurd hpick not_mem_nil
  | cons call calls ih =>
    obtain ⟨hcall, hcalls⟩ := forall_mem_cons.mp hcalls
    have hrest := ih hcalls (s.pick sorting (r.eligible call)).1
    rw [picksOf_selections_cons]
    split_ifs with hservice
    · refine forall_mem_cons.mpr ⟨?_, hrest⟩
      have heligible : r.eligible call = [inst] :=
        perm_singleton.mp (hoffered ▸ hservice ▸ h.eligible_perm hcall)
      have hsorted : sorting.sort [inst] = [inst] := perm_singleton.mp (sorting.perm [inst])
      obtain ⟨-, found, hfound, hpick, -⟩ := pick_view (s := s) hsorted (nodup_singleton inst.id)
      show (s.pick sorting (r.eligible call)).2 = some inst
      rw [heligible, hpick, mem_singleton.mp hfound]
    · exact hrest

end ServiceRegistry

/-! ### The pick after a pick for another service -/

variable {instances : List Instance}

theorem pick_congr {sorting : SortSlice idLess} {s' : WeightedSelector}
    (hid : (instances.map Instance.id).Nodup)
    (hview : ∀ inst ∈ instances, s.view inst.id = s'.view inst.id) :
    (s.pick sorting instances).2 = (s'.pick sorting instances).2 := by
  cases hsorted : sorting.sort instances with
  | nil =>
    obtain rfl : instances = [] := (hsorted ▸ sorting.perm instances).symm.eq_nil
    rfl
  | cons x xs =>
    have hnodup := nodup_sorted hid hsorted
    obtain ⟨-, inst, hinst, hpick, hpicked⟩ := pick_view (s := s) hsorted hnodup
    obtain ⟨-, inst', hinst', hpick', hpicked'⟩ := pick_view (s := s') hsorted hnodup
    have hsame : picked (rule x xs) (weightOf (x :: xs)) s.view =
        picked (rule x xs) (weightOf (x :: xs)) s'.view := by
      refine firstMax_congr fun id hmem => ?_
      obtain ⟨i, hi, rfl⟩ : ∃ i ∈ x :: xs, Instance.id i = id := mem_map.mp hmem
      rw [bump, bump, hview i ((hsorted ▸ sorting.perm instances).mem_iff.mp hi)]
    rw [hpick, hpick', inj_on_of_nodup_map hnodup hinst hinst' (hpicked.trans (hsame.trans hpicked'.symm))]

theorem exists_pick (sorting : SortSlice idLess) (s : WeightedSelector)
    (hid : (instances.map Instance.id).Nodup) (hne : instances ≠ []) :
    ∃ inst ∈ instances, (s.pick sorting instances).2 = some inst := by
  cases hsorted : sorting.sort instances with
  | nil => exact absurd (hsorted ▸ sorting.perm instances).symm.eq_nil hne
  | cons x xs =>
    obtain ⟨-, inst, hinst, hpick, -⟩ := pick_view (s := s) hsorted (nodup_sorted hid hsorted)
    exact ⟨inst, (hsorted ▸ sorting.perm instances).mem_iff.mp hinst, hpick⟩

theorem view_pick_of_notMem {sorting : SortSlice idLess} (hid : (instances.map Instance.id).Nodup)
    (hne : instances ≠ []) {id : Str} (hother : id ∉ instances.map Instance.id) :
    (s.pick sorting instances).1.view id = 0 := by
  cases hsorted : sorting.sort instances with
  | nil => exact absurd (hsorted ▸ sorting.perm instances).symm.eq_nil hne
  | cons x xs =>
    obtain ⟨hview, -⟩ := pick_view (s := s) hsorted (nodup_sorted hid hsorted)
    have hmem : id ∉ (x.id :: xs.map Instance.id).toFinset := by
      rw [mem_toFinset]
      exact fun hmem => hother (((hsorted ▸ sorting.perm instances).map Instance.id).mem_iff.mp hmem)
    rw [hview, next, if_neg hmem]

namespace ServiceRegistry

variable {r : ServiceRegistry} {sorting : SortSlice idLess}

theorem Stable.notMem_offered (h : r.Stable) {other : Str} (hother : other ≠ service)
    (hinst : inst ∈ r.offered service) : inst.id ∉ (r.offered other).map Instance.id := by
  intro hmem
  obtain ⟨found, hfound, hid⟩ := mem_map.mp hmem
  have hids : ((r.backend.data.entries.map Sigma.snd).map Instance.id).Nodup := by
    rw [map_map]
    exact h.distinct
  obtain ⟨hfoundMem, hfoundService⟩ := mem_filter.mp hfound
  obtain ⟨hinstMem, hinstService⟩ := mem_filter.mp hinst
  obtain rfl := inj_on_of_nodup_map hids hfoundMem hinstMem hid
  exact hother ((of_decide_eq_true hfoundService).symm.trans (of_decide_eq_true hinstService))

theorem Stable.picksOf_alternating (h : r.Stable) (sorting : SortSlice idLess)
    {call other : SelectCall} (hcall : r.Timely call) (hother : r.Timely other)
    (hne : other.service ≠ call.service) (hsome : r.offered other.service ≠ []) (n : ℕ)
    (hs : ∀ inst ∈ r.offered call.service, s.view inst.id = 0) : picksOf call.service
        (({ r with selector := s } : ServiceRegistry).selections sorting (List.replicate n [call, other]).flatten) =
      List.replicate n (newWeightedSelector.pick sorting (r.eligible call)).2 := by
  induction n generalizing s with
  | zero => rfl
  | succ n ih =>
    have hnodup : ((r.eligible call).map Instance.id).Nodup :=
      ((h.eligible_perm hcall).map Instance.id).nodup_iff.mpr (h.nodup_offered call.service)
    have hnodup' : ((r.eligible other).map Instance.id).Nodup :=
      ((h.eligible_perm hother).map Instance.id).nodup_iff.mpr (h.nodup_offered other.service)
    have hsome' : r.eligible other ≠ [] := fun hnil => hsome (hnil ▸ h.eligible_perm hother).symm.eq_nil
    have hpick : (s.pick sorting (r.eligible call)).2 = (newWeightedSelector.pick sorting (r.eligible call)).2 :=
      pick_congr hnodup fun inst hinst => hs inst ((h.eligible_perm hcall).mem_iff.mp hinst)
    rw [replicate_succ, flatten_cons, cons_append, cons_append, nil_append,
      picksOf_selections_cons, if_pos rfl, picksOf_selections_cons, if_neg hne, replicate_succ]
    refine cons_eq_cons.mpr ⟨hpick, ih fun inst hinst => ?_⟩
    -- the call for the other service has taken this one back to its start
    refine view_pick_of_notMem hnodup' hsome' fun hmem => h.notMem_offered hne hinst ?_
    exact ((h.eligible_perm hother).map Instance.id).mem_iff.mp hmem

theorem Stable.offered_eq_nil_of_balanced (h : r.Stable) (hfresh : r.selector = newWeightedSelector)
    {now : ℤ} (hnow : r.Unexpired now) (hbalanced : r.Balanced sorting)
    (htwo : 2 ≤ (r.offered service).length) {other : Str} (hother : other ≠ service) :
    r.offered other = [] := by
  by_contra hsome
  have hplain : ∀ s, r.offered s ≠ [] → slash ∉ s := by
    intro s hs
    obtain ⟨inst, hinst⟩ := exists_mem_of_ne_nil _ hs
    obtain ⟨hmem, hservice⟩ := mem_filter.mp hinst
    obtain ⟨entry, hentry, rfl⟩ := mem_map.mp hmem
    exact of_decide_eq_true hservice ▸ h.service entry hentry
  have hne : r.offered service ≠ [] := ne_nil_of_length_pos (by omega)
  let unordered : RangeOrder := ⟨id, fun _ => .refl _⟩
  let call : SelectCall := ⟨service, unordered, now, now⟩
  let call' : SelectCall := ⟨other, unordered, now, now⟩
  have hcall : r.Timely call := ⟨hplain service hne, hnow, hnow⟩
  have hcall' : r.Timely call' := ⟨hplain other hsome, hnow, hnow⟩
  have hperm := h.eligible_perm hcall
  have hnodup := h.nodup_offered service
  obtain ⟨best, hbest, hpick⟩ := exists_pick sorting newWeightedSelector
    ((hperm.map Instance.id).nodup_iff.mpr hnodup) fun hnil => hne (hnil ▸ hperm).symm.eq_nil
  obtain ⟨cycle, hcycle⟩ := Int.eq_ofNat_of_zero_le (a := totalWeight (r.offered service))
    (sum_nonneg (by
      intro w hw
      obtain ⟨inst, -, rfl⟩ := mem_map.mp hw
      exact (effectiveWeight_pos inst).le))
  have hpicks := h.picksOf_alternating sorting hcall hcall' hother hsome cycle
    (s := r.selector) (by rw [hfresh]; exact fun _ _ => rfl)
  rw [hpick] at hpicks
  -- another instance is never picked in a whole cycle
  obtain ⟨inst, hinst, hinst'⟩ : ∃ inst ∈ r.offered service, inst ≠ best := by
    by_contra hall
    push Not at hall
    have hle := (hnodup.of_map _).length_le_of_subset
      fun inst hinst => mem_singleton.mpr (hall inst hinst)
    rw [length_singleton] at hle
    omega
  have hcalls : ∀ c ∈ (List.replicate cycle [call, call']).flatten, r.Timely c := by
    intro c hc
    obtain ⟨pair, hpair, hc⟩ := mem_flatten.mp hc
    rw [eq_of_mem_replicate hpair] at hc
    obtain rfl | hc := mem_cons.mp hc
    · exact hcall
    · exact mem_singleton.mp hc ▸ hcall'
  have hcount := hbalanced _ hcalls service [] (List.replicate cycle (some best)) [] (by simpa using hpicks)
    (by rw [length_replicate, hcycle]) inst hinst
  rw [count_replicate, if_neg (by simpa using hinst'.symm)] at hcount
  exact (effectiveWeight_pos inst).ne hcount

variable {window after : List (Option Instance)}

theorem Stable.count_of_alone (h : r.Stable) (hfresh : r.selector = newWeightedSelector)
    (halone : ∀ s, s ≠ service → r.offered s = []) (hcalls : ∀ call ∈ calls, r.Timely call)
    (hpicks : picksOf service (r.selections sorting calls) = before ++ window ++ after)
    (hwindow : (window.length : ℤ) = totalWeight (r.offered service))
    (hinst : inst ∈ r.offered service) : (window.count (some inst) : ℤ) = effectiveWeight inst := by
  have hpicks' := (h.picksOf_alone sorting halone hcalls r.selector).symm.trans hpicks
  obtain ⟨start, later, hstart, hbefore, -⟩ := exists_of_picks_eq_append hpicks'
  obtain ⟨first, cycle, rfl, -, hcycle⟩ := exists_of_picks_eq_append hbefore
  have hperm : ∀ instances ∈ first ++ cycle, instances.Perm (r.offered service) := by
    intro instances hmem
    have hmem' := mem_append_left later hmem
    rw [← hstart] at hmem'
    obtain ⟨call, hcall, rfl⟩ := mem_map.mp hmem'
    obtain ⟨hcall, hservice⟩ := mem_filter.mp hcall
    exact of_decide_eq_true hservice ▸ h.eligible_perm (hcalls call hcall)
  rw [hfresh] at hcycle
  have hlength : (cycle.length : ℤ) = totalWeight (r.offered service) := by
    rw [← hwindow, ← hcycle, length_picks]
  rw [← hcycle]
  exact count_picks_window sorting (h.nodup_offered service) hperm hlength hinst

theorem Stable.count_of_single (h : r.Stable) (hoffered : r.offered service = [inst])
    (hcalls : ∀ call ∈ calls, r.Timely call)
    (hpicks : picksOf service (r.selections sorting calls) = before ++ window ++ after)
    (hwindow : (window.length : ℤ) = totalWeight (r.offered service)) :
    (window.count (some inst) : ℤ) = effectiveWeight inst := by
  have hall : ∀ pick ∈ window, some inst = pick := by
    intro pick hpick
    refine (h.picksOf_single sorting hoffered hcalls r.selector pick ?_).symm
    rw [show ({ r with selector := r.selector } : ServiceRegistry) = r from rfl, hpicks]
    exact mem_append_left after (mem_append_right before hpick)
  rw [count_eq_length.mpr hall, hwindow, hoffered, totalWeight, map_singleton, sum_singleton]

/-- Services do not disturb each other if and only if one with two instances is the only one. -/
theorem balanced_iff (sorting : SortSlice idLess) (h : r.Stable) (hfresh : r.selector = newWeightedSelector)
    {now : ℤ} (hnow : r.Unexpired now) : r.Balanced sorting ↔
      ∀ service, 2 ≤ (r.offered service).length → ∀ other, other ≠ service → r.offered other = [] := by
  constructor
  · intro hbalanced service htwo other hother
    exact h.offered_eq_nil_of_balanced hfresh hnow hbalanced htwo hother
  intro halone calls hcalls service before window after hpicks hwindow inst hinst
  by_cases htwo : 2 ≤ (r.offered service).length
  · exact h.count_of_alone hfresh (halone service htwo) hcalls hpicks hwindow hinst
  have hpos := length_pos_of_mem hinst
  obtain ⟨single, hsingle⟩ := length_eq_one_iff.mp (show (r.offered service).length = 1 by omega)
  obtain rfl : inst = single := mem_singleton.mp (hsingle ▸ hinst)
  exact h.count_of_single hsingle hcalls hpicks hwindow

/-- A registry with the given instances, registered at time 1. -/
def ofInstances (instances : List Instance) : ServiceRegistry :=
  instances.foldl (fun r inst => (r.register 1 (some inst)).1) newStaticRegistry

/-- The service `s` has two instances, and no other service has any. -/
theorem oneService_balanced : (ofInstances [sample 97 1, sample 98 1]).Balanced idSort := by
  have hnow : (ofInstances [sample 97 1, sample 98 1]).Unexpired 2 := by decide
  refine (balanced_iff idSort ⟨by decide, by decide, by decide, by decide⟩ rfl hnow).mpr ?_
  intro service htwo other hother
  have hall : ∀ inst ∈ (ofInstances [sample 97 1, sample 98 1]).backend.data.entries.map Sigma.snd,
      inst.service = [115] := by decide
  have hempty : ∀ s, s ≠ [115] → (ofInstances [sample 97 1, sample 98 1]).offered s = [] := by
    intro s hs
    refine filter_eq_nil_iff.mpr fun inst hinst hservice => hs ?_
    exact (of_decide_eq_true hservice).symm.trans (hall inst hinst)
  obtain rfl : service = [115] := by
    by_contra hservice
    rw [hempty service hservice] at htwo
    exact absurd htwo (by decide)
  exact hempty other hother

/-- `s` has two instances, `t` has one, and calls take turns: the first instance is picked every
time. -/
theorem twoServices_not_balanced :
    ¬(ofInstances [sample 97 1, sample 98 1, { sample 99 1 with service := [116] }]).Balanced idSort := by
  intro h
  let call (service : Str) : SelectCall := ⟨service, ⟨id, fun _ => .refl _⟩, 2, 2⟩
  have hcalls : ∀ c ∈ [call [115], call [116], call [115]],
      (ofInstances [sample 97 1, sample 98 1, { sample 99 1 with service := [116] }]).Timely c := by
    intro c hc
    simp only [mem_cons, not_mem_nil, or_false] at hc
    obtain rfl | rfl | rfl := hc <;> exact ⟨by decide, by decide, by decide⟩
  have hcount := h _ hcalls [115] [] [some (sample 97 1), some (sample 97 1)] [] (by decide) (by decide)
    (sample 98 1) (by decide)
  exact absurd hcount (by decide)

end ServiceRegistry

end HelixCluster.Discovery
