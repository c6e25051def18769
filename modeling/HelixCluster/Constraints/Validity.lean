import HelixCluster.Constraints.Engine

/-!
# Every placement is valid

`placeLoop` keeps a partial placement valid: a resource goes to an admissible node that none of its
anti-affinity partners occupies (`Placing`).
-/

namespace HelixCluster.Constraints

open List

variable {resources : List Resource}

theorem distinctIDs_eq (h : (resources.map Resource.id).Nodup) :
    distinctIDs resources = resources.map Resource.id :=
  distinct_of_nodup h

variable {admissible : GoMap Str (List Str)} {current : GoMap Str Str}
  {stick : GoMap Str Int64} {cs : ConstraintSet} {placement : Placement}
  {done order : List Str} {rid : Str}

/-- The anti-affinity constraints relate two resources. -/
def ConstraintSet.Proper (cs : ConstraintSet) : Prop :=
  ∀ co ∈ cs.colocations, co.together = false → co.first ≠ co.second

/-- The resources in `done` are placed on admissible nodes, with the anti-affinity pairs apart. -/
structure Placing (admissible : GoMap Str (List Str)) (cs : ConstraintSet)
    (done : List Str) (placement : Placement) : Prop where
  placed : ∀ rid, rid ∈ placement ↔ rid ∈ done
  allowed : ∀ rid nid, placement.lookup rid = some nid → nid ∈ admissible.read rid []
  apart : ∀ co ∈ cs.colocations, co.together = false → ∀ n m, placement.lookup co.first = some n →
    placement.lookup co.second = some m → n ≠ m

theorem Placing.start (admissible : GoMap Str (List Str)) (cs : ConstraintSet) :
    Placing admissible cs [] ∅ where
  placed rid := by simp [AList.notMem_empty]
  allowed rid nid h := by simp at h
  apart co _ _ n m h := by simp at h

theorem Placing.place (h : Placing admissible cs done placement) (hproper : cs.Proper)
    (rid : Str) {nid : Str} (hallowed : nid ∈ admissible.read rid [])
    (hveto : ¬ Vetoed ⟨rid, placement, current, stick, cs⟩ nid) :
    Placing admissible cs (done ++ [rid]) (placement.insert rid nid) where
  placed r := by rw [AList.mem_insert, h.placed, mem_append, mem_singleton, or_comm]
  allowed r n hlookup := by
    rw [GoMap.lookup_insert_if] at hlookup
    split_ifs at hlookup with hr
    · rw [hr, ← Option.some.inj hlookup]
      exact hallowed
    · exact h.allowed r n hlookup
  apart co hco hanti n m hn hm := by
    have hne := hproper co hco hanti
    rw [GoMap.lookup_insert_if] at hn hm
    by_cases hfirst : co.first = rid
    · rw [if_pos hfirst] at hn
      rw [if_neg (fun heq => hne (hfirst.trans heq.symm))] at hm
      rintro rfl
      refine hveto ⟨co, hco, hanti, co.second, ?_, ?_⟩
      · simp [colocationPartner, hfirst]
      · rw [Option.some.inj hn]
        exact hm
    rw [if_neg hfirst] at hn
    by_cases hsecond : co.second = rid
    · rw [if_pos hsecond] at hm
      rintro rfl
      refine hveto ⟨co, hco, hanti, co.first, ?_, ?_⟩
      · simp [colocationPartner, hsecond, Ne.symm hfirst]
      · rw [Option.some.inj hm]
        exact hn
    · rw [if_neg hsecond] at hm
      exact h.apart co hco hanti n m hn hm

theorem Placing.placeLoop (h : Placing admissible cs done placement) (hproper : cs.Proper)
    (order : List Str) :
    (∃ placement', placeLoop admissible current stick cs order placement = .ok placement' ∧
      Placing admissible cs (done ++ order) placement') ∨
    placeLoop admissible current stick cs order placement = .error .unsatisfiable ∧
      ∃ l rid r placement', order = l ++ rid :: r ∧ Placing admissible cs (done ++ l) placement' ∧
        ∀ nid ∈ admissible.read rid [], Vetoed ⟨rid, placement', current, stick, cs⟩ nid := by
  induction order generalizing done placement with
  | nil => exact .inl ⟨placement, rfl, by simpa using h⟩
  | cons rid order ih =>
    unfold Constraints.placeLoop
    cases hbest : bestNode ⟨rid, placement, current, stick, cs⟩ (admissible.read rid []) with
    | none =>
      exact .inr ⟨rfl, [], rid, order, placement, rfl, by simpa using h, bestNode_eq_none_iff.mp hbest⟩
    | some best =>
      have hfirst := bestNode_some hbest
      have hplaced := h.place hproper rid hfirst.mem hfirst.not_vetoed
      rcases ih hplaced with ⟨placement', hok, hdone⟩ | ⟨herror, l, rid', r, placement', heq, hdone, hall⟩
      · exact .inl ⟨placement', hok, by simpa using hdone⟩
      · exact .inr ⟨herror, rid :: l, rid', r, placement', by simp [heq], by simpa using hdone, hall⟩

variable {e : Engine} {res : Result}

/-- Everything that the constraints ask of a result. -/
structure Valid (e : Engine) (cs : ConstraintSet) (res : Result) : Prop where
  placed : ∀ r ∈ e.resources, ∃ nid, res.placement.lookup r.id = some nid ∧
    Admits e.nodes cs.locations r.id nid
  together : ∀ co ∈ cs.colocations, co.together = true →
    ∃ nid, res.placement.lookup co.first = some nid ∧ res.placement.lookup co.second = some nid
  apart : ∀ co ∈ cs.colocations, co.together = false → ∀ n m,
    res.placement.lookup co.first = some n → res.placement.lookup co.second = some m → n ≠ m
  perm : res.startOrder.Perm (e.resources.map Resource.id)
  ordered : ∀ o ∈ cs.orders, o.before ∈ e.resources.map Resource.id →
    o.after ∈ e.resources.map Resource.id → [o.before, o.after].Sublist res.startOrder

theorem topoSort_ok {orders : List Order}
    (hids : (resources.map Resource.id).Nodup) (h : topoSort resources orders = .ok order) :
    order.Perm (resources.map Resource.id) ∧ Kahn.Closed (orders.map Order.edge) order := by
  unfold topoSort at h
  rw [distinctIDs_eq hids] at h
  cases hkahn : kahn (resources.map Resource.id) (orders.map Order.edge) with
  | none =>
    rw [hkahn] at h
    cases h
  | some order' =>
    rw [hkahn] at h
    exact Except.ok.inj h ▸ kahn_some hkahn

theorem read_admissibleNodes {locs : List Location} (h : e.admissibleNodes locs = .ok admissible)
    (hrid : rid ∈ e.resources.map Resource.id) :
    admissible.read rid [] = allowedNodes e.nodes locs rid := by
  unfold Engine.admissibleNodes at h
  rcases admissibleLoop_cases e.nodes locs e.resources ∅ with ⟨out, hok, _, hlookup⟩ | ⟨herror, _⟩
  · cases hok.symm.trans h
    rw [GoMap.read, hlookup, if_pos hrid]
    rfl
  · exact absurd (herror.symm.trans h) (by simp)

theorem not_split (h : split placement cs = false) {co : Colocation} (hco : co ∈ cs.colocations)
    (htogether : co.together = true) : placement.read co.first [] = placement.read co.second [] := by
  have := any_eq_false.mp h co hco
  simpa [htogether] using this

/-- A result of `Solve` is valid. -/
theorem solve_valid (e : Engine) (cs : ConstraintSet) (res : Result)
    (hids : (e.resources.map Resource.id).Nodup)
    (hcolocations : ∀ co ∈ cs.colocations, co.first ≠ co.second ∧
      co.first ∈ e.resources.map Resource.id ∧ co.second ∈ e.resources.map Resource.id)
    (hsolve : e.solve cs = .ok res) : Valid e cs res := by
  unfold Engine.solve at hsolve
  cases htopo : topoSort e.resources cs.orders with
  | error err => simp [htopo] at hsolve
  | ok order =>
  cases hadmissible : e.admissibleNodes cs.locations with
  | error err => simp [htopo, hadmissible] at hsolve
  | ok admissible =>
  obtain ⟨hperm, hclosed⟩ := topoSort_ok hids htopo
  rw [htopo, hadmissible] at hsolve
  dsimp only at hsolve
  rcases (Placing.start admissible cs).placeLoop (fun co hco _ => (hcolocations co hco).1) order with
    ⟨placement, hok, hplacing⟩ | ⟨herror, _⟩
  · rw [hok, conclude] at hsolve
    split at hsolve
    · cases hsolve
    · next hnosplit =>
      cases hsolve
      have hplaced : ∀ rid ∈ e.resources.map Resource.id, ∃ nid, placement.lookup rid = some nid := by
        intro rid hrid
        refine GoMap.exists_lookup_of_mem ((hplacing.placed rid).mpr ?_)
        exact hperm.mem_iff.mpr hrid
      refine ⟨fun r hr => ?_, fun co hco htogether => ?_, hplacing.apart, hperm, ?_⟩
      · have hrid := mem_map_of_mem (f := Resource.id) hr
        obtain ⟨nid, hlookup⟩ := hplaced r.id hrid
        have hallowed := hplacing.allowed r.id nid hlookup
        rw [read_admissibleNodes hadmissible hrid] at hallowed
        exact ⟨nid, hlookup, (mem_allowedNodes ..).mp hallowed⟩
      · obtain ⟨_, hfirst, hsecond⟩ := hcolocations co hco
        obtain ⟨n, hn⟩ := hplaced co.first hfirst
        obtain ⟨m, hm⟩ := hplaced co.second hsecond
        have hsame := not_split (by simpa using hnosplit) hco htogether
        rw [GoMap.read, GoMap.read, hn, hm] at hsame
        exact ⟨n, hn, hm.trans (congrArg some hsame.symm)⟩
      intro o ho _ hafter
      obtain ⟨l, r, hsplit⟩ := append_of_mem (hperm.mem_iff.mpr hafter)
      have hbefore : o.before ∈ l := hclosed l o.after r hsplit o.edge (mem_map_of_mem ho) rfl
      show [o.before, o.after].Sublist order
      rw [hsplit]
      exact (singleton_sublist.mpr hbefore).append
        (singleton_sublist.mpr mem_cons_self)
  · rw [herror] at hsolve
    cases hsolve

/-- Two resources that have to be apart, the first of them pinned to a node. -/
theorem apart_pair_valid :
    let e : Engine := ⟨[⟨[97], [], 0⟩, ⟨[98], [], 0⟩], [⟨[49]⟩, ⟨[50]⟩]⟩
    let cs : ConstraintSet := ⟨[⟨[97], [49], .required, 0⟩], [⟨[97], [98], false⟩], [⟨[97], [98]⟩]⟩
    ∃ res, e.solve cs = .ok res ∧ Valid e cs res :=
  ⟨_, rfl, solve_valid _ _ _ (by decide) (by decide) rfl⟩

end HelixCluster.Constraints
