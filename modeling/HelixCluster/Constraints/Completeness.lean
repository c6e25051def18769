import HelixCluster.Constraints.Validity

/-!
# What the engine rejects

`Solve` never takes a placement back, so it may run into a dead end although there is a solution.
-/

namespace HelixCluster.Constraints

open GoMap List

/-- The hard Location constraints. -/
def hardOf (locs : List Location) : List Location := locs.filter fun loc => loc.affinity ≠ .prefer

/-- There is an assignment of the resources to nodes that meets all hard constraints. -/
def Satisfiable (ids : List Str) (nodes : List Node) (locs : List Location)
    (colocations : List Colocation) : Prop :=
  ∃ f : Str → Str, (∀ rid ∈ ids, Admits nodes locs rid (f rid)) ∧
    ∀ co ∈ colocations, co.together = true ↔ f co.first = f co.second

/-- `Solve` reports an error only if there is no solution, or a cycle. -/
def RejectsOnlyImpossible (e : Engine) (cs : ConstraintSet) : Prop :=
  (e.solve cs = .error .unsatisfiable →
    ¬ Satisfiable (e.resources.map Resource.id) e.nodes cs.locations cs.colocations) ∧
  (e.solve cs = .error .orderCycle → HasCycle (cs.orders.map Order.edge))

/-- No Order leads from an unknown resource to a known one, unless there is a cycle. -/
def OrdersKnown (e : Engine) (orders : List Order) : Prop :=
  HasCycle (orders.map Order.edge) ∨ ∀ o ∈ orders, o.after ∈ e.resources.map Resource.id →
    o.before ∈ e.resources.map Resource.id

/-- The resources that have to be together have no choice. -/
def TogetherPinned (nodes : List Node) (locs : List Location) (colocations : List Colocation) : Prop :=
  ∀ co ∈ colocations, co.together = true → co.first ≠ co.second →
    ∀ n m, Admits nodes locs co.first n → Admits nodes locs co.second m → n = m

/-- Some resources can take all nodes of another one, as its anti-affinity partners. -/
def CanBeCutOff (ids : List Str) (nodes : List Node) (locs : List Location)
    (colocations : List Colocation) : Prop :=
  ∃ (rid : Str) (others : List Str) (f : Str → Str),
    (others ++ [rid]).Nodup ∧ others ++ [rid] ⊆ ids ∧
    (∀ s ∈ others, Admits nodes locs s (f s)) ∧
    (∀ co ∈ colocations, co.together = false → co.first ∈ others → co.second ∈ others →
      f co.first ≠ f co.second) ∧
    ∀ n, Admits nodes locs rid n → ∃ co ∈ colocations, co.together = false ∧
      ∃ partner ∈ others, colocationPartner co rid = some partner ∧ f partner = n

variable {ids : List Str} {nodes : List Node} {locs hard : List Location}
  {colocations : List Colocation} {e : Engine} {cs : ConstraintSet} {rid nid : Str}

/-! ### Errors -/

theorem names_hardOf (affinity : Affinity) (hne : affinity ≠ .prefer) :
    Names affinity (hardOf locs) rid nid ↔ Names affinity locs rid nid := by
  constructor
  · rintro ⟨loc, hloc, h⟩
    exact ⟨loc, (mem_filter.mp hloc).1, h⟩
  · rintro ⟨loc, hloc, rfl, h⟩
    exact ⟨loc, mem_filter.mpr ⟨hloc, by simpa using hne⟩, rfl, h⟩

theorem allowedNodes_hardOf (nodes : List Node) (locs : List Location) (rid : Str) :
    allowedNodes nodes (hardOf locs) rid = allowedNodes nodes locs rid := by
  refine congrArg (List.map Node.id) (filter_congr fun n _ => decide_eq_decide.mpr ?_)
  simp only [mem_read_hardNodes, mem_hardNodes, names_hardOf .forbidden Affinity.noConfusion,
    names_hardOf .required Affinity.noConfusion]

theorem admits_hardOf : Admits nodes (hardOf locs) rid nid ↔ Admits nodes locs rid nid := by
  rw [← mem_allowedNodes, allowedNodes_hardOf, mem_allowedNodes]

variable {admissible : GoMap Str (List Str)} {order : List Str}

theorem placeLoop_error {current : GoMap Str Str} {stick : GoMap Str Int64}
    {placement : Placement} {err : Err}
    (h : placeLoop admissible current stick cs order placement = .error err) :
    err = .unsatisfiable := by
  induction order generalizing placement with
  | nil => cases h
  | cons rid order ih =>
    unfold placeLoop at h
    split at h
    · exact (Except.error.inj h).symm
    · exact ih h

theorem solve_eq_orderCycle_iff : e.solve cs = .error .orderCycle ↔
    kahn (distinctIDs e.resources) (cs.orders.map Order.edge) = none := by
  unfold Engine.solve topoSort
  cases hkahn : kahn (distinctIDs e.resources) (cs.orders.map Order.edge) with
  | none => simp
  | some order =>
    simp only [reduceCtorEq, iff_false]
    rcases admissibleLoop_cases e.nodes cs.locations e.resources ∅ with
      ⟨admissible, hok, _⟩ | ⟨herror, _⟩
    · simp only [Engine.admissibleNodes, hok]
      unfold conclude
      split
      · next err herror =>
        rw [placeLoop_error herror]
        simp
      · split <;> simp
    · simp [Engine.admissibleNodes, herror]

theorem orderCycle_iff (hids : (e.resources.map Resource.id).Nodup) :
    (e.solve cs = .error .orderCycle → HasCycle (cs.orders.map Order.edge)) ↔
      OrdersKnown e cs.orders := by
  rw [solve_eq_orderCycle_iff, distinctIDs_eq hids]
  constructor
  · intro hcycle
    cases hkahn : kahn (e.resources.map Resource.id) (cs.orders.map Order.edge) with
    | none => exact .inl (hcycle hkahn)
    | some order =>
      obtain ⟨hperm, hclosed⟩ := kahn_some hkahn
      refine .inr fun o ho hafter => ?_
      obtain ⟨l, r, hsplit⟩ := append_of_mem (hperm.mem_iff.mpr hafter)
      have hbefore := hclosed l o.after r hsplit o.edge (mem_map_of_mem ho) rfl
      refine hperm.mem_iff.mp ?_
      rw [hsplit]
      exact mem_append_left _ hbefore
  rintro (hcycle | hknown) hkahn
  · exact hcycle
  · refine kahn_none hids hkahn ?_
    rintro _ he
    obtain ⟨o, ho, rfl⟩ := mem_map.mp he
    exact hknown o ho

theorem solve_unsatisfiable (hids : (e.resources.map Resource.id).Nodup) (hproper : cs.Proper)
    (h : e.solve cs = .error .unsatisfiable) :
    (∃ r ∈ e.resources, allowedNodes e.nodes cs.locations r.id = []) ∨
      ∃ admissible order, e.admissibleNodes cs.locations = .ok admissible ∧
        order.Perm (e.resources.map Resource.id) ∧
        ((∃ current stick l rid r placement, order = l ++ rid :: r ∧
            Placing admissible cs l placement ∧ ∀ nid ∈ admissible.read rid [],
              Vetoed ⟨rid, placement, current, stick, cs⟩ nid) ∨
          ∃ placement, Placing admissible cs order placement ∧ split placement cs = true) := by
  unfold Engine.solve at h
  cases htopo : topoSort e.resources cs.orders with
  | error err =>
    have herr : err = .orderCycle := by
      unfold topoSort at htopo
      split at htopo
      · exact (Except.error.inj htopo).symm
      · cases htopo
    simp [htopo, herr] at h
  | ok order =>
  rcases admissibleLoop_cases e.nodes cs.locations e.resources ∅ with
    ⟨admissible, hok, _⟩ | ⟨_, hnone⟩
  · have hadmissible : e.admissibleNodes cs.locations = .ok admissible := hok
    refine .inr ⟨admissible, order, hadmissible, (topoSort_ok hids htopo).1, ?_⟩
    rw [htopo, hadmissible] at h
    dsimp only at h
    rcases (Placing.start admissible cs).placeLoop hproper order with
      ⟨placement, hplaced, hplacing⟩ | ⟨_, l, rid, r, placement, horder, hplacing, hall⟩
    · rw [hplaced, conclude] at h
      split at h
      · next hsplit => exact .inr ⟨placement, by simpa using hplacing, hsplit⟩
      · cases h
    · exact .inl ⟨_, _, l, rid, r, placement, horder, by simpa using hplacing, hall⟩
  · exact .inl hnone

theorem satisfiable_congr (hperm : order.Perm ids) (hlocs : hardOf locs = hard) :
    Satisfiable order nodes locs colocations ↔ Satisfiable ids nodes hard colocations := by
  subst hlocs
  simp only [Satisfiable, admits_hardOf, hperm.mem_iff]

theorem Satisfiable.proper (h : Satisfiable ids nodes locs cs.colocations) : cs.Proper := by
  obtain ⟨f, _, hcolocations⟩ := h
  intro co hco hanti heq
  have htogether := (hcolocations co hco).mpr (congrArg f heq)
  rw [hanti] at htogether
  cases htogether

variable {done : List Str}

theorem Placing.read_spec {placement : Placement}
    (hplacing : Placing admissible cs done placement)
    (hadmissible : e.admissibleNodes cs.locations = .ok admissible)
    (hdone : done ⊆ e.resources.map Resource.id) (hrid : rid ∈ done) :
    placement.lookup rid = some (placement.read rid []) ∧
      Admits e.nodes cs.locations rid (placement.read rid []) := by
  obtain ⟨nid, hnid⟩ := exists_lookup_of_mem ((hplacing.placed rid).mpr hrid)
  have hread : placement.read rid [] = nid := by
    rw [GoMap.read, hnid]
    rfl
  have hallowed := hplacing.allowed rid nid hnid
  rw [read_admissibleNodes hadmissible (hdone hrid), mem_allowedNodes] at hallowed
  rw [hread]
  exact ⟨hnid, hallowed⟩

theorem not_satisfiable_of_unsatisfiable (hids : (e.resources.map Resource.id).Nodup)
    (hknown : ∀ co ∈ cs.colocations, co.first ∈ e.resources.map Resource.id ∧
      co.second ∈ e.resources.map Resource.id)
    (hpinned : TogetherPinned e.nodes cs.locations cs.colocations)
    (hfree : ¬ CanBeCutOff (e.resources.map Resource.id) e.nodes cs.locations cs.colocations)
    (h : e.solve cs = .error .unsatisfiable) :
    ¬ Satisfiable (e.resources.map Resource.id) e.nodes cs.locations cs.colocations := by
  intro hsat
  obtain ⟨f, hadmits, _⟩ := id hsat
  rcases solve_unsatisfiable hids hsat.proper h with
    ⟨r, hr, hnone⟩ | ⟨admissible, order, hadmissible, hperm, hrest⟩
  · have hmem := (mem_allowedNodes ..).mpr (hadmits r.id (mem_map_of_mem hr))
    rw [hnone] at hmem
    cases hmem
  rcases hrest with ⟨current, stick, l, rid, r, placement, rfl, hplacing, hveto⟩ |
    ⟨placement, hplacing, hsplit⟩
  · -- The placement so far cuts the resource off.
    have hsub : l ++ [rid] ⊆ e.resources.map Resource.id := by
      intro x hx
      refine hperm.mem_iff.mp ?_
      rcases mem_append.mp hx with hx | hx
      · exact mem_append_left _ hx
      · rw [mem_singleton.mp hx]
        simp
    have hnodup : (l ++ [rid]).Nodup := by
      have := hperm.nodup_iff.mpr hids
      rw [show l ++ rid :: r = (l ++ [rid]) ++ r by simp] at this
      exact (nodup_append.mp this).1
    have hread {s : Str} (hs : s ∈ l) :=
      hplacing.read_spec hadmissible (append_subset.mp hsub).1 hs
    refine hfree ⟨rid, l, fun s => placement.read s [], hnodup, hsub, fun s hs => (hread hs).2, ?_, ?_⟩
    · intro co hco hanti hfirst hsecond
      exact hplacing.apart co hco hanti _ _ (hread hfirst).1 (hread hsecond).1
    intro n hn
    have hmem : n ∈ admissible.read rid [] := by
      rwa [read_admissibleNodes hadmissible (hsub (by simp)), mem_allowedNodes]
    obtain ⟨co, hco, hanti, partner, hpartner, hplaced⟩ := hveto n hmem
    have hplaced : placement.lookup partner = some n := hplaced
    refine ⟨co, hco, hanti, partner, ?_, hpartner, ?_⟩
    · exact (hplacing.placed partner).mp (mem_of_lookup hplaced)
    show placement.read partner [] = n
    rw [GoMap.read, hplaced]
    rfl
  · -- A pair that has no choice is not split.
    obtain ⟨co, hco, hpair⟩ := any_eq_true.mp hsplit
    obtain ⟨htogether, hne⟩ : co.together = true ∧
        placement.read co.first [] ≠ placement.read co.second [] := by simpa using hpair
    obtain ⟨hfirst, hsecond⟩ := hknown co hco
    refine hne (hpinned co hco htogether (fun heq => hne (by rw [heq])) _ _ ?_ ?_)
    · exact (hplacing.read_spec hadmissible hperm.subset (hperm.mem_iff.mpr hfirst)).2
    · exact (hplacing.read_spec hadmissible hperm.subset (hperm.mem_iff.mpr hsecond)).2

/-! ### Dead ends -/

/-- The engine with resources that are nowhere yet. -/
def plain (nodes : List Node) (ids : List Str) : Engine := ⟨ids.map fun id => ⟨id, [], 0⟩, nodes⟩

/-- Preferences with the highest score. -/
def wishes (wants : List (Str × Str)) : List Location :=
  wants.map fun want => ⟨want.1, want.2, .prefer, Int64.maxValue⟩

theorem ids_plain (nodes : List Node) (ids : List Str) :
    (plain nodes ids).resources.map Resource.id = ids := by
  simp [plain, Function.comp_def]

theorem hardOf_wishes (hhard : hardOf hard = hard) (wants : List (Str × Str)) :
    hardOf (hard ++ wishes wants) = hard := by
  have hnone : hardOf (wishes wants) = [] := by
    refine filter_eq_nil_iff.mpr fun loc hloc => ?_
    obtain ⟨want, _, rfl⟩ := mem_map.mp hloc
    simp
  rw [hardOf, filter_append]
  exact (congrArg₂ (· ++ ·) hhard hnone).trans (append_nil hard)

theorem read_currentNodes_plain (nodes : List Node) (ids : List Str) (rid : Str) :
    (currentNodes (plain nodes ids).resources).read rid [] = [] := by
  have hloop : ∀ (ids : List Str) (current : GoMap Str Str),
      current.read rid [] = [] →
      ((ids.map fun id => (⟨id, [], 0⟩ : Resource)).foldl
        (fun current r => current.insert r.id r.current) current).read rid [] = [] := by
    intro ids
    induction ids with
    | nil => exact fun _ h => h
    | cons id ids ih =>
      intro current h
      refine ih _ ?_
      rw [read_insert_if]
      split
      · rfl
      · exact h
  exact hloop ids ∅ rfl

theorem solve_plain (nodes : List Node) (horder : order.Nodup) (hhard : hardOf hard = hard)
    (hsome : ∀ rid ∈ order, ∃ nid, Admits nodes hard rid nid) (wants : List (Str × Str))
    (colocations : List Colocation) :
    ∃ (admissible : GoMap Str (List Str)) (current : GoMap Str Str)
      (stick : GoMap Str Int64),
      (∀ rid ∈ order, admissible.read rid [] = allowedNodes nodes hard rid) ∧
      (∀ rid, current.read rid [] = []) ∧
      (plain nodes order).solve ⟨hard ++ wishes wants, colocations, []⟩ =
        conclude ⟨hard ++ wishes wants, colocations, []⟩ order
          (placeLoop admissible current stick ⟨hard ++ wishes wants, colocations, []⟩ order ∅) := by
  have hallowed : ∀ rid, allowedNodes nodes (hard ++ wishes wants) rid = allowedNodes nodes hard rid := by
    intro rid
    rw [← allowedNodes_hardOf, hardOf_wishes hhard]
  have htopo : topoSort (plain nodes order).resources [] = .ok order := by
    rw [topoSort, distinctIDs_eq (by rwa [ids_plain]), ids_plain, map_nil, kahn_no_edges horder]
  rcases admissibleLoop_cases nodes (hard ++ wishes wants) (plain nodes order).resources ∅ with
    ⟨admissible, hok, _⟩ | ⟨_, r, hr, hnone⟩
  · have hadmissible : (plain nodes order).admissibleNodes (hard ++ wishes wants) = .ok admissible := hok
    refine ⟨admissible, _, stickiness (plain nodes order).resources, fun rid hrid => ?_,
      read_currentNodes_plain nodes order, ?_⟩
    · rw [read_admissibleNodes hadmissible (by rwa [ids_plain])]
      exact hallowed rid
    · rw [Engine.solve, htopo, hadmissible]
  have hrid : r.id ∈ order := ids_plain nodes order ▸ mem_map_of_mem hr
  obtain ⟨nid, hadmits⟩ := hsome r.id hrid
  have hmem := (mem_allowedNodes ..).mpr hadmits
  rw [← hallowed, hnone] at hmem
  cases hmem

variable {wants : List (Str × Str)} {placement : Placement}
  {current : GoMap Str Str} {stick : GoMap Str Int64}

variable {cx : Context}

theorem foldl_prefer
    (h : ∀ loc ∈ locs, loc.affinity = .prefer → loc.score = Int64.maxValue) {score : Int64}
    (hscore : score = 0 ∨ score = Int64.maxValue) : locs.foldl (fun score loc =>
      if loc.resource = cx.rid ∧ loc.node = nid ∧ loc.affinity = .prefer then
        saturatingAdd score loc.score else score) score =
    if ∃ loc ∈ locs, loc.resource = cx.rid ∧ loc.node = nid ∧ loc.affinity = .prefer then .maxValue
    else score := by
  induction locs generalizing score with
  | nil => simp
  | cons loc locs ih =>
    obtain ⟨hloc, hrest⟩ := forall_mem_cons.mp h
    rw [foldl_cons]
    by_cases hmatch : loc.resource = cx.rid ∧ loc.node = nid ∧ loc.affinity = .prefer
    · have hmax : saturatingAdd score loc.score = Int64.maxValue := by
        rw [hloc hmatch.2.2]
        rcases hscore with rfl | rfl <;> decide
      rw [if_pos hmatch, hmax, ih hrest (.inr rfl), ite_self, if_pos ⟨loc, mem_cons_self, hmatch⟩]
    · rw [if_neg hmatch, ih hrest hscore]
      simp only [exists_mem_cons_iff, hmatch, false_or]

theorem preferScore_eq (hhard : hardOf hard = hard) (hlocs : cx.cs.locations = hard ++ wishes wants) :
    preferScore cx nid = if (cx.rid, nid) ∈ wants then .maxValue else 0 := by
  have hprefer : ∀ loc ∈ hard ++ wishes wants, loc.affinity = .prefer → ∃ want ∈ wants,
      loc = ⟨want.1, want.2, .prefer, .maxValue⟩ := by
    intro loc hloc hprefer
    rcases mem_append.mp hloc with hloc | hloc
    · rw [← hhard] at hloc
      exact absurd hprefer (by simpa using (mem_filter.mp hloc).2)
    · obtain ⟨want, hwant, rfl⟩ := mem_map.mp hloc
      exact ⟨want, hwant, rfl⟩
  rw [preferScore, hlocs, foldl_prefer (fun loc hloc h => ?_) (.inl rfl)]
  · refine if_congr (Iff.intro ?_ fun hwant => ?_) rfl rfl
    · rintro ⟨loc, hloc, hrid, hnid, h⟩
      obtain ⟨want, hwant, rfl⟩ := hprefer loc hloc h
      rwa [← hrid, ← hnid]
    · exact ⟨_, mem_append_right _ (mem_map_of_mem hwant), rfl, rfl, rfl⟩
  · obtain ⟨_, _, rfl⟩ := hprefer loc hloc h
    rfl

theorem tally_eq_preferScore (hcurrent : cx.current.read cx.rid [] = [])
    (hbonus : ∀ co ∈ cx.cs.colocations, co.together = true → ∀ partner,
      colocationPartner co cx.rid = some partner → cx.placement.lookup partner ≠ some nid) :
    (tally cx nid).1 = preferScore cx nid := by
  have hsticky : stickyScore cx nid = preferScore cx nid := by
    simp [stickyScore, hcurrent]
  have hloop : ∀ (cos : List Colocation), cos ⊆ cx.cs.colocations → ∀ s : Int64 × Bool,
      (cos.foldl (colocate cx nid) s).1 = s.1 := by
    intro cos
    induction cos with
    | nil => exact fun _ _ => rfl
    | cons co cos ih =>
      intro hsub s
      obtain ⟨hco, hsub⟩ := cons_subset.mp hsub
      rw [foldl_cons, ih hsub]
      unfold colocate
      cases hpartner : colocationPartner co cx.rid with
      | none => rfl
      | some partner =>
        cases hlookup : cx.placement.lookup partner with
        | none => simp [hlookup]
        | some pnode =>
          cases htogether : co.together with
          | false =>
            by_cases hnode : pnode = nid <;> simp [hlookup, hnode]
          | true =>
            have hnode : pnode ≠ nid := by
              rintro rfl
              exact hbonus co hco htogether partner hpartner hlookup
            simp [hlookup, hnode]
  exact (hloop _ (List.Subset.refl _) _).trans hsticky

variable {cand : List Str}

theorem bestNode_eq_wish (hhard : hardOf hard = hard)
    (hlocs : cx.cs.locations = hard ++ wishes wants) (hwish : ∀ n, (cx.rid, n) ∈ wants ↔ n = nid)
    (hcurrent : cx.current.read cx.rid [] = [])
    (hbonus : ∀ co ∈ cx.cs.colocations, co.together = true → ∀ partner,
      colocationPartner co cx.rid = some partner → cx.placement.lookup partner = none)
    (hcand : nid ∈ cand) (hveto : ¬ Vetoed cx nid) : bestNode cx cand = some nid := by
  have htally : ∀ n, (tally cx n).1 = preferScore cx n := fun n =>
    tally_eq_preferScore hcurrent fun co hco htogether partner hpartner hlookup => by
      rw [hbonus co hco htogether partner hpartner] at hlookup
      cases hlookup
  cases hbest : bestNode cx cand with
  | none => exact absurd (bestNode_eq_none_iff.mp hbest nid hcand) hveto
  | some best =>
    by_contra hne
    have hne : best ≠ nid := fun heq => hne (congrArg some heq)
    have hle := (bestNode_some hbest).le hcand hveto
    rw [htally, htally, preferScore_eq hhard hlocs, preferScore_eq hhard hlocs,
      if_pos ((hwish nid).mpr rfl), if_neg (mt (hwish best).mp hne)] at hle
    exact absurd hle (by decide)

/-- The placement puts the resources in `done` where `f` says, and no other. -/
def Follows (f : Str → Str) (done : List Str) (placement : Placement) : Prop :=
  ∀ rid, placement.lookup rid = if rid ∈ done then some (f rid) else none

variable {f : Str → Str}

theorem placeLoop_follows {l : List Str} (rest : List Str)
    (hfollows : Follows f done placement)
    (hbest : ∀ l₁ rid l₂ placement, l = l₁ ++ rid :: l₂ → Follows f (done ++ l₁) placement →
      bestNode ⟨rid, placement, current, stick, cs⟩ (admissible.read rid []) = some (f rid)) :
    ∃ placement', Follows f (done ++ l) placement' ∧
      placeLoop admissible current stick cs (l ++ rest) placement =
        placeLoop admissible current stick cs rest placement' := by
  induction l generalizing done placement with
  | nil => exact ⟨placement, by simpa using hfollows, rfl⟩
  | cons rid l ih =>
    have hfirst := hbest [] rid l placement rfl (by simpa using hfollows)
    have hnext : Follows f (done ++ [rid]) (placement.insert rid (f rid)) := by
      intro r
      rw [lookup_insert_if, hfollows r]
      by_cases hr : r = rid <;> simp [hr]
    obtain ⟨placement', hdone, heq⟩ := ih hnext fun l₁ rid' l₂ p hl hp =>
      hbest (rid :: l₁) rid' l₂ p (by rw [hl]; rfl) (by simpa using hp)
    refine ⟨placement', by simpa using hdone, ?_⟩
    rw [cons_append, placeLoop, hfirst]
    exact heq

theorem exists_perm_append {front : List Str} (hnodup : front.Nodup) (hsub : front ⊆ ids) :
    ∃ rest, (front ++ rest).Perm ids := by
  obtain ⟨l, hperm, hl⟩ := subperm_of_subset hnodup hsub
  obtain ⟨rest, hrest⟩ := hl.exists_perm_append
  exact ⟨rest, ((hperm.symm.append_right rest).trans hrest.symm)⟩

variable {co : Colocation}

theorem colocationPartner_cases {partner : Str} (h : colocationPartner co rid = some partner) :
    rid = co.first ∧ partner = co.second ∨ rid = co.second ∧ partner = co.first := by
  unfold colocationPartner at h
  split at h
  · next hfirst => exact .inl ⟨hfirst, (Option.some.inj h).symm⟩
  split at h
  · next hsecond => exact .inr ⟨hsecond, (Option.some.inj h).symm⟩
  · cases h

theorem TogetherPinned.unique (h : TogetherPinned nodes locs colocations)
    (hsome : ∀ co ∈ colocations, (∃ n, Admits nodes locs co.first n) ∧ ∃ n, Admits nodes locs co.second n)
    (hco : co ∈ colocations) (htogether : co.together = true) (hne : co.first ≠ co.second)
    (hrid : rid = co.first ∨ rid = co.second) {n n' : Str} (hn : Admits nodes locs rid n)
    (hn' : Admits nodes locs rid n') : n = n' := by
  obtain ⟨⟨m, hm⟩, ⟨m', hm'⟩⟩ := hsome co hco
  have hpair := h co hco htogether hne
  rcases hrid with rfl | rfl
  · exact (hpair n m' hn hm').trans (hpair n' m' hn' hm').symm
  · exact (hpair m n hm hn).symm.trans (hpair m n' hm hn')

theorem bestNode_eq_of_unique (hcand : nid ∈ cand)
    (hunique : ∀ n ∈ cand, n = nid) (hveto : ¬ Vetoed cx nid) : bestNode cx cand = some nid := by
  cases hbest : bestNode cx cand with
  | none => exact absurd (bestNode_eq_none_iff.mp hbest nid hcand) hveto
  | some best => rw [hunique best (bestNode_some hbest).mem]

/-- With everything placed so far where it wishes to be, the next resource goes where it does. -/
theorem bestNode_of_follows {others l₁ l₂ : List Str} {s : Str}
    (hsome : ∀ co ∈ colocations, (∃ n, Admits nodes hard co.first n) ∧ ∃ n, Admits nodes hard co.second n)
    (hpinned : TogetherPinned nodes hard colocations) (hhard : hardOf hard = hard)
    (hothers : others.Nodup) (hadmits : ∀ s ∈ others, Admits nodes hard s (f s))
    (hapart : ∀ co ∈ colocations, co.together = false → co.first ∈ others → co.second ∈ others →
      f co.first ≠ f co.second)
    (hmem : ∀ n, n ∈ admissible.read s [] ↔ Admits nodes hard s n) (hcurrent : current.read s [] = [])
    (hsplit : others = l₁ ++ s :: l₂) (hfollows : Follows f l₁ placement) :
    bestNode ⟨s, placement, current, stick,
      ⟨hard ++ wishes (others.map fun s => (s, f s)), colocations, []⟩⟩ (admissible.read s []) =
        some (f s) := by
  have hs : s ∈ others := by simp [hsplit]
  have hl₁ : l₁ ⊆ others := by
    rw [hsplit]
    exact subset_append_left ..
  have hcand : f s ∈ admissible.read s [] := (hmem _).mpr (hadmits s hs)
  have hveto : ¬ Vetoed ⟨s, placement, current, stick,
      ⟨hard ++ wishes (others.map fun s => (s, f s)), colocations, []⟩⟩ (f s) := by
    rintro ⟨co, hco, hanti, partner, hpartner, hlookup⟩
    obtain ⟨hmem, heq⟩ : partner ∈ l₁ ∧ f partner = f s := by
      simpa [hfollows partner] using hlookup
    rcases colocationPartner_cases hpartner with ⟨hfirst, hsecond⟩ | ⟨hsecond, hfirst⟩
    · exact hapart co hco hanti (hfirst ▸ hs) (hsecond ▸ hl₁ hmem) (by rw [← hfirst, ← hsecond, heq])
    · exact hapart co hco hanti (hfirst ▸ hl₁ hmem) (hsecond ▸ hs) (by rw [← hfirst, ← hsecond, heq])
  by_cases hpair : ∃ co ∈ colocations, co.together = true ∧ co.first ≠ co.second ∧
      (s = co.first ∨ s = co.second)
  · obtain ⟨co, hco, htogether, hne, hrid⟩ := hpair
    refine bestNode_eq_of_unique hcand (fun n hn => ?_) hveto
    exact hpinned.unique hsome hco htogether hne hrid ((hmem n).mp hn) (hadmits s hs)
  refine bestNode_eq_wish hhard rfl (fun n => ?_) hcurrent ?_ hcand hveto
  · simp [hs, eq_comm]
  intro co hco htogether partner hpartner
  -- A partner that is the resource itself is not placed yet.
  have hself : partner = s := by
    by_contra hne
    refine hpair ⟨co, hco, htogether, ?_, (colocationPartner_cases hpartner).imp And.left And.left⟩
    intro heq
    rcases colocationPartner_cases hpartner with ⟨hfirst, hsecond⟩ | ⟨hsecond, hfirst⟩
    · exact hne (hsecond.trans (heq.symm.trans hfirst.symm))
    · exact hne (hfirst.trans (heq.trans hsecond.symm))
  have hfresh : s ∉ l₁ := by
    rw [hsplit] at hothers
    exact fun hmem => (nodup_append.mp hothers).2.2 s hmem s (by simp) rfl
  rw [hself]
  exact (hfollows s).trans (if_neg hfresh)

theorem exists_cut_off (hids : ids.Nodup) (hhard : hardOf hard = hard)
    (hsome : ∀ rid ∈ ids, ∃ n, Admits nodes hard rid n)
    (hknown : ∀ co ∈ colocations, co.first ∈ ids ∧ co.second ∈ ids)
    (hpinned : TogetherPinned nodes hard colocations)
    (hcut : CanBeCutOff ids nodes hard colocations) : ∃ order wants, order.Perm ids ∧
      (plain nodes order).solve ⟨hard ++ wishes wants, colocations, []⟩ = .error .unsatisfiable := by
  obtain ⟨rid, others, f, hnodup, hsub, hadmits, hapart, hall⟩ := hcut
  obtain ⟨rest, hperm⟩ := exists_perm_append hnodup hsub
  have hperm : (others ++ rid :: rest).Perm ids := by simpa using hperm
  let wants := others.map fun s => (s, f s)
  let cs : ConstraintSet := ⟨hard ++ wishes wants, colocations, []⟩
  obtain ⟨admissible, current, stick, hread, hcurrent, hsolve⟩ :=
    solve_plain nodes (hperm.nodup_iff.mpr hids) hhard
      (fun s hs => hsome s (hperm.mem_iff.mp hs)) wants colocations
  have hmem : ∀ s ∈ others ++ rid :: rest, ∀ n, n ∈ admissible.read s [] ↔ Admits nodes hard s n := by
    intro s hs n
    rw [hread s hs, mem_allowedNodes]
  refine ⟨others ++ rid :: rest, wants, hperm, hsolve.trans ?_⟩
  have hstart : Follows f [] ∅ := fun r => by simp
  obtain ⟨placement, hfollows, heq⟩ := placeLoop_follows (l := others) (rid :: rest) hstart
    fun l₁ s l₂ placement hsplit => bestNode_of_follows
      (fun co hco => ⟨hsome _ (hknown co hco).1, hsome _ (hknown co hco).2⟩) hpinned hhard
      (nodup_append.mp hnodup).1 hadmits hapart (hmem s (by simp [hsplit])) (hcurrent s) hsplit
  have hnone : bestNode ⟨rid, placement, current, stick, cs⟩ (admissible.read rid []) = none := by
    refine bestNode_eq_none_iff.mpr fun n hn => ?_
    obtain ⟨co, hco, hanti, partner, hpartner, hcolocated, rfl⟩ :=
      hall n ((hmem rid (by simp) n).mp hn)
    exact ⟨co, hco, hanti, partner, hcolocated, by simpa [hpartner] using hfollows partner⟩
  show conclude cs _ (placeLoop admissible current stick cs (others ++ rid :: rest) ∅) = _
  rw [heq, placeLoop, hnone]
  rfl

theorem lookup_placeLoop {placement' : Placement}
    (h : placeLoop admissible current stick cs order placement = .ok placement')
    (hrid : rid ∉ order) : placement'.lookup rid = placement.lookup rid := by
  induction order generalizing placement with
  | nil => rw [Except.ok.inj h]
  | cons r order ih =>
    obtain ⟨hne, hrest⟩ := not_or.mp (mt mem_cons.mpr hrid)
    unfold placeLoop at h
    split at h
    · cases h
    · rw [ih h hrest, lookup_insert_if, if_neg hne]

theorem mem_left_of_append_eq {α : Type} {x y : α} {l l' r r' : List α}
    (h : l' ++ x :: r' = l ++ y :: r) (hx : x ∉ l) (hne : y ≠ x) : y ∈ l' := by
  rcases append_eq_append_iff.mp h with ⟨a, rfl, ha⟩ | ⟨c, rfl, hc⟩
  · cases a with
    | nil => exact absurd (List.cons.inj ha).1.symm hne
    | cons z a =>
      rw [← (List.cons.inj ha).1] at hx
      simp at hx
  cases c with
  | nil => exact absurd (List.cons.inj hc).1 hne
  | cons z c =>
    rw [(List.cons.inj hc).1]
    simp

theorem conclude_of_split (hco : co ∈ cs.colocations) (htogether : co.together = true)
    {a b x best : Str} (hab : a = co.first ∧ b = co.second ∨ a = co.second ∧ b = co.first)
    (hne : a ≠ b) {rest : List Str} (ha : a ∉ rest) (hb : b ∉ rest)
    (hlookup : placement.lookup a = some x) (hbest : best ≠ x) :
    conclude cs order (placeLoop admissible current stick cs rest (placement.insert b best)) =
      .error .unsatisfiable := by
  cases hrest : placeLoop admissible current stick cs rest (placement.insert b best) with
  | error err =>
    rw [placeLoop_error hrest]
    rfl
  | ok placement' =>
    have hlookup_a : placement'.lookup a = some x := by
      rw [lookup_placeLoop hrest ha, lookup_insert_if, if_neg hne, hlookup]
    have hlookup_b : placement'.lookup b = some best := by
      rw [lookup_placeLoop hrest hb, lookup_insert_if, if_pos rfl]
    refine if_pos (any_eq_true.mpr ⟨co, hco, ?_⟩)
    rcases hab with ⟨rfl, rfl⟩ | ⟨rfl, rfl⟩
    · simpa [htogether, GoMap.read, hlookup_a, hlookup_b] using hbest.symm
    · simpa [htogether, GoMap.read, hlookup_a, hlookup_b] using hbest

/-- A pair is split in some order, if the second one can prefer a node to that of the first one. -/
theorem exists_split (hids : ids.Nodup) (hhard : hardOf hard = hard)
    (hsome : ∀ rid ∈ ids, ∃ n, Admits nodes hard rid n) (hco : co ∈ colocations)
    (htogether : co.together = true) {a b x y : Str}
    (hab : a = co.first ∧ b = co.second ∨ a = co.second ∧ b = co.first) (hne : a ≠ b) (ha : a ∈ ids)
    (hb : b ∈ ids) (hx : Admits nodes hard a x)
    (hy : x ∈ allowedNodes nodes hard b → ∃ l r, allowedNodes nodes hard b = l ++ y :: r ∧ x ∉ l ∧ y ≠ x) :
    ∃ order wants, order.Perm ids ∧
      (plain nodes order).solve ⟨hard ++ wishes wants, colocations, []⟩ = .error .unsatisfiable := by
  have hfront : [a, b] ⊆ ids := by simp [ha, hb]
  obtain ⟨rest, hperm⟩ := exists_perm_append (by simpa using hne) hfront
  have hperm : (a :: b :: rest).Perm ids := hperm
  have hnodup := hperm.nodup_iff.mpr hids
  let wants := [(a, x), (b, y)]
  let cs : ConstraintSet := ⟨hard ++ wishes wants, colocations, []⟩
  obtain ⟨admissible, current, stick, hread, hcurrent, hsolve⟩ :=
    solve_plain nodes hnodup hhard (fun s hs => hsome s (hperm.mem_iff.mp hs)) wants
      colocations
  refine ⟨a :: b :: rest, wants, hperm, hsolve.trans ?_⟩
  show conclude cs _ (placeLoop admissible current stick cs (a :: b :: rest) ∅) = _
  have hfirst : bestNode ⟨a, ∅, current, stick, cs⟩ (admissible.read a []) = some x := by
    refine bestNode_eq_wish hhard rfl (by simp [wants, hne]) (hcurrent a) (fun _ _ _ _ _ => rfl) ?_ ?_
    · rwa [hread a (by simp), mem_allowedNodes]
    · rintro ⟨_, _, _, partner, _, hlookup⟩
      simp at hlookup
  rw [placeLoop, hfirst]
  dsimp only
  let placement : Placement := AList.insert a x ∅
  have hplaced : ∀ {rid n}, placement.lookup rid = some n → n = x := by
    intro rid n hlookup
    rw [show placement = AList.insert a x ∅ from rfl, lookup_insert_if] at hlookup
    split at hlookup
    · exact (Option.some.inj hlookup).symm
    · simp at hlookup
  show conclude cs _ (placeLoop admissible current stick cs (b :: rest) placement) = _
  rw [placeLoop]
  cases hbest : bestNode ⟨b, placement, current, stick, cs⟩ (admissible.read b []) with
  | none => rfl
  | some best =>
    -- The second one does not follow the first.
    have hsplit : best ≠ x := by
      rintro rfl
      have hfirst := bestNode_some hbest
      have hmem := hfirst.mem
      obtain ⟨l', r', hcand, hlt, _⟩ := hfirst.first
      rw [hread b (by simp)] at hmem hcand
      obtain ⟨l, r, hallowed, hnot, hyx⟩ := hy hmem
      have hyl : y ∈ l' := mem_left_of_append_eq (hcand.symm.trans hallowed) hnot hyx
      have hlt := hlt y hyl fun ⟨_, _, _, partner, _, hlookup⟩ => hyx (hplaced hlookup)
      have hscore : (tally ⟨b, placement, current, stick, cs⟩ y).1 = Int64.maxValue := by
        rw [tally_eq_preferScore (hcurrent b) fun _ _ _ partner _ hlookup => hyx (hplaced hlookup)]
        exact (preferScore_eq hhard rfl).trans (if_pos (by simp [wants]))
      rw [hscore] at hlt
      exact absurd hlt (Int64.not_lt.mpr (Int64.le_maxValue _))
    obtain ⟨hanot, hbrest⟩ := nodup_cons.mp hnodup
    refine conclude_of_split hco htogether hab hne (fun hmem => hanot (mem_cons_of_mem b hmem))
      (nodup_cons.mp hbrest).1 ?_ hsplit
    exact (lookup_insert_if ..).trans (if_pos rfl)

theorem exists_split_of_not_pinned (hids : ids.Nodup) (hhard : hardOf hard = hard)
    (hsome : ∀ rid ∈ ids, ∃ n, Admits nodes hard rid n)
    (hknown : ∀ co ∈ colocations, co.first ∈ ids ∧ co.second ∈ ids)
    (hpinned : ¬ TogetherPinned nodes hard colocations) : ∃ order wants, order.Perm ids ∧
      (plain nodes order).solve ⟨hard ++ wishes wants, colocations, []⟩ = .error .unsatisfiable := by
  simp only [TogetherPinned, not_forall] at hpinned
  obtain ⟨co, hco, htogether, hne, n, m, hn, hm, hnm⟩ := hpinned
  obtain ⟨hfirst, hsecond⟩ := hknown co hco
  have hforth {x y : Str} := exists_split (x := x) (y := y) hids hhard hsome hco htogether
    (.inl ⟨rfl, rfl⟩) hne hfirst hsecond
  by_cases hnb : n ∈ allowedNodes nodes hard co.second
  · by_cases hma : m ∈ allowedNodes nodes hard co.first
    · -- Both nodes are open to both resources, and the second one prefers the node that is listed first.
      have hmb := (mem_allowedNodes nodes hard co.second m).mpr hm
      obtain ⟨l, r, hsplit, hml⟩ := eq_append_cons_of_mem hmb
      by_cases hnl : n ∈ l
      · obtain ⟨l₁, l₂, rfl⟩ := append_of_mem hnl
        refine hforth (y := n) ((mem_allowedNodes ..).mp hma) fun _ => ⟨l₁, l₂ ++ m :: r, ?_, ?_, hnm⟩
        · simpa using hsplit
        · exact fun hmem => hml (mem_append_left _ hmem)
      · exact hforth hn fun _ => ⟨l, r, hsplit, hnl, Ne.symm hnm⟩
    · exact exists_split hids hhard hsome hco htogether (.inr ⟨rfl, rfl⟩) (Ne.symm hne) hsecond hfirst hm
        (y := m) fun hmem => absurd hmem hma
  · exact hforth (y := n) hn fun hmem => absurd hmem hnb

theorem rejectsOnlyImpossible_of (hids : (e.resources.map Resource.id).Nodup)
    (hknown : ∀ co ∈ cs.colocations, co.first ∈ e.resources.map Resource.id ∧
      co.second ∈ e.resources.map Resource.id)
    (horders : OrdersKnown e cs.orders)
    (hcond : Satisfiable (e.resources.map Resource.id) e.nodes cs.locations cs.colocations →
      TogetherPinned e.nodes cs.locations cs.colocations ∧
        ¬ CanBeCutOff (e.resources.map Resource.id) e.nodes cs.locations cs.colocations) :
    RejectsOnlyImpossible e cs := by
  refine ⟨fun herror hsat => ?_, (orderCycle_iff hids).mpr horders⟩
  obtain ⟨hpinned, hfree⟩ := hcond hsat
  exact not_satisfiable_of_unsatisfiable hids hknown hpinned hfree herror hsat

/-- An error is right if the Orders are known, and there is no solution, or no choice for those
together and none can be cut off. For all scores and orders this is exact. -/
theorem rejects_only_impossible_iff (ids : List Str) (nodes : List Node) (hard : List Location)
    (colocations : List Colocation) (hids : ids.Nodup) (hhard : hardOf hard = hard)
    (hknown : ∀ co ∈ colocations, co.first ∈ ids ∧ co.second ∈ ids) :
    (∀ (e : Engine) (cs : ConstraintSet), (e.resources.map Resource.id).Perm ids →
      RejectsOnlyImpossible e cs → OrdersKnown e cs.orders) ∧
    ((∀ (e : Engine) (locs : List Location) (orders : List Order), e.nodes = nodes →
        (e.resources.map Resource.id).Perm ids → hardOf locs = hard → OrdersKnown e orders →
        RejectsOnlyImpossible e ⟨locs, colocations, orders⟩) ↔
      (Satisfiable ids nodes hard colocations →
        TogetherPinned nodes hard colocations ∧ ¬ CanBeCutOff ids nodes hard colocations)) ∧
    ∀ (e : Engine) (cs : ConstraintSet), e.resources.map Resource.id = ids → e.nodes = nodes →
      cs.colocations = colocations → OrdersKnown e cs.orders →
      (Satisfiable ids nodes cs.locations colocations →
        TogetherPinned nodes cs.locations colocations ∧
          ¬ CanBeCutOff ids nodes cs.locations colocations) → RejectsOnlyImpossible e cs := by
  refine ⟨fun e cs hperm hrejects => ?_, ⟨fun hall hsat => ?_, fun hcond e locs orders hnodes hperm
    hlocs horders => ?_⟩, ?_⟩
  · exact (orderCycle_iff (hperm.nodup_iff.mpr hids)).mp hrejects.2
  · have hsome : ∀ rid ∈ ids, ∃ n, Admits nodes hard rid n := fun rid hrid =>
      ⟨_, hsat.choose_spec.1 rid hrid⟩
    -- A dead end is an error that is not right.
    have hnone : ¬ ∃ order wants, order.Perm ids ∧ (plain nodes order).solve
        ⟨hard ++ wishes wants, colocations, []⟩ = .error .unsatisfiable := by
      rintro ⟨order, wants, hperm, herror⟩
      have hlocs := hardOf_wishes hhard wants
      have hrejects := hall (plain nodes order) (hard ++ wishes wants) [] rfl
        (by rwa [ids_plain]) hlocs (.inr (by simp))
      refine hrejects.1 herror ?_
      rw [ids_plain]
      exact (satisfiable_congr hperm hlocs).mpr hsat
    have hpinned : TogetherPinned nodes hard colocations :=
      by_contra fun hno => hnone (exists_split_of_not_pinned hids hhard hsome hknown hno)
    exact ⟨hpinned, fun hcut => hnone (exists_cut_off hids hhard hsome hknown hpinned hcut)⟩
  · subst hnodes
    refine rejectsOnlyImpossible_of (hperm.nodup_iff.mpr hids) (fun co hco => ?_) horders
      fun hsat => ?_
    · exact (hknown co hco).imp hperm.mem_iff.mpr hperm.mem_iff.mpr
    obtain ⟨hpinned, hfree⟩ := hcond ((satisfiable_congr hperm hlocs).mp hsat)
    constructor
    · intro co hco htogether hne n m hn hm
      rw [← admits_hardOf, hlocs] at hn hm
      exact hpinned co hco htogether hne n m hn hm
    rintro ⟨rid, others, f, hnodup, hsub, hadmits, hapart, hall⟩
    have hadmits_iff : ∀ s n, Admits e.nodes locs s n ↔ Admits e.nodes hard s n := fun s n => by
      rw [← hlocs, admits_hardOf]
    simp only [hadmits_iff] at hadmits hall
    exact hfree
      ⟨rid, others, f, hnodup, fun x hx => hperm.mem_iff.mp (hsub hx), hadmits, hapart, hall⟩
  · rintro e cs rfl rfl rfl horders
    exact rejectsOnlyImpossible_of hids hknown horders

/-- Two resources that have to be apart on two nodes. -/
theorem apart_on_two_nodes :
    let e : Engine := ⟨[⟨[97], [49], 5⟩, ⟨[98], [], 0⟩], [⟨[49]⟩, ⟨[50]⟩]⟩
    RejectsOnlyImpossible e
      ⟨[⟨[98], [49], .prefer, 7⟩], [⟨[97], [98], false⟩], [⟨[98], [97]⟩]⟩ := by
  intro e
  have hfree : ¬ CanBeCutOff [[97], [98]] [⟨[49]⟩, ⟨[50]⟩] [] [⟨[97], [98], false⟩] := by
    rintro ⟨rid, others, f, _, _, _, _, hall⟩
    have hadmits : ∀ n ∈ [[49], [50]], Admits [⟨[49]⟩, ⟨[50]⟩] [] rid n := by
      intro n hn
      refine ⟨by simpa [eq_comm] using hn, ?_, ?_⟩ <;> simp [Names]
    obtain ⟨_, hco, _, p, _, hp, hf⟩ := hall [49] (hadmits _ (by simp))
    obtain ⟨_, hco', _, p', _, hp', hf'⟩ := hall [50] (hadmits _ (by simp))
    obtain rfl := mem_singleton.mp hco
    obtain rfl := mem_singleton.mp hco'
    cases hp.symm.trans hp'
    exact absurd (hf.symm.trans hf') (by decide)
  have hpinned : TogetherPinned [⟨[49]⟩, ⟨[50]⟩] [] [⟨[97], [98], false⟩] := by
    intro co hco htogether
    obtain rfl := mem_singleton.mp hco
    cases htogether
  have hall := (rejects_only_impossible_iff [[97], [98]] [⟨[49]⟩, ⟨[50]⟩] [] [⟨[97], [98], false⟩]
    (by decide) rfl (by decide)).2.1.mpr fun _ => ⟨hpinned, hfree⟩
  exact hall e _ _ rfl (List.Perm.refl _) rfl (.inr (by decide))

/-- The first resource takes the only node of the second one. An unknown resource has to be started
first. -/
theorem dead_end_and_unknown_resource :
    let e : Engine := ⟨[⟨[97], [], 0⟩, ⟨[98], [], 0⟩], [⟨[49]⟩, ⟨[50]⟩]⟩
    ¬ RejectsOnlyImpossible e ⟨[⟨[98], [49], .required, 0⟩], [⟨[97], [98], false⟩], []⟩ ∧
      ¬ RejectsOnlyImpossible e ⟨[], [], [⟨[120], [97]⟩]⟩ := by
  intro e
  constructor
  · intro h
    refine h.1 rfl ⟨fun rid => if rid = [97] then [50] else [49], fun rid hrid => ?_, by decide⟩
    refine (mem_allowedNodes ..).mp ?_
    have hrid : rid = [97] ∨ rid = [98] := by simpa [e] using hrid
    rcases hrid with rfl | rfl <;> decide
  intro h
  obtain ⟨x, hcycle⟩ := h.2 rfl
  obtain ⟨y, hhead, _⟩ := Relation.TransGen.head'_iff.mp hcycle
  obtain ⟨z, _, htail⟩ := Relation.TransGen.tail'_iff.mp hcycle
  have hsource : x = [120] := congrArg Edge.source (mem_singleton.mp hhead)
  have htarget : x = [97] := congrArg Edge.target (mem_singleton.mp htail)
  exact absurd (hsource.symm.trans htarget) (by decide)

end HelixCluster.Constraints
