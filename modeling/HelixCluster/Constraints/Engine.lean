import HelixCluster.Lib.Kahn

/-!
# The placement constraint engine

The `Engine` of `pkg/constraints`.
-/

namespace HelixCluster.Constraints

open List

inductive Affinity where
  | prefer
  | required
  | forbidden
  deriving DecidableEq

structure Resource where
  id : Str
  current : Str
  stickiness : Int64

structure Node where
  id : Str

structure Location where
  resource : Str
  node : Str
  affinity : Affinity
  score : Int64
  deriving DecidableEq

structure Colocation where
  first : Str
  second : Str
  together : Bool

structure Order where
  before : Str
  after : Str

structure ConstraintSet where
  locations : List Location
  colocations : List Colocation
  orders : List Order

abbrev Placement := GoMap Str Str

structure Result where
  placement : Placement
  startOrder : List Str

/-- The errors of the package. -/
inductive Err where
  | unsatisfiable
  | orderCycle
  deriving DecidableEq

structure Engine where
  resources : List Resource
  nodes : List Node

/-- `colocationBonus`, which is 2^20. -/
def colocationBonus : Int64 := 1048576

def saturatingAdd (a b : Int64) : Int64 :=
  if b > 0 ∧ a > Int64.maxValue - b then .maxValue
  else if b < 0 ∧ a < Int64.minValue - b then .minValue
  else a + b

def colocationPartner (co : Colocation) (rid : Str) : Option Str :=
  if rid = co.first then some co.second
  else if rid = co.second then some co.first
  else none

/-- The edge of an `Order`. -/
def Order.edge (o : Order) : Edge Str := ⟨o.before, o.after⟩

/-- The loop over the resources in `topoSort`: their IDs, each once. -/
def distinctIDs (resources : List Resource) : List Str :=
  (distinct (resources.map Resource.id)).2

def topoSort (resources : List Resource) (orders : List Order) : Except Err (List Str) :=
  match kahn (distinctIDs resources) (orders.map Order.edge) with
  | none => .error .orderCycle
  | some order => .ok order

/-! ### Admissible nodes -/

/-- The set of nodes that the locations of one affinity name for each resource. -/
def hardNodes (affinity : Affinity) (locs : List Location) : GoMap Str (GoMap Str Unit) :=
  locs.foldl (fun sets loc =>
    if loc.affinity = affinity then
      sets.insert loc.resource ((sets.read loc.resource ∅).insert loc.node ())
    else sets) ∅

/-- The nodes that are allowed for a resource. -/
def allowedNodes (nodes : List Node) (locs : List Location) (rid : Str) : List Str :=
  (nodes.filter fun n =>
    ¬ n.id ∈ (hardNodes .forbidden locs).read rid ∅ ∧
      ¬ (rid ∈ hardNodes .required locs ∧ n.id ∉ (hardNodes .required locs).read rid ∅)).map Node.id

/-- The loop over the resources in `admissibleNodes`. -/
def admissibleLoop (nodes : List Node) (locs : List Location) :
    List Resource → GoMap Str (List Str) → Except Err (GoMap Str (List Str))
  | [], out => .ok out
  | r :: resources, out =>
    if (allowedNodes nodes locs r.id).length = 0 then .error .unsatisfiable
    else admissibleLoop nodes locs resources (out.insert r.id (allowedNodes nodes locs r.id))

def Engine.admissibleNodes (e : Engine) (locs : List Location) :
    Except Err (GoMap Str (List Str)) :=
  admissibleLoop e.nodes locs e.resources ∅

/-! ### Scores -/

/-- What is known when a resource is placed. -/
structure Context where
  rid : Str
  placement : Placement
  current : GoMap Str Str
  stick : GoMap Str Int64
  cs : ConstraintSet

/-- The Prefer scores of a node. -/
def preferScore (cx : Context) (nid : Str) : Int64 :=
  cx.cs.locations.foldl (fun score loc =>
    if loc.resource = cx.rid ∧ loc.node = nid ∧ loc.affinity = .prefer then
      saturatingAdd score loc.score
    else score) 0

/-- The score of a node with the stickiness. -/
def stickyScore (cx : Context) (nid : Str) : Int64 :=
  let cur := cx.current.read cx.rid []
  if cur ≠ [] ∧ cur = nid then saturatingAdd (preferScore cx nid) (cx.stick.read cx.rid 0)
  else preferScore cx nid

/-- A round of the loop over the colocations, with the score and whether the node is vetoed. -/
def colocate (cx : Context) (nid : Str) (s : Int64 × Bool) (co : Colocation) : Int64 × Bool :=
  match colocationPartner co cx.rid with
  | none => s
  | some partner =>
    match cx.placement.lookup partner with
    | none => s
    | some pnode =>
      if pnode = nid then
        if co.together then (saturatingAdd s.1 colocationBonus, s.2) else (s.1, true)
      else s

/-- The score of a node, and whether it is vetoed. -/
def tally (cx : Context) (nid : Str) : Int64 × Bool :=
  cx.cs.colocations.foldl (colocate cx nid) (stickyScore cx nid, false)

/-- The best node so far. -/
structure Best where
  node : Str
  score : Int64

/-- A round of the loop over the candidates in `bestNode`. -/
def consider (cx : Context) (best : Option Best) (nid : Str) : Option Best :=
  if (tally cx nid).2 then best
  else
    match best with
    | none => some ⟨nid, (tally cx nid).1⟩
    | some best => if (tally cx nid).1 > best.score then some ⟨nid, (tally cx nid).1⟩ else some best

def bestNode (cx : Context) (cand : List Str) : Option Str :=
  (cand.foldl (consider cx) none).map Best.node

/-! ### Solve -/

/-- The loop over the start order in `Solve`. -/
def placeLoop (admissible : GoMap Str (List Str)) (current : GoMap Str Str)
    (stick : GoMap Str Int64) (cs : ConstraintSet) :
    List Str → Placement → Except Err Placement
  | [], placement => .ok placement
  | rid :: order, placement =>
    match bestNode ⟨rid, placement, current, stick, cs⟩ (admissible.read rid []) with
    | none => .error .unsatisfiable
    | some best => placeLoop admissible current stick cs order (placement.insert rid best)

/-- The current node of each resource. -/
def currentNodes (resources : List Resource) : GoMap Str Str :=
  resources.foldl (fun current r => current.insert r.id r.current) ∅

/-- The stickiness of each resource. -/
def stickiness (resources : List Resource) : GoMap Str Int64 :=
  resources.foldl (fun stick r => stick.insert r.id r.stickiness) ∅

/-- The check after the placement. -/
def split (placement : Placement) (cs : ConstraintSet) : Bool :=
  cs.colocations.any fun co =>
    co.together && decide (placement.read co.first [] ≠ placement.read co.second [])

/-- The end of `Solve`, after the loop. -/
def conclude (cs : ConstraintSet) (order : List Str) : Except Err Placement → Except Err Result
  | .error err => .error err
  | .ok placement => if split placement cs then .error .unsatisfiable else .ok ⟨placement, order⟩

def Engine.solve (e : Engine) (cs : ConstraintSet) : Except Err Result :=
  match topoSort e.resources cs.orders with
  | .error err => .error err
  | .ok order =>
    match e.admissibleNodes cs.locations with
    | .error err => .error err
    | .ok admissible =>
      conclude cs order
        (placeLoop admissible (currentNodes e.resources) (stickiness e.resources) cs order ∅)

/-! ### What the loops come to -/

/-- A Location constraint names the resource and the node. -/
def Names (affinity : Affinity) (locs : List Location) (rid nid : Str) : Prop :=
  ∃ loc ∈ locs, loc.affinity = affinity ∧ loc.resource = rid ∧ loc.node = nid

/-- The node is not Forbidden for the resource, and it is Required if any is. -/
def Admits (nodes : List Node) (locs : List Location) (rid nid : Str) : Prop :=
  (∃ n ∈ nodes, n.id = nid) ∧ ¬ Names .forbidden locs rid nid ∧
    ((∃ n, Names .required locs rid n) → Names .required locs rid nid)

theorem hardNodes_append (affinity : Affinity) (locs : List Location) (loc : Location) :
    hardNodes affinity (locs ++ [loc]) = if loc.affinity = affinity then
        (hardNodes affinity locs).insert loc.resource
          (((hardNodes affinity locs).read loc.resource ∅).insert loc.node ())
      else hardNodes affinity locs := by
  unfold hardNodes
  rw [foldl_append]
  rfl

theorem names_append {affinity : Affinity} {locs : List Location} {loc : Location}
    {rid nid : Str} : Names affinity (locs ++ [loc]) rid nid ↔ Names affinity locs rid nid ∨
        loc.affinity = affinity ∧ loc.resource = rid ∧ loc.node = nid := by
  simp only [Names, mem_append, mem_singleton, or_and_right, exists_or, exists_eq_left]

theorem mem_read_hardNodes (affinity : Affinity) (locs : List Location) (rid nid : Str) :
    nid ∈ (hardNodes affinity locs).read rid ∅ ↔ Names affinity locs rid nid := by
  induction locs using List.reverseRecOn with
  | nil => exact iff_of_false (AList.notMem_empty nid) (by simp [Names])
  | append_singleton locs loc ih =>
    rw [hardNodes_append, names_append, ← ih]
    by_cases haffinity : loc.affinity = affinity
    · rw [if_pos haffinity, GoMap.read_insert_if]
      rcases eq_or_ne rid loc.resource with rfl | hrid
      · simp [haffinity, eq_comm, or_comm]
      · simp [hrid, Ne.symm hrid]
    · simp [haffinity]

theorem mem_hardNodes (affinity : Affinity) (locs : List Location) (rid : Str) :
    rid ∈ hardNodes affinity locs ↔ ∃ nid, Names affinity locs rid nid := by
  induction locs using List.reverseRecOn with
  | nil => simp [hardNodes, Names, AList.notMem_empty]
  | append_singleton locs loc ih =>
    simp only [hardNodes_append, names_append, exists_or, ← ih]
    by_cases haffinity : loc.affinity = affinity
    · rw [if_pos haffinity, AList.mem_insert]
      simp [haffinity, eq_comm, or_comm]
    · simp [haffinity]

theorem mem_allowedNodes (nodes : List Node) (locs : List Location) (rid nid : Str) :
    nid ∈ allowedNodes nodes locs rid ↔ Admits nodes locs rid nid := by
  simp only [allowedNodes, mem_read_hardNodes, mem_hardNodes, mem_map, mem_filter,
    decide_eq_true_eq, Admits]
  constructor
  · rintro ⟨n, ⟨hn, hforbidden, hrequired⟩, rfl⟩
    exact ⟨⟨n, hn, rfl⟩, hforbidden, fun h => by_contra fun hno => hrequired ⟨h, hno⟩⟩
  · rintro ⟨⟨n, hn, rfl⟩, hforbidden, hrequired⟩
    exact ⟨n, ⟨hn, hforbidden, fun h => h.2 (hrequired h.1)⟩, rfl⟩

variable {nodes : List Node} {locs : List Location} {resources : List Resource}

/-- `admissibleNodes` fails exactly if no node is left for some resource. -/
theorem admissibleLoop_cases (nodes : List Node) (locs : List Location) (resources : List Resource)
    (out : GoMap Str (List Str)) :
    (∃ out', admissibleLoop nodes locs resources out = .ok out' ∧
      (∀ r ∈ resources, allowedNodes nodes locs r.id ≠ []) ∧
      ∀ rid, out'.lookup rid = if rid ∈ resources.map Resource.id
        then some (allowedNodes nodes locs rid) else out.lookup rid) ∨
    admissibleLoop nodes locs resources out = .error .unsatisfiable ∧
      ∃ r ∈ resources, allowedNodes nodes locs r.id = [] := by
  induction resources generalizing out with
  | nil => exact .inl ⟨out, rfl, by simp, by simp⟩
  | cons r resources ih =>
    unfold admissibleLoop
    by_cases hempty : allowedNodes nodes locs r.id = []
    · exact .inr ⟨if_pos (by rw [hempty]; rfl), r, mem_cons_self, hempty⟩
    rw [if_neg (by rwa [length_eq_zero_iff])]
    rcases ih (out.insert r.id (allowedNodes nodes locs r.id)) with
      ⟨out', hok, hall, hlookup⟩ | ⟨herror, r', hr', hnone⟩
    · refine .inl ⟨out', hok, forall_mem_cons.mpr ⟨hempty, hall⟩, fun rid => ?_⟩
      rw [hlookup, GoMap.lookup_insert_if, map_cons]
      by_cases hrest : rid ∈ resources.map Resource.id
      · rw [if_pos hrest, if_pos (mem_cons_of_mem _ hrest)]
      rw [if_neg hrest]
      by_cases hrid : rid = r.id
      · simp [hrid]
      · rw [if_neg hrid, if_neg (by simpa [hrid] using hrest)]
    · exact .inr ⟨herror, r', mem_cons_of_mem r hr', hnone⟩

variable {cx : Context} {nid : Str} {cand : List Str}

/-- An anti-affinity partner of the resource is on the node. -/
def Vetoed (cx : Context) (nid : Str) : Prop :=
  ∃ co ∈ cx.cs.colocations, co.together = false ∧
    ∃ partner, colocationPartner co cx.rid = some partner ∧ cx.placement.lookup partner = some nid

theorem colocate_vetoed (cx : Context) (nid : Str) (s : Int64 × Bool) (co : Colocation) :
    (colocate cx nid s co).2 = true ↔ s.2 = true ∨ co.together = false ∧
      ∃ partner, colocationPartner co cx.rid = some partner ∧
        cx.placement.lookup partner = some nid := by
  unfold colocate
  cases colocationPartner co cx.rid with
  | none => simp
  | some partner =>
    cases hlookup : cx.placement.lookup partner with
    | none => simp [hlookup]
    | some pnode =>
      by_cases hnode : pnode = nid
      · cases htogether : co.together <;> simp [hlookup, hnode]
      · simp [hlookup, hnode]

theorem tally_vetoed (cx : Context) (nid : Str) : (tally cx nid).2 = true ↔ Vetoed cx nid := by
  have hloop : ∀ (cos : List Colocation) (s : Int64 × Bool),
      (cos.foldl (colocate cx nid) s).2 = true ↔ s.2 = true ∨ ∃ co ∈ cos, co.together = false ∧
        ∃ partner, colocationPartner co cx.rid = some partner ∧
          cx.placement.lookup partner = some nid := by
    intro cos
    induction cos with
    | nil => simp
    | cons co cos ih =>
      intro s
      rw [foldl_cons, ih, colocate_vetoed, exists_mem_cons_iff, or_assoc]
  exact (hloop cx.cs.colocations (stickyScore cx nid, false)).trans (by simp [Vetoed])

/-- The node is the first one with the highest score among those that are not vetoed. -/
structure FirstBest (cx : Context) (cand : List Str) (best : Str) : Prop where
  not_vetoed : ¬ Vetoed cx best
  first : ∃ l r, cand = l ++ best :: r ∧
    (∀ x ∈ l, ¬ Vetoed cx x → (tally cx x).1 < (tally cx best).1) ∧
    ∀ x ∈ r, ¬ Vetoed cx x → (tally cx x).1 ≤ (tally cx best).1

variable {best : Str}

theorem FirstBest.snoc (h : FirstBest cx cand best)
    (hnid : ¬ Vetoed cx nid → (tally cx nid).1 ≤ (tally cx best).1) :
    FirstBest cx (cand ++ [nid]) best := by
  obtain ⟨l, r, rfl, hl, hr⟩ := h.first
  refine ⟨h.not_vetoed, l, r ++ [nid], by simp, hl, fun x hx hno => ?_⟩
  rcases mem_append.mp hx with hx | hx
  · exact hr x hx hno
  · rw [mem_singleton.mp hx] at hno ⊢
    exact hnid hno

theorem FirstBest.le (h : FirstBest cx cand best) {x : Str} (hx : x ∈ cand)
    (hno : ¬ Vetoed cx x) : (tally cx x).1 ≤ (tally cx best).1 := by
  obtain ⟨l, r, rfl, hl, hr⟩ := h.first
  rcases mem_append.mp hx with hx | hx
  · exact Int64.le_of_lt (hl x hx hno)
  rcases mem_cons.mp hx with rfl | hx
  · exact Int64.le_refl _
  · exact hr x hx hno

theorem foldl_consider (cx : Context) (cand : List Str) :
    (cand.foldl (consider cx) none = none ∧ ∀ x ∈ cand, Vetoed cx x) ∨
      ∃ best, cand.foldl (consider cx) none = some ⟨best, (tally cx best).1⟩ ∧
        FirstBest cx cand best := by
  induction cand using List.reverseRecOn with
  | nil => exact .inl ⟨rfl, by simp⟩
  | append_singleton cand nid ih =>
    rw [foldl_append, foldl_cons, foldl_nil]
    by_cases hveto : Vetoed cx nid
    · rw [consider.eq_def, if_pos ((tally_vetoed cx nid).mpr hveto)]
      rcases ih with ⟨hnone, hall⟩ | ⟨best, hbest, hfirst⟩
      · exact .inl ⟨hnone, by simpa [or_imp, forall_and, hveto] using hall⟩
      · exact .inr ⟨best, hbest, hfirst.snoc fun hno => absurd hveto hno⟩
    rw [consider.eq_def, if_neg (mt (tally_vetoed cx nid).mp hveto)]
    rcases ih with ⟨hnone, hall⟩ | ⟨best, hbest, hfirst⟩
    · rw [hnone]
      exact .inr ⟨nid, rfl, hveto, cand, [], rfl, fun x hx hno => absurd (hall x hx) hno, by simp⟩
    rw [hbest]
    by_cases hscore : (tally cx nid).1 > (tally cx best).1
    · refine .inr ⟨nid, if_pos hscore, hveto, cand, [], rfl, fun x hx hno => ?_, by simp⟩
      exact Int64.lt_of_le_of_lt (hfirst.le hx hno) hscore
    · exact .inr ⟨best, if_neg hscore, hfirst.snoc fun _ => Int64.not_lt.mp hscore⟩

theorem bestNode_some (h : bestNode cx cand = some best) : FirstBest cx cand best := by
  unfold bestNode at h
  rcases foldl_consider cx cand with ⟨hnone, _⟩ | ⟨best', hbest, hfirst⟩
  · simp [hnone] at h
  · rw [hbest] at h
    exact Option.some.inj h ▸ hfirst

theorem bestNode_eq_none_iff : bestNode cx cand = none ↔ ∀ x ∈ cand, Vetoed cx x := by
  unfold bestNode
  rcases foldl_consider cx cand with ⟨hnone, hall⟩ | ⟨best, hbest, hfirst⟩
  · simp only [hnone, Option.map_none, true_iff]
    exact hall
  obtain ⟨l, r, hsplit, _⟩ := hfirst.first
  simp only [hbest, Option.map_some, reduceCtorEq, false_iff, not_forall]
  exact ⟨best, by simp [hsplit], hfirst.not_vetoed⟩

theorem FirstBest.mem (h : FirstBest cx cand best) : best ∈ cand := by
  obtain ⟨l, r, rfl, _⟩ := h.first
  simp

end HelixCluster.Constraints
