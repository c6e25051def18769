import HelixCluster.Lib.GoMap

/-!
# Kahn's algorithm

A topological sort of `ids` by a list of edges, as a program with maps computes it:
-/

namespace HelixCluster

open List hiding beq_eq_decide

variable {K : Type} [DecidableEq K]

/-- An edge, from its source to its target. -/
structure Edge (K : Type) where
  source : K
  target : K
  deriving DecidableEq

/-- There is an edge from one node to the other. -/
def HasEdge (edges : List (Edge K)) (a b : K) : Prop := ⟨a, b⟩ ∈ edges

/-- The edges lead from a node back to itself. -/
def HasCycle (edges : List (Edge K)) : Prop := ∃ x, Relation.TransGen (HasEdge edges) x x

namespace Kahn

/-- The state of the loop. -/
structure State (K : Type) where
  indeg : GoMap K ℤ
  result : List K
  progressed : Bool

/-- `indeg[k] += n`. -/
def add (n : ℤ) (indeg : GoMap K ℤ) (k : K) : GoMap K ℤ := indeg.insert k (indeg.read k 0 + n)

/-- A node is consumed if no edge into it is left. -/
def visit (adj : GoMap K (List K)) (s : State K) (id : K) : State K :=
  if s.indeg.read id 0 = 0 then
    { indeg := (adj.read id []).foldl (add (-1)) (s.indeg.insert id (-1))
      result := s.result ++ [id]
      progressed := true }
  else s

/-- A pass over the nodes. -/
def pass (adj : GoMap K (List K)) (ids : List K) (s : State K) : State K :=
  ids.foldl (visit adj) { s with progressed := false }

/-- Passes, until all nodes are consumed or one of them finds nothing, at most `fuel` of them. -/
def drain (adj : GoMap K (List K)) (ids : List K) : ℕ → State K → Option (List K)
  | 0, s => if s.result.length < ids.length then none else some s.result
  | fuel + 1, s =>
    if s.result.length < ids.length then
      let s := pass adj ids s
      if s.progressed then drain adj ids fuel s else none
    else some s.result

/-- The targets of the edges from each node. -/
def adjacency (edges : List (Edge K)) : GoMap K (List K) :=
  edges.foldl (fun adj e => adj.insert e.source (adj.read e.source [] ++ [e.target])) ∅

/-- The number of edges into each node. -/
def indegrees (ids : List K) (edges : List (Edge K)) : GoMap K ℤ :=
  edges.foldl (fun indeg e => add 1 indeg e.target) (ids.foldl (fun indeg id => indeg.insert id 0) ∅)

end Kahn

/-- The nodes in an order in which the edges point forward. -/
def kahn (ids : List K) (edges : List (Edge K)) : Option (List K) :=
  Kahn.drain (Kahn.adjacency edges) ids ids.length ⟨Kahn.indegrees ids edges, [], false⟩

namespace Kahn

variable {ids result : List K} {edges : List (Edge K)} {s : State K} {id x : K}

/-- The edges into a node whose sources are not consumed. -/
def pending (edges : List (Edge K)) (result : List K) (id : K) : List (Edge K) :=
  edges.filter fun e => e.target = id ∧ e.source ∉ result

/-- Every node stands behind the sources of the edges into it. -/
def Closed (edges : List (Edge K)) (result : List K) : Prop :=
  ∀ l x r, result = l ++ x :: r → ∀ e ∈ edges, e.target = x → e.source ∈ l

/-- What holds between two visits. -/
structure Sound (ids : List K) (edges : List (Edge K)) (s : State K) : Prop where
  nodup : s.result.Nodup
  subset : s.result ⊆ ids
  closed : Closed edges s.result
  indeg : ∀ id, s.indeg.read id 0 =
    (pending edges s.result id).length - if id ∈ s.result then 1 else 0

theorem read_foldl_add (n : ℤ) (ks : List K) (indeg : GoMap K ℤ) (id : K) :
    (ks.foldl (add n) indeg).read id 0 = indeg.read id 0 + n * ks.count id := by
  induction ks generalizing indeg with
  | nil => simp
  | cons k ks ih =>
    rw [foldl_cons, ih, add, GoMap.read_insert_if, count_cons]
    rcases eq_or_ne id k with rfl | hk
    · simp
      ring
    · simp [hk, Ne.symm hk]

theorem read_adjacency (edges : List (Edge K)) (id : K) :
    (adjacency edges).read id [] = (edges.filter fun e => e.source = id).map Edge.target := by
  unfold adjacency
  induction edges using List.reverseRecOn with
  | nil => rfl
  | append_singleton edges e ih =>
    rw [foldl_append, foldl_cons, foldl_nil, GoMap.read_insert_if, filter_append, map_append]
    rcases eq_or_ne id e.source with rfl | hid
    · simp [ih]
    · simp [hid, Ne.symm hid, ih]

theorem read_indegrees (ids : List K) (edges : List (Edge K)) (id : K) :
    (indegrees ids edges).read id 0 = (pending edges [] id).length := by
  have hzero : ∀ (ids : List K) (indeg : GoMap K ℤ), indeg.read id 0 = 0 →
      (ids.foldl (fun indeg id => indeg.insert id 0) indeg).read id 0 = 0 := by
    intro ids
    induction ids with
    | nil => exact fun _ h => h
    | cons k ids ih =>
      intro indeg h
      refine ih _ ?_
      rw [GoMap.read_insert_if]
      split
      · rfl
      · exact h
  have hmap : indegrees ids edges = (edges.map Edge.target).foldl (add 1)
      (ids.foldl (fun indeg id => indeg.insert id 0) ∅) := by
    rw [foldl_map]
    rfl
  rw [hmap, read_foldl_add, hzero ids ∅ rfl, pending, ← countP_eq_length_filter, List.count,
    countP_map]
  simp [Function.comp_def, beq_eq_decide]

theorem length_pending_snoc (edges : List (Edge K)) (hid : id ∉ result) (x : K) :
    (pending edges result x).length = (pending edges (result ++ [id]) x).length +
      ((edges.filter fun e => e.source = id).map Edge.target).count x := by
  induction edges with
  | nil => rfl
  | cons e edges ih =>
    unfold pending at ih ⊢
    by_cases htarget : e.target = x <;> by_cases hsource : e.source = id <;>
      by_cases hresult : e.source ∈ result <;> simp_all
    all_goals omega

theorem pending_eq_nil_iff : pending edges result x = [] ↔
    ∀ e ∈ edges, e.target = x → e.source ∈ result := by
  simp [pending, filter_eq_nil_iff]

omit [DecidableEq K] in
theorem Closed.snoc (h : Closed edges result) (hid : ∀ e ∈ edges, e.target = id → e.source ∈ result) :
    Closed edges (result ++ [id]) := by
  intro l x r heq e he htarget
  rcases eq_nil_or_concat r with rfl | ⟨r, last, rfl⟩
  · obtain ⟨rfl, hlast⟩ := append_inj' heq rfl
    obtain rfl := singleton_inj.mp hlast
    exact hid e he htarget
  · have heq : result ++ [id] = (l ++ x :: r) ++ [last] := by simpa using heq
    exact h l x r (append_inj' heq rfl).1 e he htarget

theorem Closed.pending_eq_nil (h : Closed edges result) (hx : x ∈ result) :
    pending edges result x = [] := by
  obtain ⟨l, r, hsplit⟩ := append_of_mem hx
  refine pending_eq_nil_iff.mpr fun e he htarget => ?_
  rw [hsplit]
  exact mem_append_left _ (h l x r hsplit e he htarget)

namespace Sound

theorem start (ids : List K) (edges : List (Edge K)) :
    Sound ids edges ⟨indegrees ids edges, [], false⟩ where
  nodup := nodup_nil
  subset := nil_subset _
  closed l x r heq := by simp at heq
  indeg id := by simp [read_indegrees]

theorem fresh (h : Sound ids edges s) (hzero : s.indeg.read id 0 = 0) :
    id ∉ s.result ∧ pending edges s.result id = [] := by
  have hindeg := h.indeg id
  by_cases hid : id ∈ s.result
  · rw [h.closed.pending_eq_nil hid, if_pos hid, hzero] at hindeg
    simp at hindeg
  · rw [if_neg hid, hzero] at hindeg
    exact ⟨hid, length_eq_zero_iff.mp (by omega)⟩

theorem visit (h : Sound ids edges s) (hid : id ∈ ids) :
    Sound ids edges (visit (adjacency edges) s id) := by
  unfold Kahn.visit
  split_ifs with hzero
  · obtain ⟨hfresh, hnone⟩ := h.fresh hzero
    refine ⟨nodup_append.mpr ⟨h.nodup, nodup_singleton id, by grind⟩,
      append_subset.mpr ⟨h.subset, by simpa using hid⟩,
      h.closed.snoc (pending_eq_nil_iff.mp hnone), fun x => ?_⟩
    have hsnoc := length_pending_snoc edges hfresh x
    rw [read_foldl_add, GoMap.read_insert_if, read_adjacency]
    rcases eq_or_ne x id with rfl | hx
    · rw [hnone] at hsnoc
      simp at hsnoc ⊢
      omega
    rw [if_neg hx, h.indeg x, hsnoc]
    simp [hx]
    omega
  · exact h

end Sound

/-- What visits to some of the nodes come to. -/
structure Visited (ids : List K) (edges : List (Edge K)) (ks : List K) (s s' : State K) : Prop where
  sound : Sound ids edges s'
  length_le : s.result.length ≤ s'.result.length
  progress : s'.progressed = true → s.progressed = true ∨ s.result.length < s'.result.length
  stuck : s'.progressed = false → s' = s ∧ ∀ id ∈ ks, s.indeg.read id 0 ≠ 0

section

variable (h : Sound ids edges s)

include h

theorem visited {ks : List K} (hks : ks ⊆ ids) :
    Visited ids edges ks s (ks.foldl (visit (adjacency edges)) s) := by
  induction ks generalizing s with
  | nil => exact ⟨h, Nat.le_refl _, .inl, fun _ => ⟨rfl, by simp⟩⟩
  | cons k ks ih =>
    obtain ⟨hk, hks⟩ := cons_subset.mp hks
    have hrest := ih (h.visit hk) hks
    rw [foldl_cons]
    by_cases hzero : s.indeg.read k 0 = 0
    · -- The node is consumed, and this is progress.
      have hlength : (visit (adjacency edges) s k).result.length = s.result.length + 1 := by
        simp [visit, hzero]
      have hprogressed : (visit (adjacency edges) s k).progressed = true := by
        simp [visit, hzero]
      have hle := hrest.length_le
      refine ⟨hrest.sound, by omega, fun _ => .inr (by omega), fun hstuck => ?_⟩
      rw [(hrest.stuck hstuck).1, hprogressed] at hstuck
      cases hstuck
    have hsame : visit (adjacency edges) s k = s := if_neg hzero
    rw [hsame] at hrest ⊢
    refine ⟨hrest.sound, hrest.length_le, hrest.progress, fun hstuck => ?_⟩
    obtain ⟨heq, hnone⟩ := hrest.stuck hstuck
    exact ⟨heq, forall_mem_cons.mpr ⟨hzero, hnone⟩⟩

theorem Sound.reset : Sound ids edges { s with progressed := false } :=
  ⟨h.nodup, h.subset, h.closed, h.indeg⟩

theorem Sound.pass : Visited ids edges ids { s with progressed := false }
    (pass (adjacency edges) ids s) :=
  visited h.reset (List.Subset.refl ids)

/-- The loop ends with all nodes in order, or with a pass that finds nothing, within the fuel. -/
theorem Sound.drain (fuel : ℕ) (hfuel : ids.length ≤ s.result.length + fuel) :
    ∃ t, Sound ids edges t ∧
      (drain (adjacency edges) ids fuel s = some t.result ∧ ids.length ≤ t.result.length ∨
        drain (adjacency edges) ids fuel s = none ∧ t.result.length < ids.length ∧
          ∀ id ∈ ids, t.indeg.read id 0 ≠ 0) := by
  induction fuel generalizing s with
  | zero => exact ⟨s, h, .inl ⟨if_neg (by omega), by omega⟩⟩
  | succ fuel ih =>
    unfold Kahn.drain
    by_cases hmore : s.result.length < ids.length
    · simp only [hmore, if_true]
      have hpass := h.pass
      cases hprogressed : (Kahn.pass (adjacency edges) ids s).progressed with
      | true =>
        have hlonger := (hpass.progress hprogressed).resolve_left (by simp)
        have hlonger : s.result.length < (Kahn.pass (adjacency edges) ids s).result.length := hlonger
        exact ih hpass.sound (by omega)
      | false => exact ⟨_, h.reset, .inr ⟨rfl, hmore, (hpass.stuck hprogressed).2⟩⟩
    · rw [if_neg hmore]
      exact ⟨s, h, .inl ⟨rfl, by omega⟩⟩

end

end Kahn

omit [DecidableEq K] in
theorem hasCycle_of_predecessor {edges : List (Edge K)} {U : List K} {x : K} (hx : x ∈ U)
    (hpred : ∀ x ∈ U, ∃ y ∈ U, HasEdge edges y x) : HasCycle edges := by
  by_contra hacyclic
  let R : {x // x ∈ U} → {x // x ∈ U} → Prop := fun a b => Relation.TransGen (HasEdge edges) a b
  have : IsTrans _ R := ⟨fun _ _ _ => Relation.TransGen.trans⟩
  have : Std.Irrefl R := ⟨fun a ha => hacyclic ⟨a, ha⟩⟩
  have : Finite {x // x ∈ U} := U.finite_toSet.to_subtype
  have hwf : WellFounded R := Finite.wellFounded_of_trans_of_irrefl R
  obtain ⟨⟨m, hm⟩, _, hmin⟩ := hwf.has_min Set.univ ⟨⟨x, hx⟩, trivial⟩
  obtain ⟨y, hy, hlink⟩ := hpred m hm
  exact hmin ⟨y, hy⟩ trivial (Relation.TransGen.single hlink)

variable {ids order : List K} {edges : List (Edge K)}

theorem kahn_some (h : kahn ids edges = some order) : order.Perm ids ∧ Kahn.Closed edges order := by
  obtain ⟨t, ht, hdrain⟩ := (Kahn.Sound.start ids edges).drain ids.length (by simp)
  rcases hdrain with ⟨hsome, hlength⟩ | ⟨hnone, _⟩
  · obtain rfl : t.result = order := Option.some.inj (hsome.symm.trans h)
    have hsub : t.result.Subperm ids := subperm_of_subset ht.nodup ht.subset
    exact ⟨hsub.perm_of_length_le hlength, ht.closed⟩
  · exact absurd (h.symm.trans hnone) (by simp)

theorem kahn_none (hids : ids.Nodup) (h : kahn ids edges = none)
    (hknown : ∀ e ∈ edges, e.target ∈ ids → e.source ∈ ids) : HasCycle edges := by
  obtain ⟨t, ht, hdrain⟩ := (Kahn.Sound.start ids edges).drain ids.length (by simp)
  rcases hdrain with ⟨hsome, _⟩ | ⟨_, hlength, hstuck⟩
  · exact absurd (h.symm.trans hsome) (by simp)
  -- The nodes that are left have edges into them from nodes that are left.
  have hleft : ∃ x ∈ ids, x ∉ t.result := by
    by_contra hnone
    have hall : ids ⊆ t.result := fun x hx => by_contra fun hleft => hnone ⟨x, hx, hleft⟩
    have := (subperm_of_subset hids hall).length_le
    omega
  obtain ⟨x, hx, hxleft⟩ := hleft
  refine hasCycle_of_predecessor (U := ids.filter (· ∉ t.result)) (x := x) (by simp [hx, hxleft]) ?_
  intro y hy
  obtain ⟨hy, hyleft⟩ : y ∈ ids ∧ y ∉ t.result := by simpa using hy
  have hpending : Kahn.pending edges t.result y ≠ [] := by
    intro hnil
    refine hstuck y hy ?_
    rw [ht.indeg, hnil, if_neg hyleft]
    rfl
  obtain ⟨e, he⟩ := exists_mem_of_ne_nil _ hpending
  obtain ⟨hedge, hsome⟩ := mem_filter.mp he
  obtain ⟨htarget, hsource⟩ : e.target = y ∧ e.source ∉ t.result := by simpa using hsome
  refine ⟨e.source, ?_, ?_⟩
  · simp [hknown e hedge (htarget ▸ hy), hsource]
  show (⟨e.source, y⟩ : Edge K) ∈ edges
  rw [← htarget]
  exact hedge

variable {s : Kahn.State K}

theorem Kahn.visits_of_no_edges {ks : List K} (hks : ks.Nodup)
    (hindeg : ∀ k ∈ ks, s.indeg.read k 0 = 0) :
    (ks.foldl (Kahn.visit ∅) s).result = s.result ++ ks ∧
      (s.progressed = true ∨ ks ≠ [] → (ks.foldl (Kahn.visit ∅) s).progressed = true) := by
  induction ks generalizing s with
  | nil => simp
  | cons k ks ih =>
    obtain ⟨hk, hks⟩ := nodup_cons.mp hks
    obtain ⟨hzero, hrest⟩ := forall_mem_cons.mp hindeg
    have hvisit : Kahn.visit ∅ s k = ⟨s.indeg.insert k (-1), s.result ++ [k], true⟩ := if_pos hzero
    have hnext : ∀ j ∈ ks, GoMap.read (s.indeg.insert k (-1)) j 0 = 0 := by
      intro j hj
      have hne : j ≠ k := fun heq => hk (heq ▸ hj)
      rw [GoMap.read_insert_if, if_neg hne, hrest j hj]
    obtain ⟨hresult, hprogressed⟩ :=
      ih (s := ⟨s.indeg.insert k (-1), s.result ++ [k], true⟩) hks hnext
    rw [foldl_cons, hvisit]
    exact ⟨by simpa using hresult, fun _ => hprogressed (.inl rfl)⟩

theorem kahn_no_edges (hids : ids.Nodup) : kahn ids ([] : List (Edge K)) = some ids := by
  let s : Kahn.State K := ⟨Kahn.indegrees ids ([] : List (Edge K)), [], false⟩
  have hindeg : ∀ k ∈ ids, s.indeg.read k 0 = 0 := fun k _ => Kahn.read_indegrees ids [] k
  obtain ⟨hresult, hprogressed⟩ := Kahn.visits_of_no_edges hids hindeg
  show Kahn.drain ∅ ids ids.length s = some ids
  cases ids with
  | nil => rfl
  | cons k ks =>
    have hresult : (Kahn.pass ∅ (k :: ks) s).result = k :: ks := hresult
    have hprogressed : (Kahn.pass ∅ (k :: ks) s).progressed = true := hprogressed (.inr (by simp))
    have hmore : s.result.length < (k :: ks).length := Nat.zero_lt_succ _
    rw [length_cons, Kahn.drain, if_pos hmore]
    cases hks : ks.length <;> simp [Kahn.drain, hprogressed, hresult]

end HelixCluster
