import HelixCluster.Lib.GoString

/-!
# Value-multiplier preemption

`Preempt` of `pkg/preempt`, in exact arithmetic. The victims have the lowest priorities, and their
sizes make up for that of the incoming instance, which is enough on a node that is not over its
capacity (`makes_room_iff`).
-/

namespace HelixCluster.Preempt

open List

structure Instance where
  id : Str
  value : ℤ
  multiplier : ℤ
  size : ℤ
  soleGlobal : Bool

def Instance.effectivePriority (i : Instance) : ℤ := i.value * i.multiplier

structure Node where
  capacity : ℤ
  running : List Instance

def Node.used (n : Node) : ℤ := (n.running.map Instance.size).sum

def Node.free (n : Node) : ℤ := if n.capacity - n.used < 0 then 0 else n.capacity - n.used

/-- What makes a running instance a candidate. -/
def eligible (incoming i : Instance) : Bool :=
  !i.soleGlobal && decide (incoming.effectivePriority > i.effectivePriority)

/-- A candidate is not to be evicted after another one. -/
def NotAfter (a b : Instance × ℕ) : Prop :=
  toLex (a.1.effectivePriority, a.2) ≤ toLex (b.1.effectivePriority, b.2)

instance : DecidableRel NotAfter := fun _ _ => inferInstanceAs (Decidable (_ ≤ _))

/-- The candidates with their indices, the lowest priority first. -/
def cands (node : Node) (incoming : Instance) : List (Instance × ℕ) :=
  (node.running.zipIdx.filter fun c => eligible incoming c.1).insertionSort NotAfter

/-- The loop that accumulates victims, with the capacity that is freed. -/
def accumulate (need freed : ℤ) : List (Instance × ℕ) → List Instance × ℤ
  | [] => ([], freed)
  | c :: cs =>
    if freed ≥ need then ([], freed)
    else
      let rest := accumulate need (freed + c.1.size) cs
      (c.1 :: rest.1, rest.2)

def preempt (node : Node) (incoming : Instance) : List Instance × Bool :=
  let out := accumulate incoming.size node.free (cands node incoming)
  if out.2 < incoming.size then ([], false) else (out.1, true)

/-- A placement makes room at the expense of the lowest priorities, and is refused only if none can
be made. -/
structure MakesRoom (node : Node) (incoming : Instance) : Prop where
  room : (preempt node incoming).2 = true →
    node.used - ((preempt node incoming).1.map Instance.size).sum + incoming.size ≤ node.capacity
  victims : ∀ v ∈ (preempt node incoming).1,
    v.soleGlobal = false ∧ v.effectivePriority < incoming.effectivePriority
  survivors : ∃ rest, ((preempt node incoming).1 ++ rest).Perm (node.running.filter (eligible incoming)) ∧
    ∀ v ∈ (preempt node incoming).1, ∀ u ∈ rest, v.effectivePriority ≤ u.effectivePriority
  fits : node.used + incoming.size ≤ node.capacity → preempt node incoming = ([], true)
  refused : (preempt node incoming).2 = false →
    node.capacity <
      node.used - ((node.running.filter (eligible incoming)).map Instance.size).sum + incoming.size

variable {node : Node} {incoming : Instance}

theorem cands_perm : ((cands node incoming).map Prod.fst).Perm (node.running.filter (eligible incoming)) := by
  have hperm := (perm_insertionSort NotAfter
    (node.running.zipIdx.filter fun c => eligible incoming c.1)).map Prod.fst
  rwa [show (fun c : Instance × ℕ => eligible incoming c.1) = eligible incoming ∘ Prod.fst from rfl,
    ← filter_map, zipIdx_map_fst] at hperm

theorem cands_sorted : ((cands node incoming).map Prod.fst).Pairwise
    fun v u => v.effectivePriority ≤ u.effectivePriority := by
  have : Std.Total NotAfter := ⟨fun a b => le_total (α := ℤ ×ₗ ℕ) _ _⟩
  have : IsTrans _ NotAfter := ⟨fun a b c => le_trans (α := ℤ ×ₗ ℕ)⟩
  refine pairwise_map.mpr ((pairwise_insertionSort NotAfter _).imp fun {v u} h => ?_)
  exact (Prod.Lex.toLex_le_toLex.mp h).elim le_of_lt fun h => h.1.le

theorem accumulate_spec (need freed : ℤ) (cs : List (Instance × ℕ)) :
    ∃ rest, cs.map Prod.fst = (accumulate need freed cs).1 ++ rest ∧
      (accumulate need freed cs).2 = freed + ((accumulate need freed cs).1.map Instance.size).sum ∧
      ((accumulate need freed cs).2 < need → rest = []) ∧
      (need ≤ freed → (accumulate need freed cs).1 = []) := by
  induction cs generalizing freed with
  | nil => exact ⟨[], rfl, by simp [accumulate], fun _ => rfl, fun _ => rfl⟩
  | cons c cs ih =>
    unfold accumulate
    split_ifs with henough
    · exact ⟨(c :: cs).map Prod.fst, rfl, by simp, fun h => absurd h henough.not_gt, fun _ => rfl⟩
    · obtain ⟨rest, hsplit, hsum, hall, _⟩ := ih (freed + c.1.size)
      refine ⟨rest, by rw [map_cons, hsplit]; rfl, ?_, hall, fun h => absurd h henough⟩
      dsimp only
      rw [map_cons, sum_cons, hsum, add_assoc]

theorem le_free (node : Node) : node.capacity - node.used ≤ node.free := by
  unfold Node.free
  split <;> omega

theorem makesRoom_of_room (hroom : (preempt node incoming).2 = true →
    node.used - ((preempt node incoming).1.map Instance.size).sum + incoming.size ≤ node.capacity) :
    MakesRoom node incoming := by
  obtain ⟨rest, hsplit, hsum, hall, hnone⟩ := accumulate_spec incoming.size node.free (cands node incoming)
  have hperm := hsplit ▸ @cands_perm node incoming
  have hsorted := hsplit ▸ @cands_sorted node incoming
  have hfree := le_free node
  have hfree0 : 0 ≤ node.free := by
    unfold Node.free
    split <;> omega
  have hvictims : ∀ v ∈ (accumulate incoming.size node.free (cands node incoming)).1,
      v.soleGlobal = false ∧ v.effectivePriority < incoming.effectivePriority := by
    intro v hv
    have heligible := (mem_filter.mp (hperm.mem_iff.mp (mem_append_left rest hv))).2
    simpa [eligible] using heligible
  by_cases hshort : (accumulate incoming.size node.free (cands node incoming)).2 < incoming.size
  · have hcases : preempt node incoming = ([], false) := if_pos hshort
    obtain rfl := hall hshort
    rw [append_nil] at hperm
    refine ⟨hroom, ?_, ?_, fun hfits => ?_, fun _ => ?_⟩
    · rw [hcases]
      exact nofun
    · rw [hcases]
      exact ⟨_, Perm.refl _, nofun⟩
    · rw [hnone (by omega), map_nil, sum_nil] at hsum
      omega
    · rw [← (hperm.map Instance.size).sum_eq]
      omega
  · have hcases : preempt node incoming =
        ((accumulate incoming.size node.free (cands node incoming)).1, true) := if_neg hshort
    refine ⟨hroom, ?_, ?_, fun hfits => ?_, fun hrefused => ?_⟩
    · rw [hcases]
      exact hvictims
    · rw [hcases]
      exact ⟨rest, hperm, (pairwise_append.mp hsorted).2.2⟩
    · rw [hcases, hnone (by omega)]
    · rw [hcases] at hrefused
      cases hrefused

theorem makesRoom_of_le (hcapacity : node.used ≤ node.capacity) (incoming : Instance) :
    MakesRoom node incoming := by
  refine makesRoom_of_room fun hplaced => ?_
  obtain ⟨_, _, hsum, _, _⟩ := accumulate_spec incoming.size node.free (cands node incoming)
  have hfree : node.free = node.capacity - node.used := if_neg (by omega)
  unfold preempt at hplaced ⊢
  dsimp only at hplaced ⊢
  split at hplaced
  · cases hplaced
  · next henough =>
    rw [if_neg henough]
    dsimp only
    omega

theorem used_le_of_makesRoom (h : ∀ incoming, MakesRoom node incoming) :
    node.used ≤ node.capacity := by
  -- an instance without size is always placed
  have hfree : ¬ node.free < 0 := by
    unfold Node.free
    split <;> omega
  obtain ⟨_, _, hsum, _, hnone⟩ := accumulate_spec 0 node.free (cands node ⟨[], 0, 0, 0, false⟩)
  have hempty := hnone (by omega)
  have hcases : preempt node ⟨[], 0, 0, 0, false⟩ = ([], true) := by
    unfold preempt
    dsimp only
    rw [hsum, hempty, if_neg (by simpa using hfree)]
  have hroom := (h ⟨[], 0, 0, 0, false⟩).room
  rw [hcases] at hroom
  simpa using hroom rfl

/-- An instance of the highest priority that is as large as all candidates takes the place of them
all, and the node stays as full as it was. -/
theorem exists_not_makesRoom (hover : node.capacity < node.used)
    (hsize : ∀ i ∈ node.running, 0 < i.size) (hcand : ∃ i ∈ node.running, i.soleGlobal = false) :
    ∃ incoming, 0 < incoming.size ∧ ¬ MakesRoom node incoming := by
  obtain ⟨top, htop⟩ := (node.running.finite_toSet.image Instance.effectivePriority).bddAbove
  let movable := node.running.filter fun i => !i.soleGlobal
  let incoming : Instance := ⟨[], top + 1, 1, (movable.map Instance.size).sum, false⟩
  have hmovable : node.running.filter (eligible incoming) = movable := by
    refine filter_congr fun i hi => ?_
    have hle : i.effectivePriority ≤ top := htop (Set.mem_image_of_mem _ hi)
    have hlt : i.effectivePriority < incoming.effectivePriority := by
      show _ < (top + 1) * 1
      omega
    simp [eligible, hlt]
  have hpos : ∀ i ∈ movable, 0 < i.size := fun i hi => hsize i (mem_of_mem_filter hi)
  obtain ⟨i, hi, hsole⟩ := hcand
  have hi : i ∈ movable := mem_filter.mpr ⟨hi, by rw [hsole]; rfl⟩
  refine ⟨incoming, sum_pos _ (by simpa using hpos) (by simpa using ne_nil_of_mem hi), fun h => ?_⟩
  obtain ⟨rest, hsplit, hsum, hall, _⟩ := accumulate_spec incoming.size node.free (cands node incoming)
  have hperm := hsplit ▸ @cands_perm node incoming
  rw [hmovable] at hperm
  have hfree : node.free = 0 := if_pos (by omega)
  have htotal : _ = incoming.size := (hperm.map Instance.size).sum_eq
  rw [map_append, sum_append] at htotal
  have hrest : 0 ≤ (rest.map Instance.size).sum := by
    refine sum_nonneg fun s hs => ?_
    obtain ⟨u, hu, rfl⟩ := mem_map.mp hs
    exact (hpos u (hperm.mem_iff.mp (mem_append_right _ hu))).le
  have henough : ¬ (accumulate incoming.size node.free (cands node incoming)).2 < incoming.size := by
    intro hshort
    rw [hall hshort, map_nil, sum_nil] at htotal
    omega
  have hcases : preempt node incoming =
      ((accumulate incoming.size node.free (cands node incoming)).1, true) := if_neg henough
  have hroom := h.room
  rw [hcases] at hroom
  have hroom := hroom rfl
  dsimp only at hroom
  omega

/-- **Preemption makes room** for every incoming instance, if and only if the node is not over its
capacity; on a node whose instances have sizes, for every one that has a size, if and only if it is
not over its capacity or nothing on it can be evicted. -/
theorem makes_room_iff (node : Node) :
    ((∀ incoming, MakesRoom node incoming) ↔ node.used ≤ node.capacity) ∧
    ((∀ i ∈ node.running, 0 < i.size) →
      ((∀ incoming : Instance, 0 < incoming.size → MakesRoom node incoming) ↔
        node.used ≤ node.capacity ∨ ∀ i ∈ node.running, i.soleGlobal = true)) := by
  refine ⟨⟨used_le_of_makesRoom, makesRoom_of_le⟩, fun hsize => ⟨fun h => ?_, fun h incoming hpos => ?_⟩⟩
  · by_contra hnot
    push Not at hnot
    obtain ⟨hover, i, hi, hsole⟩ := hnot
    obtain ⟨incoming, hpos, hno⟩ :=
      exists_not_makesRoom hover hsize ⟨i, hi, Bool.eq_false_iff.mpr hsole⟩
    exact hno (h incoming hpos)
  rcases le_or_gt node.used node.capacity with hle | hover
  · exact makesRoom_of_le hle incoming
  -- without candidates nothing is freed, and the instance is refused
  have hsole := h.resolve_left hover.not_ge
  have hnone : cands node incoming = [] := by
    have hperm := @cands_perm node incoming
    rw [filter_eq_nil_iff.mpr fun i hi => by simp [eligible, hsole i hi]] at hperm
    exact map_eq_nil_iff.mp hperm.eq_nil
  have hfree : node.free = 0 := if_pos (by omega)
  refine makesRoom_of_room fun hplaced => ?_
  have hcases : preempt node incoming = ([], false) :=
    if_pos (by rw [hnone, hfree]; exact hpos)
  rw [hcases] at hplaced
  cases hplaced

/-- Two instances run on a node with room for one. One of them is evicted for a third. -/
theorem over_capacity_makes_no_room :
    ¬ MakesRoom ⟨1, [⟨[97], 0, 1, 1, false⟩, ⟨[98], 0, 1, 1, false⟩]⟩ ⟨[99], 1, 1, 1, false⟩ := by
  intro h
  exact absurd (h.room (by decide +kernel)) (by decide +kernel)

end HelixCluster.Preempt
