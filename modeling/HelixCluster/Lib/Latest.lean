import HelixCluster.Lib.GoMap

/-!
# The latest value of a key

A store that keeps, for every key, the largest value it was offered.
-/

namespace HelixCluster

open List

variable {K V : Type} [DecidableEq K] [LinearOrder V]

/-- The largest value a log has for a key. -/
def latest (log : List (K × V)) (k : K) : WithBot V :=
  ((log.filter fun e => e.1 = k).map Prod.snd).maximum

@[simp] theorem latest_nil (k : K) : latest ([] : List (K × V)) k = ⊥ := rfl

theorem latest_cons (j : K) (v : V) (log : List (K × V)) (k : K) :
    latest ((j, v) :: log) k = max (if j = k then (v : WithBot V) else ⊥) (latest log k) := by
  unfold latest
  by_cases h : j = k
  · simp [h, maximum_cons]
  · simp [h]

theorem latest_append (log tail : List (K × V)) (k : K) :
    latest (log ++ tail) k = max (latest log k) (latest tail k) := by
  unfold latest
  rw [filter_append, map_append, maximum_append]

theorem latest_singleton (j : K) (v : V) (k : K) :
    latest [(j, v)] k = if j = k then (v : WithBot V) else ⊥ := by
  rw [latest_cons, latest_nil, max_bot_right]

/-- A value that may be missing, with the missing one below all others. -/
def known : Option V → WithBot V
  | none => ⊥
  | some v => v

omit [LinearOrder V] in
@[simp] theorem known_none : known (none : Option V) = ⊥ := rfl

omit [LinearOrder V] in
@[simp] theorem known_some (v : V) : known (some v) = v := rfl

/-- What a store holds for a key. -/
def held (m : GoMap K V) (k : K) : WithBot V := known (m.lookup k)

omit [LinearOrder V] in
theorem held_insert (m : GoMap K V) (j : K) (v : V) (k : K) :
    held (m.insert j v) k = if k = j then (v : WithBot V) else held m k := by
  unfold held
  rw [GoMap.lookup_insert_if]
  split <;> rfl

/-- Offer a value to the store: it is kept unless what the store holds is at least as large. -/
def offer (m : GoMap K V) (k : K) (v : V) : GoMap K V :=
  match m.lookup k with
  | some cur => if cur < v then m.insert k v else m
  | none => m.insert k v

theorem held_offer (m : GoMap K V) (j : K) (v : V) (k : K) :
    held (offer m j v) k = max (held m k) (latest [(j, v)] k) := by
  have hinsert (hle : held m j ≤ v) :
      held (m.insert j v) k = max (held m k) (latest [(j, v)] k) := by
    rw [latest_singleton, held_insert]
    rcases eq_or_ne k j with rfl | hk
    · rw [if_pos rfl, if_pos rfl, max_eq_right hle]
    · rw [if_neg hk, if_neg (Ne.symm hk), max_bot_right]
  unfold offer
  split
  · next cur hcur =>
    have hheld : held m j = cur := by rw [held, hcur, known_some]
    split
    · next hlt => exact hinsert (by rw [hheld]; exact WithBot.coe_le_coe.mpr hlt.le)
    · next hle =>
      rw [latest_singleton]
      split
      · next hk =>
        subst hk
        rw [hheld, max_eq_left (WithBot.coe_le_coe.mpr (not_lt.mp hle))]
      · rw [max_bot_right]
  · next hnone =>
    have hheld : held m j = ⊥ := by rw [held, hnone, known_none]
    exact hinsert (by rw [hheld]; exact bot_le)

theorem held_foldl_offer (log : List (K × V)) (m : GoMap K V) (k : K) :
    held (log.foldl (fun m e => offer m e.1 e.2) m) k = max (held m k) (latest log k) := by
  induction log generalizing m with
  | nil => simp
  | cons e log ih =>
    obtain ⟨j, v⟩ := e
    rw [foldl_cons, ih, held_offer, latest_singleton, latest_cons, max_assoc]

/-! ## Registers that have to be created -/

/-- Offer a value to a register that may not exist, and that the offer may create. -/
def absorb (s : WithBot V) (x : Bool × V) : WithBot V :=
  if s = ⊥ ∧ x.1 = false then ⊥ else max s x.2

variable {s : WithBot V}

theorem absorb_ne_bot {x : Bool × V} (h : s ≠ ⊥ ∨ x.1 = true) :
    absorb s x = max s x.2 ∧ absorb s x ≠ ⊥ := by
  have hcond : ¬ (s = ⊥ ∧ x.1 = false) := by
    rintro ⟨hs, hx⟩
    rcases h with h | h
    · exact h hs
    · exact Bool.false_ne_true (hx.symm.trans h)
  rw [absorb, if_neg hcond]
  exact ⟨rfl, ne_bot_of_le_ne_bot WithBot.coe_ne_bot (le_max_right _ _)⟩

theorem foldl_absorb_of_ne_bot (hs : s ≠ ⊥) (xs : List (Bool × V)) :
    xs.foldl absorb s = max s (xs.map Prod.snd).maximum := by
  induction xs generalizing s with
  | nil => simp
  | cons x xs ih =>
    obtain ⟨habsorb, hne⟩ := absorb_ne_bot (.inl hs : s ≠ ⊥ ∨ x.1 = true)
    rw [foldl_cons, ih hne, habsorb, map_cons, maximum_cons, max_assoc]

theorem foldl_absorb_le (s : WithBot V) (xs : List (Bool × V)) :
    xs.foldl absorb s ≤ max s (xs.map Prod.snd).maximum := by
  induction xs generalizing s with
  | nil => simp
  | cons x xs ih =>
    have hle : absorb s x ≤ max s x.2 := by
      unfold absorb
      split
      · exact bot_le
      · exact le_rfl
    rw [map_cons, maximum_cons, ← max_assoc]
    exact (ih (absorb s x)).trans (max_le_max_right _ hle)

variable {xs : List (Bool × V)}

theorem le_foldl_absorb {a : V} (h : (true, a) ∈ xs) (s : WithBot V) :
    (a : WithBot V) ≤ xs.foldl absorb s := by
  induction xs generalizing s with
  | nil => cases h
  | cons x xs ih =>
    rcases mem_cons.mp h with rfl | h
    · obtain ⟨habsorb, hne⟩ := absorb_ne_bot (.inr rfl : s ≠ ⊥ ∨ (true, a).1 = true)
      rw [foldl_cons, foldl_absorb_of_ne_bot hne, habsorb]
      exact (le_max_right _ _).trans (le_max_left _ _)
    · exact ih h (absorb s x)

theorem foldl_absorb_of_false (h : ∀ x ∈ xs, x.1 = false) : xs.foldl absorb ⊥ = ⊥ := by
  induction xs with
  | nil => rfl
  | cons x xs ih =>
    obtain ⟨hx, hxs⟩ := forall_mem_cons.mp h
    rw [foldl_cons, absorb, if_pos ⟨rfl, hx⟩, ih hxs]

theorem foldl_absorb_of_true (h : ∀ x ∈ xs, x.1 = true) :
    xs.foldl absorb ⊥ = (xs.map Prod.snd).maximum := by
  cases xs with
  | nil => rfl
  | cons x xs =>
    obtain ⟨habsorb, hne⟩ := absorb_ne_bot (.inr (h x mem_cons_self) : (⊥ : WithBot V) ≠ ⊥ ∨ _)
    rw [foldl_cons, foldl_absorb_of_ne_bot hne, habsorb, map_cons, maximum_cons, max_bot_left]

theorem foldl_absorb_eq (h : s ≠ ⊥ ∨ xs = [] ∨ ∃ a, (true, a) ∈ xs ∧ ∀ x ∈ xs, x.2 ≤ a) :
    xs.foldl absorb s = max s (xs.map Prod.snd).maximum := by
  rcases h with hs | rfl | ⟨a, ha, hmax⟩
  · exact foldl_absorb_of_ne_bot hs xs
  · simp
  by_cases hs : s = ⊥
  · refine (foldl_absorb_le s xs).antisymm ?_
    have hmaximum : (xs.map Prod.snd).maximum = a := by
      refine maximum_eq_coe_iff.mpr ⟨mem_map_of_mem ha, ?_⟩
      intro v hv
      obtain ⟨x, hx, rfl⟩ := mem_map.mp hv
      exact hmax x hx
    rw [hs, max_bot_left, hmaximum]
    exact le_foldl_absorb ha ⊥
  · exact foldl_absorb_of_ne_bot hs xs

/-- If the order with the creating offers last ends with the maximum, the largest offer creates. -/
theorem exists_creating_of_foldl_absorb (hne : xs ≠ [])
    (h : ((xs.filter fun x => !x.1) ++ xs.filter fun x => x.1).foldl absorb ⊥ = (xs.map Prod.snd).maximum) :
    ∃ a, (true, a) ∈ xs ∧ ∀ x ∈ xs, x.2 ≤ a := by
  rw [foldl_append, foldl_absorb_of_false (by simp), foldl_absorb_of_true (by simp)] at h
  have hmaximum : (xs.map Prod.snd).maximum ≠ ⊥ :=
    maximum_ne_bot_of_ne_nil (mt map_eq_nil_iff.mp hne)
  obtain ⟨a, ha⟩ := WithBot.ne_bot_iff_exists.mp hmaximum
  rw [← ha] at h
  obtain ⟨x, hx, rfl⟩ := mem_map.mp (maximum_mem h)
  obtain ⟨hmem, htrue⟩ := mem_filter.mp hx
  refine ⟨x.2, ?_, fun y hy => ?_⟩
  · rw [← htrue]
    exact hmem
  · exact le_maximum_of_mem (mem_map_of_mem hy) ha.symm

end HelixCluster
