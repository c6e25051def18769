import Mathlib.Data.List.Sort

/-!
# Orders that Go leaves open

A `Shuffle` chooses the order in which a loop ranges over a map. `sort.Slice` promises a
rearrangement that is ordered by the comparison, and nothing about the order of elements the
comparison does not separate.
-/

namespace HelixCluster

variable {α : Type}

/-- An implementation of `sort.Slice` for the comparison `less`. -/
structure SortSlice (less : α → α → Bool) where
  sort : List α → List α
  perm : ∀ xs, (sort xs).Perm xs
  ordered : ∀ xs, (sort xs).Pairwise fun a b => less b a = false

/-- Insertion sort implements `sort.Slice` for every strict weak order. -/
def SortSlice.insertionSort (less : α → α → Bool)
    (htrans : ∀ a b c, less b a = false → less c b = false → less c a = false)
    (htotal : ∀ a b, less b a = false ∨ less a b = false) : SortSlice less where
  sort xs := xs.insertionSort fun a b => less b a = false
  perm xs := xs.perm_insertionSort _
  ordered xs :=
    have : IsTrans α fun a b => less b a = false := ⟨htrans⟩
    have : Std.Total fun a b => less b a = false := ⟨htotal⟩
    List.pairwise_insertionSort (fun a b => less b a = false) xs

/-- An order in which a loop ranges over a map. -/
structure Shuffle (α : Type) where
  run : List α → List α
  perm : ∀ xs, (run xs).Perm xs

variable {σ K ν : Type} [DecidableEq K] {P : ν → Prop}

theorem view_foldl (view : σ → K → ν) (body : σ → K → σ) (φ : K → ν → ν)
    (hbody : ∀ s k, P (view s k) → ∀ j, view (body s k) j = if j = k then φ k (view s k) else view s j)
    {keys : List K} (hnodup : keys.Nodup) {s : σ} (hkeys : ∀ k ∈ keys, P (view s k)) (j : K) :
    view (keys.foldl body s) j = if j ∈ keys then φ j (view s j) else view s j := by
  induction keys generalizing s with
  | nil => simp
  | cons k keys ih =>
    obtain ⟨hk, hnodup⟩ := List.nodup_cons.mp hnodup
    have hstep := hbody s k (hkeys k List.mem_cons_self)
    have hother : ∀ i ∈ keys, view (body s k) i = view s i := by
      intro i hi
      have hne : i ≠ k := fun heq => hk (heq ▸ hi)
      rw [hstep, if_neg hne]
    rw [List.foldl_cons, ih hnodup fun i hi => by
      rw [hother i hi]
      exact hkeys i (List.mem_cons_of_mem k hi)]
    by_cases hj : j ∈ keys
    · rw [if_pos hj, if_pos (List.mem_cons_of_mem k hj), hother j hj]
    rw [if_neg hj, hstep]
    rcases eq_or_ne j k with rfl | hjk
    · rw [if_pos rfl, if_pos List.mem_cons_self]
    · rw [if_neg hjk, if_neg (by simp [hjk, hj])]

end HelixCluster
