import Mathlib.Data.List.Basic

/-!
# Binary search

`bisect` is the loop of a binary search over an index range, with at most `fuel` passes:
`sort.Search` and hand-written searches share it.
-/

namespace HelixCluster

/-- The loop `for lo < hi`, which keeps the upper half when `before` holds in the middle. -/
def bisect (before : Nat → Bool) : Nat → Nat → Nat → Nat
  | 0, lo, _ => lo
  | fuel + 1, lo, hi =>
    if lo < hi then
      let mid := (lo + hi) / 2
      if before mid then bisect before fuel (mid + 1) hi else bisect before fuel lo mid
    else lo

/-- If `before` holds below `lo` and fails from `hi` on for good, the loop returns where it changes.
-/
theorem bisect_spec {before : Nat → Bool} {n : Nat}
    (hmono : ∀ i j, i ≤ j → j < n → before j = true → before i = true)
    {fuel lo hi : Nat} (hfuel : hi - lo ≤ fuel) (hle : lo ≤ hi) (hn : hi ≤ n)
    (hlo : ∀ i < lo, before i = true) (hhi : ∀ i, hi ≤ i → i < n → before i = false) :
    bisect before fuel lo hi ≤ n ∧ (∀ i < bisect before fuel lo hi, before i = true) ∧
      ∀ i, bisect before fuel lo hi ≤ i → i < n → before i = false := by
  induction fuel generalizing lo hi with
  | zero =>
    obtain rfl : lo = hi := by omega
    exact ⟨hn, hlo, hhi⟩
  | succ fuel ih =>
    simp only [bisect]
    split
    · next hlt =>
      split
      · next hmid =>
        refine ih (by omega) (by omega) hn ?_ hhi
        intro i hi'
        exact hmono i ((lo + hi) / 2) (by omega) (by omega) hmid
      · next hmid =>
        refine ih (by omega) (by omega) (by omega) hlo ?_
        intro i hge hlt'
        by_contra hi'
        exact hmid (hmono ((lo + hi) / 2) i hge hlt' (by simpa using hi'))
    · next hge =>
      obtain rfl : lo = hi := by omega
      exact ⟨hn, hlo, hhi⟩

variable {α : Type}

/-- The number of leading elements of the slice that satisfy `before`, found by bisection. -/
def searchSlice (xs : List α) (before : α → Bool) : Nat :=
  bisect (fun i => xs[i]?.any before) xs.length 0 xs.length

theorem searchSlice_split {xs : List α} {before : α → Bool}
    (hmono : xs.Pairwise fun a b => before b = true → before a = true) :
    ∃ front back, xs = front ++ back ∧ front.length = searchSlice xs before ∧
      (∀ x ∈ front, before x = true) ∧ ∀ x ∈ back, before x = false := by
  have hindex : ∀ i j, i ≤ j → j < xs.length → xs[j]?.any before = true →
      xs[i]?.any before = true := by
    intro i j hij hj h
    rcases Nat.lt_or_eq_of_le hij with hlt | rfl
    · have hi : i < xs.length := by omega
      simp only [List.getElem?_eq_getElem hj, List.getElem?_eq_getElem hi, Option.any_some] at h ⊢
      exact List.pairwise_iff_getElem.mp hmono i j hi hj hlt h
    · exact h
  have hspec : searchSlice xs before ≤ xs.length ∧
      (∀ i < searchSlice xs before, xs[i]?.any before = true) ∧
      ∀ i, searchSlice xs before ≤ i → i < xs.length → xs[i]?.any before = false :=
    bisect_spec hindex (by omega) (by omega) (Nat.le_refl _) (by omega) (by omega)
  obtain ⟨hle, hfront, hback⟩ := hspec
  refine ⟨xs.take (searchSlice xs before), xs.drop (searchSlice xs before), by simp,
    List.length_take_of_le hle, ?_, ?_⟩
  · intro x hx
    obtain ⟨i, hi, rfl⟩ := List.mem_take_iff_getElem.mp hx
    have := hfront i (by omega)
    simpa [List.getElem?_eq_getElem (show i < xs.length by omega)] using this
  intro x hx
  obtain ⟨i, hi, rfl⟩ := List.mem_drop_iff_getElem.mp hx
  have := hback (searchSlice xs before + i) (by omega) (by omega)
  simpa [List.getElem?_eq_getElem (show searchSlice xs before + i < xs.length by omega)] using this

end HelixCluster
