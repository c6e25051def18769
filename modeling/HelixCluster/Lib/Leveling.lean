import Mathlib

/-!
# Levelling loads with few moves

Each member of a finite set has a load, and had the load `kept` at first.
-/

namespace HelixCluster.Leveling

variable {ι : Type} {M : Finset ι} {kept load other : ι → ℕ} {low high : ℕ} {d r : ι}

/-- Nobody has gone below `high` who had that much. -/
def Early (M : Finset ι) (kept : ι → ℕ) (high : ℕ) (load : ι → ℕ) : Prop :=
  ∀ m ∈ M, min (kept m) high ≤ load m

/-- Nobody is above `high`, has gained to more than `low`, or has fallen below it. -/
structure Late (M : Finset ι) (kept : ι → ℕ) (low high : ℕ) (load : ι → ℕ) : Prop where
  le_high : ∀ m ∈ M, load m ≤ high
  gained : ∀ m ∈ M, kept m < load m → load m ≤ low
  min_le : ∀ m ∈ M, min (kept m) low ≤ load m

/-- What the greedy rules keep. -/
structure Greedy (M : Finset ι) (kept : ι → ℕ) (low high : ℕ) (load : ι → ℕ) : Prop where
  gained_high : ∀ m ∈ M, kept m < load m → load m ≤ high
  gained_low : ∀ m ∈ M, kept m < load m → (∃ j ∈ M, load j < low) → load m ≤ low
  phase : Early M kept high load ∨ Late M kept low high load

theorem greedy_kept (M : Finset ι) (kept : ι → ℕ) (low high : ℕ) : Greedy M kept low high kept where
  gained_high _ _ h := absurd h (Nat.lt_irrefl _)
  gained_low _ _ h := absurd h (Nat.lt_irrefl _)
  phase := .inl fun _ _ => Nat.min_le_left _ _

namespace Greedy

theorem kept_le_of_early (h : Early M kept high load) (hr : r ∈ M) (hlt : load r < high) :
    kept r ≤ load r := by
  have := h r hr
  omega

section

variable (h : Greedy M kept low high load)

include h

theorem kept_le_of_lt_low (hlow : low ≤ high) (hr : r ∈ M)
    (hlt : load r < low) : kept r ≤ load r := by
  rcases h.phase with hearly | hlate
  · exact kept_le_of_early hearly hr (by omega)
  · have := hlate.min_le r hr
    omega

theorem le_kept_of_high_lt (hd : d ∈ M) (hlt : high < load d) : load d ≤ kept d := by
  by_contra hgained
  have := h.gained_high d hd (by omega)
  omega

theorem early_of_high_lt (hd : d ∈ M) (hlt : high < load d) : Early M kept high load :=
  h.phase.resolve_right fun hlate => by
    have := hlate.le_high d hd
    omega

theorem le_kept_of_low_lt (hd : d ∈ M) (hlt : low < load d)
    (hr : r ∈ M) (hneed : load r < low) : load d ≤ kept d := by
  by_contra hgained
  have := h.gained_low d hd (by omega) ⟨r, hr, hneed⟩
  omega

theorem sum_sub_le (hother : ∀ m ∈ M, low ≤ other m ∧ other m ≤ high)
    (htotal : ∑ m ∈ M, load m = ∑ m ∈ M, other m) :
    ∑ m ∈ M, (kept m - load m) ≤ ∑ m ∈ M, (kept m - other m) := by
  rcases h.phase with hearly | hlate
  · refine Finset.sum_le_sum fun m hm => ?_
    have hkeeps := hearly m hm
    have hbound := hother m hm
    omega
  -- what is lost and what is gained differ by the change of the total, so the gains decide
  have hexchange : ∀ l : ι → ℕ,
      ∑ m ∈ M, (kept m - l m) + ∑ m ∈ M, l m = ∑ m ∈ M, (l m - kept m) + ∑ m ∈ M, kept m := by
    intro l
    rw [← Finset.sum_add_distrib, ← Finset.sum_add_distrib]
    exact Finset.sum_congr rfl fun m _ => by omega
  have hgains : ∑ m ∈ M, (load m - kept m) ≤ ∑ m ∈ M, (other m - kept m) := by
    refine Finset.sum_le_sum fun m hm => ?_
    have hbound := hother m hm
    have hgained := hlate.gained m hm
    omega
  have hown := hexchange load
  have hothers := hexchange other
  omega

end

end Greedy

section Totals

theorem exists_lt_of_total_lt (h : ∑ m ∈ M, load m < M.card * high) : ∃ m ∈ M, load m < high := by
  by_contra hall
  push Not at hall
  have := Finset.sum_le_sum hall
  rw [Finset.sum_const, smul_eq_mul] at this
  omega

theorem exists_lt_of_high_lt (h : ∑ m ∈ M, load m ≤ M.card * high) (hd : d ∈ M) (hlt : high < load d) :
    ∃ m ∈ M, load m < high := by
  by_contra hall
  push Not at hall
  have := Finset.sum_lt_sum hall ⟨d, hd, hlt⟩
  rw [Finset.sum_const, smul_eq_mul] at this
  omega

theorem exists_gt_of_lt_low (h : M.card * low ≤ ∑ m ∈ M, load m) (hr : r ∈ M) (hlt : load r < low) :
    ∃ m ∈ M, low < load m := by
  by_contra hall
  push Not at hall
  have := Finset.sum_lt_sum hall ⟨r, hr, hlt⟩
  rw [Finset.sum_const, smul_eq_mul] at this
  omega

/-- How far the loads are from lying between `low` and `high`. -/
def imbalance (M : Finset ι) (low high : ℕ) (load : ι → ℕ) : ℕ :=
  ∑ m ∈ M, ((load m - high) + (low - load m))

end Totals

section Moves

variable [DecidableEq ι]

/-- The load after a unit is given to `r`. -/
def give (load : ι → ℕ) (r : ι) : ι → ℕ := Function.update load r (load r + 1)

/-- The load after a unit is moved from `d` to `r`. -/
def move (load : ι → ℕ) (d r : ι) : ι → ℕ := give (Function.update load d (load d - 1)) r

theorem give_apply (load : ι → ℕ) (r m : ι) :
    give load r m = if m = r then load r + 1 else load m :=
  Function.update_apply ..

theorem move_apply (hne : d ≠ r) (load : ι → ℕ) (m : ι) :
    move load d r m = if m = r then load r + 1 else if m = d then load d - 1 else load m := by
  rw [move, give_apply, Function.update_of_ne hne.symm, Function.update_apply]

theorem imbalance_move_lt (hlow : low ≤ high) (hd : d ∈ M) (hr : r ∈ M)
    (h : high < load d ∧ load r < high ∨ low < load d ∧ load r < low) :
    imbalance M low high (move load d r) < imbalance M low high load := by
  have hne : d ≠ r := by rintro rfl; omega
  have happly := move_apply hne load
  refine Finset.sum_lt_sum (fun m _ => ?_) ?_
  · rw [happly m]
    split
    · next heq => subst heq; omega
    split
    · next heq => subst heq; omega
    · omega
  rcases h with habove | hbelow
  · refine ⟨d, hd, ?_⟩
    rw [happly d, if_neg hne, if_pos rfl]
    omega
  · refine ⟨r, hr, ?_⟩
    rw [happly r, if_pos rfl]
    omega

namespace Greedy

section

variable (h : Greedy M kept low high load)

include h

theorem give (hearly : Early M kept high load)
    (hlt : load r < high) (hleast : ∀ m ∈ M, load r ≤ load m) :
    Greedy M kept low high (give load r) ∧ Early M kept high (give load r) := by
  have hload := give_apply load r
  have hgrown : ∀ m, load m ≤ Leveling.give load r m := fun m => by rw [hload]; split <;> grind
  have hnext : Early M kept high (Leveling.give load r) := fun m hm => (hearly m hm).trans (hgrown m)
  refine ⟨⟨fun m hm hgained => ?_, fun m hm hgained hneed => ?_, .inl hnext⟩, hnext⟩
  · rw [hload] at hgained ⊢
    split_ifs with hmr
    · omega
    · rw [if_neg hmr] at hgained
      exact h.gained_high m hm hgained
  obtain ⟨j, hj, hjlow⟩ := hneed
  have hjold : load j < low := (hgrown j).trans_lt hjlow
  rw [hload] at hgained ⊢
  split_ifs with hmr
  · have := hleast j hj
    omega
  · rw [if_neg hmr] at hgained
    exact h.gained_low m hm hgained ⟨j, hj, hjold⟩

theorem move_above (hlow : low ≤ high) (hd : d ∈ M)
    (habove : high < load d) (hlt : load r < high) (hleast : ∀ m ∈ M, load r ≤ load m) :
    Greedy M kept low high (move load d r) := by
  have hne : d ≠ r := by rintro rfl; omega
  have hload := move_apply hne load
  have hdonor := h.le_kept_of_high_lt hd habove
  have hearly := h.early_of_high_lt hd habove
  refine ⟨fun m hm hgained => ?_, fun m hm hgained hneed => ?_, .inl fun m hm => ?_⟩
  · have hold := h.gained_high m hm
    grind
  · obtain ⟨j, hj, hjlow⟩ := hneed
    -- the donor stays at `high` or above, so whoever is below `low` now was so before
    have hjold : load j < low := by grind
    have hold := fun hg => h.gained_low m hm hg ⟨j, hj, hjold⟩
    have hrj := hleast j hj
    grind
  · have hold := hearly m hm
    grind

theorem move_between (hlow : low ≤ high)
    (hhigh : ∀ m ∈ M, load m ≤ high) (hd : d ∈ M) (habove : low < load d) (hr : r ∈ M)
    (hneed : load r < low) : Greedy M kept low high (move load d r) := by
  have hne : d ≠ r := by rintro rfl; omega
  have hload := move_apply hne load
  have hdonor := h.le_kept_of_low_lt hd habove hr hneed
  have hgained : ∀ m ∈ M, kept m < move load d r m → move load d r m ≤ low := by
    intro m hm hg
    have hold := fun hg => h.gained_low m hm hg ⟨r, hr, hneed⟩
    grind
  have hmin : ∀ m ∈ M, min (kept m) low ≤ load m := by
    intro m hm
    rcases h.phase with hearly | hlate
    · have := hearly m hm
      omega
    · exact hlate.min_le m hm
  refine ⟨fun m hm hg => (hgained m hm hg).trans hlow, fun m hm hg _ => hgained m hm hg,
    .inr ⟨fun m hm => ?_, hgained, fun m hm => ?_⟩⟩
  · have hold := hhigh m hm
    grind
  · have hold := hmin m hm
    grind

end

end Greedy

end Moves

end HelixCluster.Leveling
