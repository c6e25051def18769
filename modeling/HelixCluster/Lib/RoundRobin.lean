import Mathlib

/-!
# Round robin

The parties of a round robin stand in a ring, written as a list that starts with the one whose turn
is next.
-/

namespace HelixCluster.RoundRobin

open List

variable {α : Type} {ready : α → Prop} {ring next served xs ys : List α} {f g : α}

/-- The first party that is ready is served and goes to the end of the ring. -/
inductive Serves (ready : α → Prop) : List α → α → List α → Prop where
  | serve {skipped rest : List α} {g : α} (hskipped : ∀ x ∈ skipped, ¬ready x) (hready : ready g) :
      Serves ready (skipped ++ g :: rest) g (rest ++ (skipped ++ [g]))

theorem Serves.mem_next (h : Serves ready ring g next) : g ∈ next := by
  cases h with
  | serve => simp

/-- The parties served are distinct and stand behind `f`. -/
def Behind (ring : List α) (f : α) (served : List α) : Prop :=
  served.Nodup ∧ ∃ front back, ring = front ++ f :: back ∧ served ⊆ back

theorem behind_nil (h : f ∈ ring) : Behind ring f [] := by
  obtain ⟨front, back, rfl⟩ := append_of_mem h
  exact ⟨nodup_nil, front, back, rfl, nil_subset _⟩

theorem Behind.insert (h : Behind (xs ++ ys) f served) (x : α) : Behind (xs ++ x :: ys) f served := by
  obtain ⟨hnodup, front, back, hring, hsub⟩ := h
  rcases append_eq_append_iff.mp hring with ⟨as, hfront, hys⟩ | ⟨bs, hxs, hback⟩
  · refine ⟨hnodup, xs ++ x :: as, back, ?_, hsub⟩
    rw [hys, append_assoc, cons_append]
  cases bs with
  | nil =>
    refine ⟨hnodup, xs ++ [x], back, ?_, hsub⟩
    rw [append_assoc, singleton_append, hback, nil_append]
  | cons b bs =>
    rw [cons_append, List.cons.injEq] at hback
    obtain ⟨rfl, hback⟩ := hback
    refine ⟨hnodup, front, bs ++ x :: ys, ?_, ?_⟩
    · rw [hxs, append_assoc, cons_append]
    intro y hy
    have := hsub hy
    rw [hback] at this
    rw [mem_append, mem_cons]
    rcases mem_append.mp this with hbs | hys
    · exact .inl hbs
    · exact .inr (.inr hys)

theorem Behind.serve (h : Behind ring f served) (hring : ring.Nodup) (hf : ready f)
    (hserves : Serves ready ring g next) (hne : g ≠ f) : Behind next f (g :: served) := by
  obtain ⟨hnodup, front, back, hsplit, hsub⟩ := h
  cases hserves with
  | serve hskipped hready =>
    rename_i skipped rest
    -- `f` is ready and not the one served, so it stands in the rest
    obtain ⟨between, rfl, hrest⟩ : ∃ between, front = skipped ++ g :: between ∧
        rest = between ++ f :: back := by
      rcases append_eq_append_iff.mp hsplit with ⟨as, hfront, has⟩ | ⟨bs, hskip, hbs⟩
      · cases as with
        | nil =>
          rw [nil_append, List.cons.injEq] at has
          exact absurd has.1 hne
        | cons a as =>
          rw [cons_append, List.cons.injEq] at has
          obtain ⟨rfl, hrest⟩ := has
          exact ⟨as, hfront, hrest⟩
      cases bs with
      | nil =>
        rw [nil_append, List.cons.injEq] at hbs
        exact absurd hbs.1.symm hne
      | cons b bs =>
        rw [cons_append, List.cons.injEq] at hbs
        exact absurd hf (hskipped f (by rw [hskip, hbs.1]; simp))
    subst hrest
    have hfresh : g ∉ served := by
      intro hg
      rw [append_cons, nodup_append] at hring
      exact hring.2.2 g (by simp) g (by simp [hsub hg]) rfl
    refine ⟨nodup_cons.mpr ⟨hfresh, hnodup⟩, between, back ++ (skipped ++ [g]), by simp, ?_⟩
    intro x hx
    rcases mem_cons.mp hx with rfl | hx
    · simp
    · simp [hsub hx]

end HelixCluster.RoundRobin
