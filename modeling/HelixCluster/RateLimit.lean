import Mathlib

/-!
# The sliding window limiter

The `SlidingWindow` of `pkg/ratelimit`. Times and durations are exact, and the limit is not
negative, since the constructor allocates it.
-/

namespace HelixCluster.RateLimit

open List

structure SlidingWindow where
  window : ℤ
  limit : ℕ
  events : List ℤ

def newSlidingWindow (limit : ℕ) (window : ℤ) : SlidingWindow := ⟨window, limit, []⟩

def SlidingWindow.allowN (s : SlidingWindow) (now : ℤ) (n : ℕ) : SlidingWindow × Bool :=
  let cutoff := now - s.window
  let kept := s.events.filter fun e => e > cutoff ∨ e = cutoff
  if kept.length + n > s.limit then ({ s with events := kept }, false)
  else ({ s with events := kept ++ replicate n now }, true)

structure Request where
  time : ℤ
  size : ℕ

structure History where
  limiter : SlidingWindow
  admitted : List ℤ

namespace History

def step (h : History) (r : Request) : History :=
  let out := h.limiter.allowN r.time r.size
  ⟨out.1, if out.2 then h.admitted ++ replicate r.size r.time else h.admitted⟩

/-- How much was admitted in a closed interval. -/
def during (h : History) (a b : ℤ) : ℕ := h.admitted.countP fun e => a ≤ e ∧ e ≤ b

/-- The history up to a time, after which nothing that was admitted and is not kept counts. -/
structure Exact (limit : ℕ) (window now : ℤ) (h : History) : Prop where
  window_eq : h.limiter.window = window
  limit_eq : h.limiter.limit = limit
  past : ∀ e ∈ h.admitted, e ≤ now
  kept : ∀ a, now - window ≤ a →
    h.limiter.events.filter (fun e => a ≤ e) = h.admitted.filter fun e => a ≤ e
  bounded : ∀ a, h.during a (a + window) ≤ limit

variable {limit : ℕ} {window now : ℤ} {h : History} {r : Request}

theorem Exact.later (hexact : h.Exact limit window now) {later : ℤ} (hle : now ≤ later) :
    h.Exact limit window later :=
  { hexact with
    past := fun e he => (hexact.past e he).trans hle
    kept := fun a ha => hexact.kept a (by omega) }

section

variable (hexact : h.Exact limit window r.time)

include hexact

theorem Exact.kept_eq :
    (h.limiter.events.filter fun e => e > r.time - h.limiter.window ∨ e = r.time - h.limiter.window) =
      h.admitted.filter fun e => r.time - window ≤ e := by
  rw [← hexact.kept _ le_rfl, hexact.window_eq]
  refine filter_congr fun e _ => decide_eq_decide.mpr ?_
  omega

theorem Exact.length_kept :
    (h.admitted.filter fun e => r.time - window ≤ e).length = h.during (r.time - window) r.time := by
  rw [← countP_eq_length_filter]
  refine countP_congr fun e he => ?_
  simp [hexact.past e he]

theorem Exact.refuses_iff :
    (h.limiter.allowN r.time r.size).2 = false ↔ limit < h.during (r.time - window) r.time + r.size := by
  unfold SlidingWindow.allowN
  dsimp only
  rw [hexact.kept_eq, hexact.length_kept, hexact.limit_eq]
  split <;> simp_all

theorem Exact.step : (h.step r).Exact limit window r.time := by
  have hfilter : ∀ a, r.time - window ≤ a →
      (h.admitted.filter fun e => r.time - window ≤ e).filter (fun e => a ≤ e) =
        h.admitted.filter fun e => a ≤ e := by
    intro a ha
    rw [filter_filter]
    refine filter_congr fun e _ => ?_
    rw [← Bool.decide_and]
    exact decide_eq_decide.mpr (by omega)
  unfold History.step SlidingWindow.allowN
  dsimp only
  rw [hexact.kept_eq, hexact.length_kept, hexact.limit_eq]
  split
  · exact ⟨hexact.window_eq, rfl, hexact.past, hfilter, hexact.bounded⟩
  · next hroom =>
    refine ⟨hexact.window_eq, rfl, fun e he => ?_, fun a ha => ?_, fun a => ?_⟩
    · rcases mem_append.mp he with he | he
      · exact hexact.past e he
      · exact (eq_of_mem_replicate he).le
    · rw [if_pos rfl, filter_append, filter_append, hfilter a ha]
    · by_cases hin : a ≤ r.time ∧ r.time ≤ a + window
      · -- what was admitted in the interval is in the window that ends now
        have hle : h.during a (a + window) ≤ h.during (r.time - window) r.time := by
          refine countP_mono_left fun e he hmem => ?_
          have := hexact.past e he
          simp only [decide_eq_true_eq] at hmem ⊢
          omega
        simp only [during, countP_append, countP_replicate, hin, and_self, decide_true, if_true] at hle ⊢
        simp only [during] at hroom
        omega
      · have hbounded := hexact.bounded a
        simpa [during, countP_append, countP_replicate, hin] using hbounded

end

theorem exact_of_run {requests : List Request} (hsorted : requests.Pairwise fun r r' => r.time ≤ r'.time)
    (hnow : ∀ r ∈ requests, r.time ≤ now) :
    (requests.foldl History.step ⟨newSlidingWindow limit window, []⟩).Exact limit window now := by
  induction requests using reverseRecOn generalizing now with
  | nil => exact ⟨rfl, rfl, nofun, fun _ _ => rfl, fun a => Nat.zero_le _⟩
  | append_singleton requests r ih =>
    obtain ⟨hinit, _, hlast⟩ := pairwise_append.mp hsorted
    rw [foldl_append]
    have hbefore := ih hinit fun r' hr' => hlast r' hr' r (mem_singleton_self r)
    exact hbefore.step.later (hnow r (mem_append_right _ (mem_singleton_self r)))

/-- **The limiter is exact.** -/
theorem sliding_window_exact (limit : ℕ) (window : ℤ) (requests : List Request)
    (hsorted : requests.Pairwise fun r r' => r.time ≤ r'.time) :
    let h := requests.foldl History.step ⟨newSlidingWindow limit window, []⟩
    (∀ a, h.during a (a + window) ≤ limit) ∧
      ∀ r : Request, (∀ r' ∈ requests, r'.time ≤ r.time) →
        ((h.limiter.allowN r.time r.size).2 = false ↔
          limit < h.during (r.time - window) r.time + r.size) := by
  refine ⟨?_, fun r hr => (exact_of_run hsorted hr).refuses_iff⟩
  obtain ⟨now, hnow⟩ : ∃ now, ∀ r ∈ requests, r.time ≤ now := by
    obtain ⟨now, hnow⟩ := (requests.map Request.time).toFinset.bddAbove
    exact ⟨now, fun r hr => hnow (by simpa using ⟨r, hr, rfl⟩)⟩
  exact (exact_of_run hsorted hnow).bounded

theorem two_per_second :
    let h := [Request.mk 0 2, ⟨5, 1⟩, ⟨11, 2⟩].foldl History.step ⟨newSlidingWindow 2 10, []⟩
    (∀ a, h.during a (a + 10) ≤ 2) ∧ ∀ r : Request, (∀ r' ∈ [Request.mk 0 2, ⟨5, 1⟩, ⟨11, 2⟩], r'.time ≤ r.time) →
      ((h.limiter.allowN r.time r.size).2 = false ↔ 2 < h.during (r.time - 10) r.time + r.size) :=
  sliding_window_exact 2 10 _ (by decide)

end History

end HelixCluster.RateLimit
