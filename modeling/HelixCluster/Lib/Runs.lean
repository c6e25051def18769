import Mathlib

/-!
# Runs of a state machine

`states` are the states that a run of a function `step` goes through, and `Along` says that every
event meets a condition in the state where it is taken.
-/

namespace HelixCluster

open List

variable {σ ε : Type} {step : σ → ε → σ}

/-- The states a run goes through, the first one included. -/
def states (step : σ → ε → σ) : σ → List ε → List σ
  | s, [] => [s]
  | s, e :: es => s :: states step (step s e) es

/-- Every event of the run meets the condition in the state where it is taken. -/
def Along (step : σ → ε → σ) (C : σ → ε → Prop) : σ → List ε → Prop
  | _, [] => True
  | s, e :: es => C s e ∧ Along step C (step s e) es

instance decidableAlong {C : σ → ε → Prop} [∀ s e, Decidable (C s e)] :
    ∀ (s : σ) (es : List ε), Decidable (Along step C s es)
  | _, [] => isTrue trivial
  | s, e :: es =>
    have := decidableAlong (C := C) (step s e) es
    inferInstanceAs (Decidable (C s e ∧ Along step C (step s e) es))

theorem mem_states_self (s : σ) (es : List ε) : s ∈ states step s es := by
  cases es <;> exact mem_cons_self

theorem foldl_mem_states (s : σ) (es : List ε) : es.foldl step s ∈ states step s es := by
  induction es generalizing s with
  | nil => exact mem_singleton_self s
  | cons e es ih => exact mem_cons_of_mem s (ih (step s e))

variable {s : σ} {es : List ε}

theorem mem_states_append_singleton {t : σ} {e : ε} :
    t ∈ states step s (es ++ [e]) ↔ t ∈ states step s es ∨ t = step (es.foldl step s) e := by
  induction es generalizing s with
  | nil => simp [states]
  | cons d es ih => simp only [cons_append, states, mem_cons, ih, foldl_cons, or_assoc]

variable {I : σ → Prop}

theorem forall_states (hstep : ∀ s e, I s → I (step s e)) (hs : I s) (es : List ε) :
    ∀ t ∈ states step s es, I t := by
  induction es generalizing s with
  | nil => simpa [states] using hs
  | cons e es ih => exact forall_mem_cons.mpr ⟨hs, ih (hstep s e hs)⟩

variable {C : σ → ε → Prop}

theorem forall_states_of_along (hstep : ∀ s e, I s → C s e → I (step s e)) (hs : I s)
    (h : Along step C s es) : ∀ t ∈ states step s es, I t := by
  induction es generalizing s with
  | nil => simpa [states] using hs
  | cons e es ih => exact forall_mem_cons.mpr ⟨hs, ih (hstep s e hs h.1) h.2⟩

theorem along_append {fs : List ε} :
    Along step C s (es ++ fs) ↔ Along step C s es ∧ Along step C (es.foldl step s) fs := by
  induction es generalizing s with
  | nil => exact (iff_of_eq (true_and _)).symm
  | cons e es ih =>
    show C s e ∧ Along step C (step s e) (es ++ fs) ↔ (C s e ∧ Along step C (step s e) es) ∧ _
    rw [ih, and_assoc]
    rfl

theorem foldl_of_along (hstep : ∀ s e, I s → C s e → I (step s e)) (hs : I s)
    (h : Along step C s es) : I (es.foldl step s) :=
  forall_states_of_along hstep hs h _ (foldl_mem_states s es)

variable {P : σ → Prop}

/-- `forall_states_iff_along` for the runs whose events are all in a domain. -/
theorem forall_states_iff_within {D : σ → ε → Prop}
    (hinv : ∀ s e, I s → D s e → C s e → I (step s e))
    (hstep : ∀ s e, I s → D s e → (P (step s e) ↔ C s e)) (hs : I s) (hp : P s)
    (hdomain : Along step D s es) : (∀ t ∈ states step s es, P t) ↔ Along step C s es := by
  induction es generalizing s with
  | nil => simpa [states, Along] using hp
  | cons e es ih =>
    obtain ⟨hd, hdomain⟩ := hdomain
    show (∀ t ∈ s :: states step (step s e) es, P t) ↔ C s e ∧ Along step C (step s e) es
    rw [forall_mem_cons]
    constructor
    · rintro ⟨_, hrest⟩
      have hnext : P (step s e) := hrest _ (mem_states_self _ es)
      have hc : C s e := (hstep s e hs hd).mp hnext
      exact ⟨hc, (ih (hinv s e hs hd hc) hnext hdomain).mp hrest⟩
    rintro ⟨hc, hrest⟩
    have hnext : P (step s e) := (hstep s e hs hd).mpr hc
    exact ⟨hp, (ih (hinv s e hs hd hc) hnext hdomain).mpr hrest⟩

theorem forall_states_iff_next :
    (∀ t ∈ states step s es, P t) ↔ P s ∧ Along step (fun s e => P (step s e)) s es := by
  induction es generalizing s with
  | nil => exact ⟨fun h => ⟨h s (mem_states_self s []), trivial⟩, fun h => forall_mem_singleton.mpr h.1⟩
  | cons e es ih =>
    show (∀ t ∈ s :: states step (step s e) es, P t) ↔ P s ∧ P (step s e) ∧ Along step _ (step s e) es
    rw [forall_mem_cons, ih]

theorem along_and {A : σ → ε → Prop} :
    Along step (fun s e => A s e ∧ C s e) s es ↔ Along step A s es ∧ Along step C s es := by
  induction es generalizing s with
  | nil => exact ⟨fun _ => ⟨trivial, trivial⟩, fun _ => trivial⟩
  | cons e es ih =>
    show (A s e ∧ C s e) ∧ Along step _ (step s e) es ↔
      (A s e ∧ Along step A (step s e) es) ∧ C s e ∧ Along step C (step s e) es
    rw [ih, and_and_and_comm]

theorem along_iff_forall {C : ε → Prop} : Along step (fun _ e => C e) s es ↔ ∀ e ∈ es, C e := by
  induction es generalizing s with
  | nil => exact ⟨fun _ _ he => absurd he not_mem_nil, fun _ => trivial⟩
  | cons e es ih =>
    show C e ∧ Along step _ (step s e) es ↔ _
    rw [ih, forall_mem_cons]

theorem along_true (s : σ) (es : List ε) : Along step (fun _ _ => True) s es := by
  induction es generalizing s with
  | nil => trivial
  | cons e es ih => exact ⟨trivial, ih (step s e)⟩

/-- If exactly the steps that meet a condition lead to a property and keep an invariant, then
exactly the runs that meet it have the property. -/
theorem forall_states_iff_along (hinv : ∀ s e, I s → C s e → I (step s e))
    (hstep : ∀ s e, I s → (P (step s e) ↔ C s e)) (hs : I s) (hp : P s) (es : List ε) :
    (∀ t ∈ states step s es, P t) ↔ Along step C s es :=
  forall_states_iff_within (fun s e h _ => hinv s e h) (fun s e h _ => hstep s e h) hs hp
    (along_true s es)

/-- If exactly the steps that meet a condition keep a property, exactly the runs that meet it have
the property. -/
theorem forall_states_iff (hinv : ∀ s e, I s → I (step s e))
    (hstep : ∀ s e, I s → P s → (P (step s e) ↔ C s e)) (hs : I s) (hp : P s) (es : List ε) :
    (∀ t ∈ states step s es, P t) ↔ Along step C s es :=
  forall_states_iff_along (I := fun s => I s ∧ P s)
    (fun s e h hc => ⟨hinv s e h.1, (hstep s e h.1 h.2).mpr hc⟩)
    (fun s e h => hstep s e h.1 h.2) ⟨hs, hp⟩ hp es

/-- If exactly the steps that meet a condition relate their states, exactly the runs that meet it
relate all states. -/
theorem pairwise_states_iff {R : σ → σ → Prop} [IsTrans σ R] (hstep : ∀ s e, R s (step s e) ↔ C s e)
    (s : σ) (es : List ε) : (states step s es).Pairwise R ↔ Along step C s es := by
  rw [← isChain_iff_pairwise]
  induction es generalizing s with
  | nil => simp [states, Along]
  | cons e es ih =>
    show (s :: states step (step s e) es).IsChain R ↔ C s e ∧ Along step C (step s e) es
    rw [← ih, ← hstep]
    cases es <;> exact isChain_cons_cons

/-- Two conditions on steps that agree under an invariant that they keep are met by the same runs.
-/
theorem along_congr {A : σ → ε → Prop} (hinv : ∀ s e, I s → C s e → I (step s e))
    (hstep : ∀ s e, I s → (A s e ↔ C s e)) (hs : I s) (es : List ε) :
    Along step A s es ↔ Along step C s es := by
  induction es generalizing s with
  | nil => exact Iff.rfl
  | cons e es ih =>
    show A s e ∧ Along step A (step s e) es ↔ C s e ∧ Along step C (step s e) es
    rw [hstep s e hs]
    exact and_congr_right fun hc => ih (hinv s e hs hc)

end HelixCluster
