import HelixCluster.Porcupine.Checker

/-!
# Linearizability

`Linearizable model history` says that the operations have a total order that respects real time and
along which the sequential specification accepts every operation.
-/

namespace HelixCluster.Porcupine

open List

variable {σ ι ο : Type}

/-- Real time orders `a` before `b`: `a` returned before `b` was called. -/
def Precedes (a b : Operation ι ο) : Prop := a.ret < b.call

/-- The specification accepts these operations one after another, starting from the state. -/
def Accepts (model : Model σ ι ο) : σ → List (Operation ι ο) → Prop
  | _, [] => True
  | state, op :: rest =>
    (model.step state op.input op.output).1 = true ∧
      Accepts model (model.step state op.input op.output).2 rest

/-- Some total order of the history respects real time and is accepted from the initial state. -/
def Linearizable (model : Model σ ι ο) (history : List (Operation ι ο)) : Prop :=
  ∃ order : List (Operation ι ο), order.Perm history ∧
    order.Pairwise (fun a b => ¬ Precedes b a) ∧ Accepts model model.init order

/-- An equivalence whose classes accept the same inputs and outputs, and step into one class. -/
structure EqualLawful (model : Model σ ι ο) (equal : σ → σ → Bool) : Prop where
  equivalence : Equivalence fun s t => equal s t = true
  accepts : ∀ s t i o, equal s t = true → (model.step s i o).1 = (model.step t i o).1
  steps : ∀ s t i o, equal s t = true → (model.step s i o).1 = true →
    equal (model.step s i o).2 (model.step t i o).2 = true

/-- A model meets the contract if it has no equality, or a lawful one. -/
def Model.Lawful (model : Model σ ι ο) : Prop :=
  ∀ equal, model.equal = some equal → EqualLawful model equal

theorem EqualLawful.accepts_congr {model : Model σ ι ο} {equal : σ → σ → Bool}
    (hequal : EqualLawful model equal) {s t : σ} (h : equal s t = true)
    (order : List (Operation ι ο)) : Accepts model s order ↔ Accepts model t order := by
  induction order generalizing s t with
  | nil => exact Iff.rfl
  | cons op rest ih =>
    simp only [Accepts, ← hequal.accepts s t op.input op.output h]
    refine and_congr_right fun hok => ?_
    exact ih (hequal.steps s t op.input op.output h hok)

variable {model : Model σ ι ο} {ops : List (Operation ι ο)}

/-- The unused operations have an order that respects real time and is accepted. -/
def Completable (model : Model σ ι ο) (ops : List (Operation ι ο))
    (used : Fin ops.length → Bool) (state : σ) : Prop :=
  ∃ order : List (Fin ops.length), order.Nodup ∧ (∀ i, i ∈ order ↔ used i = false) ∧
    order.Pairwise (fun i j => ¬ Precedes (ops.get j) (ops.get i)) ∧
    Accepts model state (order.map ops.get)

/-- No unused operation returned before operation `i` was called. -/
def Eligible (ops : List (Operation ι ο)) (used : Fin ops.length → Bool)
    (i : Fin ops.length) : Prop :=
  ∀ j, used j = false → ¬ Precedes (ops.get j) (ops.get i)

variable {used : Fin ops.length → Bool} {state : σ}

theorem completable_of_all_used (h : ∀ i, used i = true) :
    Completable model ops used state :=
  ⟨[], by simp, by simp [h], by simp, trivial⟩

theorem completable_of_step {i : Fin ops.length} (hunused : used i = false)
    (heligible : Eligible ops used i)
    (hok : (model.step state (ops.get i).input (ops.get i).output).1 = true)
    (hrest : Completable model ops (Function.update used i true) (model.step state (ops.get i).input (ops.get i).output).2) :
    Completable model ops used state := by
  obtain ⟨order, hnodup, hmem, hpairwise, haccepts⟩ := hrest
  have hmem' : ∀ j, j ∈ order ↔ j ≠ i ∧ used j = false := by
    intro j
    rw [hmem j, Function.update_apply]
    split <;> simp_all
  refine ⟨i :: order, ?_, ?_, ?_, hok, haccepts⟩
  · exact nodup_cons.mpr ⟨fun h => ((hmem' i).mp h).1 rfl, hnodup⟩
  · intro j
    rw [mem_cons, hmem' j]
    by_cases hj : j = i
    · simp [hj, hunused]
    · simp [hj]
  · exact pairwise_cons.mpr ⟨fun j hj => heligible j ((hmem' j).mp hj).2, hpairwise⟩

/-- An eligible operation is accepted and leaves the rest completable: the first one of the order.
-/
theorem Completable.exists_step (hwindow : ∀ op ∈ ops, op.call < op.ret)
    (h : Completable model ops used state) (hunused : ∃ i, used i = false) :
    ∃ i, used i = false ∧ Eligible ops used i ∧
      (model.step state (ops.get i).input (ops.get i).output).1 = true ∧
      Completable model ops (Function.update used i true)
        (model.step state (ops.get i).input (ops.get i).output).2 := by
  obtain ⟨order, hnodup, hmem, hpairwise, haccepts⟩ := h
  cases order with
  | nil =>
    obtain ⟨i, hi⟩ := hunused
    exact absurd ((hmem i).mpr hi) (by simp)
  | cons i order =>
    obtain ⟨hnotin, hnodup⟩ := nodup_cons.mp hnodup
    obtain ⟨hfirst, hpairwise⟩ := pairwise_cons.mp hpairwise
    refine ⟨i, (hmem i).mp (by simp), ?_, haccepts.1, order, hnodup, ?_, hpairwise, haccepts.2⟩
    · intro j hj
      rcases mem_cons.mp ((hmem j).mpr hj) with rfl | hj
      · exact Int64.lt_asymm (hwindow _ (get_mem ops j))
      · exact hfirst j hj
    intro j
    rw [Function.update_apply]
    by_cases hj : j = i
    · simp [hj, hnotin]
    · simp [hj, ← hmem j]

theorem Completable.congr {equal : σ → σ → Bool} (hequal : EqualLawful model equal) {s t : σ}
    (h : equal s t = true) (hcompletable : Completable model ops used t) :
    Completable model ops used s := by
  obtain ⟨order, hnodup, hmem, hpairwise, haccepts⟩ := hcompletable
  exact ⟨order, hnodup, hmem, hpairwise, (hequal.accepts_congr h _).mpr haccepts⟩

theorem exists_perm_map_eq {α β : Type} {f : α → β} {xs : List α} {ys : List β}
    (h : ys.Perm (xs.map f)) : ∃ zs : List α, zs.Perm xs ∧ zs.map f = ys := by
  have himage : List.Forall₂ (fun y x => f x = y) (xs.map f) xs := by
    rw [List.forall₂_map_left_iff]
    exact List.forall₂_same.mpr fun _ _ => rfl
  obtain ⟨zs, hzs, hperm⟩ := perm_comp_forall₂ h himage
  refine ⟨zs, hperm, ?_⟩
  rw [← List.forall₂_eq_eq_eq, List.forall₂_map_left_iff]
  exact hzs.flip

theorem completable_start_iff :
    Completable model ops (fun _ => false) model.init ↔ Linearizable model ops := by
  have hget : (List.finRange ops.length).map ops.get = ops := map_get_finRange ops
  constructor
  · intro h
    obtain ⟨order, hnodup, hmem, hpairwise, haccepts⟩ := h
    refine ⟨order.map ops.get, ?_, pairwise_map.mpr hpairwise, haccepts⟩
    have hperm : order.Perm (List.finRange ops.length) :=
      (perm_ext_iff_of_nodup hnodup (nodup_finRange _)).mpr (by simp [hmem])
    simpa only [hget] using hperm.map ops.get
  intro h
  obtain ⟨order, hperm, hpairwise, haccepts⟩ := h
  obtain ⟨indices, hindices, rfl⟩ := exists_perm_map_eq (hget.symm ▸ hperm)
  refine ⟨indices, hindices.nodup_iff.mpr (nodup_finRange _), ?_,
    pairwise_map.mp hpairwise, haccepts⟩
  intro i
  simp [hindices.mem_iff]

theorem linearizable_perm {history : List (Operation ι ο)} (hperm : ops.Perm history) :
    Linearizable model ops ↔ Linearizable model history := by
  constructor
  · intro h
    obtain ⟨order, horder, hrest⟩ := h
    exact ⟨order, horder.trans hperm, hrest⟩
  intro h
  obtain ⟨order, horder, hrest⟩ := h
  exact ⟨order, horder.trans hperm.symm, hrest⟩

end HelixCluster.Porcupine
