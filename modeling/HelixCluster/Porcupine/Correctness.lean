import HelixCluster.Porcupine.Linearizability

/-!
# Soundness and completeness of the checker

Started with a memo that files dead ends only, the search restores the used-set, leaves such a memo
behind, and succeeds exactly when the configuration is completable (`search_explores`).
-/

namespace HelixCluster.Porcupine

open List

variable {σ ι ο : Type} {model : Model σ ι ο} {ops : List (Operation ι ο)}

/-- The loop yields the least of the start value and the pending return times. -/
theorem foldl_least_spec (used : Fin ops.length → Bool) (indices : List (Fin ops.length))
    (start : Int64) :
    let least := indices.foldl (fun least i =>
      if used i = false ∧ (ops.get i).ret < least then (ops.get i).ret else least) start
    least ≤ start ∧ (∀ j ∈ indices, used j = false → least ≤ (ops.get j).ret) ∧
      (least = start ∨ ∃ j ∈ indices, used j = false ∧ least = (ops.get j).ret) := by
  induction indices generalizing start with
  | nil => simp
  | cons i rest ih =>
    simp only [foldl_cons]
    split_ifs with h
    · obtain ⟨hstart, hrest, hattained⟩ := ih (ops.get i).ret
      refine ⟨Int64.le_trans hstart (Int64.le_of_lt h.2), ?_, ?_⟩
      · intro j hj hunused
        rcases mem_cons.mp hj with rfl | hj
        · exact hstart
        · exact hrest j hj hunused
      rcases hattained with hattained | ⟨j, hj, hunused, hattained⟩
      · exact Or.inr ⟨i, by simp, h.1, hattained⟩
      · exact Or.inr ⟨j, by simp [hj], hunused, hattained⟩
    · obtain ⟨hstart, hrest, hattained⟩ := ih start
      refine ⟨hstart, ?_, ?_⟩
      · intro j hj hunused
        rcases mem_cons.mp hj with rfl | hj
        · exact Int64.le_trans hstart (Int64.not_lt.mp fun hlt => h ⟨hunused, hlt⟩)
        · exact hrest j hj hunused
      rcases hattained with hattained | ⟨j, hj, hunused, hattained⟩
      · exact Or.inl hattained
      · exact Or.inr ⟨j, by simp [hj], hunused, hattained⟩

theorem call_le_minReturn_iff (used : Fin ops.length → Bool) (i : Fin ops.length) :
    (ops.get i).call ≤ minReturn ops used ↔ Eligible ops used i := by
  obtain ⟨-, hbound, hattained⟩ := foldl_least_spec used (List.finRange ops.length) Int64.maxValue
  constructor
  · intro hcall j hunused hprecedes
    have hle := Int64.le_trans hcall (hbound j (mem_finRange j) hunused)
    exact absurd hprecedes (Int64.not_lt.mpr hle)
  intro heligible
  rcases hattained with hattained | ⟨j, -, hunused, hattained⟩
  · unfold minReturn
    rw [hattained]
    exact Int64.le_maxValue _
  unfold minReturn
  rw [hattained]
  exact Int64.not_lt.mp (heligible j hunused)

/-- Every state in the memo is a dead end of the used-set it is filed under. -/
def MemoSound (model : Model σ ι ο) (ops : List (Operation ι ο))
    (s : SearchState σ ops.length) : Prop :=
  ∀ used state, state ∈ s.visited.read (usedKey used) [] → ¬ Completable model ops used state

variable {used : Fin ops.length → Bool} {s : SearchState σ ops.length} {state : σ} {n : Nat}
  {i : Fin n}

theorem dead_end_of_probe (hlawful : model.Lawful)
    (hmemo : MemoSound model ops s) (h : probe model ops s (usedKey used) state = true) :
    ¬ Completable model ops used state := by
  unfold probe at h
  split at h
  · simp at h
  · next equal hequal =>
    obtain ⟨seen, hseen, hsame⟩ := any_eq_true.mp h
    intro hcompletable
    exact hmemo used seen hseen (hcompletable.congr (hlawful equal hequal) hsame)

theorem MemoSound.remember (hmemo : MemoSound model ops s) (hdead : ¬ Completable model ops used state) :
    MemoSound model ops (remember model ops s (usedKey used) state) := by
  unfold Porcupine.remember
  split
  · exact hmemo
  intro other seen hseen
  rw [GoMap.read_insert_if] at hseen
  split_ifs at hseen with hkey
  · obtain rfl := usedKey_inj hkey
    rcases mem_append.mp hseen with hseen | hseen
    · exact hmemo other seen hseen
    · rw [mem_singleton.mp hseen]
      exact hdead
  · exact hmemo other seen hseen

theorem remember_used (s : SearchState σ ops.length) (key : Str) (state : σ) :
    (remember model ops s key state).used = s.used := by
  unfold remember
  split <;> rfl

theorem noteStuck_used (least : Int64) (depth : Nat) (s : SearchState σ ops.length) :
    (noteStuck ops least depth s).used = s.used := by
  unfold noteStuck
  split <;> rfl

theorem noteStuck_visited (least : Int64) (depth : Nat) (s : SearchState σ ops.length) :
    (noteStuck ops least depth s).visited = s.visited := by
  unfold noteStuck
  split <;> rfl

theorem mark_mark_used {s t : SearchState σ n} (hi : s.used i = false)
    (ht : t.used = (s.mark i true).used) : (t.mark i false).used = s.used := by
  simp only [SearchState.mark] at ht ⊢
  rw [ht, Function.update_idem, ← hi, Function.update_eq_self]

/-- The number of operations that are not used. -/
def unusedCount {n : Nat} (used : Fin n → Bool) : Nat :=
  (Finset.univ.filter fun i => used i = false).card

theorem all_used_of_unusedCount {used : Fin n → Bool} (h : unusedCount used = 0)
    (i : Fin n) : used i = true := by
  have hempty := Finset.card_eq_zero.mp h
  by_contra hi
  have hmem : i ∈ Finset.univ.filter fun i => used i = false := by simpa using hi
  simp [hempty] at hmem

variable {left : Nat}

theorem exists_unused_of_unusedCount {used : Fin n → Bool}
    (h : unusedCount used = left + 1) : ∃ i, used i = false := by
  obtain ⟨i, hi⟩ := Finset.card_pos.mp (show 0 < unusedCount used by omega)
  exact ⟨i, by simpa using hi⟩

theorem unusedCount_update {used : Fin n → Bool}
    (h : unusedCount used = left + 1) (hi : used i = false) :
    unusedCount (Function.update used i true) = left := by
  have herase : (Finset.univ.filter fun j => Function.update used i true j = false) =
      (Finset.univ.filter fun j => used j = false).erase i := by
    ext j
    simp only [Finset.mem_filter, Finset.mem_univ, true_and, Finset.mem_erase,
      Function.update_apply]
    split <;> simp_all
  unfold unusedCount at h ⊢
  rw [herase, Finset.card_erase_of_mem (by simpa using hi), h]
  rfl

/-- The used-set is restored, the memo files dead ends only, and the verdict is that of `goal`. -/
structure Explores (model : Model σ ι ο) (ops : List (Operation ι ο))
    (s : SearchState σ ops.length) (goal : Prop)
    (result : Bool × SearchState σ ops.length) : Prop where
  used : result.2.used = s.used
  memo : MemoSound model ops result.2
  verdict : result.1 = true ↔ goal

/-- Operation `i` passes the checks of the candidate loop, and the rest can be finished after
it. -/
def ComesNext (model : Model σ ι ο) (ops : List (Operation ι ο)) (used : Fin ops.length → Bool)
    (state : σ) (least : Int64) (i : Fin ops.length) : Prop :=
  used i = false ∧ (ops.get i).call ≤ least ∧
    (model.step state (ops.get i).input (ops.get i).output).1 = true ∧
    Completable model ops (Function.update used i true)
      (model.step state (ops.get i).input (ops.get i).output).2

theorem tryCandidates_explores
    {search : σ → SearchState σ ops.length → Bool × SearchState σ ops.length}
    (hsearch : ∀ state s, unusedCount s.used = left → MemoSound model ops s → Explores model ops s (Completable model ops s.used state) (search state s))
    (state : σ) (least : Int64) (candidates : List (Fin ops.length)) (s : SearchState σ ops.length)
    (hcount : unusedCount s.used = left + 1) (hmemo : MemoSound model ops s) :
    Explores model ops s (∃ i ∈ candidates, ComesNext model ops s.used state least i)
      (tryCandidates model ops search state least candidates s) := by
  induction candidates generalizing s with
  | nil => exact ⟨rfl, hmemo, by simp [tryCandidates]⟩
  | cons i rest ih =>
    -- a candidate that fails a check is passed over
    have hskip (h : ¬ ComesNext model ops s.used state least i) :
        Explores model ops s (∃ j ∈ i :: rest, ComesNext model ops s.used state least j)
          (tryCandidates model ops search state least rest s) := by
      obtain ⟨hused, hmemo, hverdict⟩ := ih s hcount hmemo
      exact ⟨hused, hmemo, by simp only [hverdict, exists_mem_cons_iff, h, false_or]⟩
    simp only [tryCandidates]
    by_cases hused : s.used i = true
    · rw [if_pos hused]
      exact hskip fun h => by simp [h.1] at hused
    rw [if_neg hused]
    have hunused : s.used i = false := by simpa using hused
    by_cases hcall : (ops.get i).call > least
    · rw [if_pos hcall]
      exact hskip fun h => Int64.not_le.mpr hcall h.2.1
    rw [if_neg hcall]
    by_cases hok : (model.step state (ops.get i).input (ops.get i).output).1 = true
    · -- the candidate is applied, and the recursive call decides what is left
      obtain ⟨hmarked, hmemo', hverdict⟩ :=
        hsearch (model.step state (ops.get i).input (ops.get i).output).2 (s.mark i true)
          (unusedCount_update hcount hunused) hmemo
      have hrestored := mark_mark_used hunused hmarked
      simp only [hok, Bool.not_true, Bool.false_eq_true, if_false]
      split_ifs with hfound
      · have hnext : ComesNext model ops s.used state least i :=
          ⟨hunused, Int64.not_lt.mp hcall, hok, hverdict.mp hfound⟩
        exact ⟨hrestored, hmemo', by simp [hnext]⟩
      · have hnext : ¬ ComesNext model ops s.used state least i :=
          fun h => hfound (hverdict.mpr h.2.2.2)
        obtain ⟨hused, hmemo, hloop⟩ := ih
          ((search (model.step state (ops.get i).input (ops.get i).output).2
            (s.mark i true)).2.mark i false) (by rw [hrestored, hcount]) hmemo'
        exact ⟨hused.trans hrestored, hmemo, by
          simp only [hloop, hrestored, exists_mem_cons_iff, hnext, false_or]⟩
    · simp only [hok, Bool.not_false, if_true]
      exact hskip fun h => hok h.2.2.1

theorem exists_comesNext_iff (hwindow : ∀ op ∈ ops, op.call < op.ret)
    (hcount : unusedCount used = left + 1) :
    (∃ i ∈ List.finRange ops.length, ComesNext model ops used state (minReturn ops used) i) ↔
      Completable model ops used state := by
  constructor
  · intro h
    obtain ⟨i, -, hunused, hcall, hok, hrest⟩ := h
    exact completable_of_step hunused ((call_le_minReturn_iff used i).mp hcall) hok hrest
  intro h
  obtain ⟨i, hunused, heligible, hok, hrest⟩ :=
    h.exists_step hwindow (exists_unused_of_unusedCount hcount)
  exact ⟨i, mem_finRange i, hunused, (call_le_minReturn_iff used i).mpr heligible, hok, hrest⟩

theorem search_explores (hlawful : model.Lawful) (hwindow : ∀ op ∈ ops, op.call < op.ret)
    (left : Nat) (state : σ) (s : SearchState σ ops.length)
    (hcount : unusedCount s.used = left) (hmemo : MemoSound model ops s) :
    Explores model ops s (Completable model ops s.used state) (search model ops left state s) := by
  induction left generalizing state s with
  | zero =>
    refine ⟨rfl, hmemo, ?_⟩
    simp [search, completable_of_all_used (all_used_of_unusedCount hcount)]
  | succ left ih =>
    simp only [search]
    by_cases hprobe : probe model ops s (usedKey s.used) state = true
    · rw [if_pos hprobe]
      exact ⟨rfl, hmemo, by simp [dead_end_of_probe hlawful hmemo hprobe]⟩
    rw [if_neg hprobe]
    obtain ⟨hused, hmemo', hloop⟩ := tryCandidates_explores ih state (minReturn ops s.used)
      (List.finRange ops.length) s hcount hmemo
    have hverdict := hloop.trans (exists_comesNext_iff hwindow hcount)
    split_ifs with hfound
    · exact ⟨hused, hmemo', by simp [← hverdict, hfound]⟩
    · have hdead := mt hverdict.mpr hfound
      refine ⟨?_, ?_, by simp [hdead]⟩
      · rw [noteStuck_used, remember_used]
        exact hused
      unfold MemoSound
      rw [noteStuck_visited]
      exact hmemo'.remember hdead

theorem checkSorted_iff (hlawful : model.Lawful) (hwindow : ∀ op ∈ ops, op.call < op.ret) :
    (checkSorted model ops).ok = true ↔ Linearizable model ops := by
  have hsearch := search_explores hlawful hwindow ops.length model.init
    (.start σ ops.length) (by simp [SearchState.start, unusedCount])
    fun used state h => by simp [SearchState.start] at h
  have hverdict := hsearch.verdict.trans completable_start_iff
  unfold checkSorted
  split
  · next hempty =>
    obtain rfl := length_eq_zero_iff.mp hempty
    exact ⟨fun _ => ⟨[], .nil, .nil, trivial⟩, fun _ => rfl⟩
  dsimp only
  split_ifs with hfound
  · simp [← hverdict, hfound]
  · simp [← hverdict, hfound]

/-- `CheckOperations` accepts a history exactly when it is linearizable. -/
theorem check_operations_iff (sorting : SortSlice (@opLess ι ο)) (model : Model σ ι ο)
    (history : List (Operation ι ο)) (hlawful : model.Lawful)
    (hwindow : ∀ op ∈ history, op.call < op.ret) :
    checkOperations sorting model history = true ↔ Linearizable model history := by
  have hperm := sorting.perm history
  rw [← linearizable_perm hperm]
  exact checkSorted_iff hlawful fun op hop => hwindow op (hperm.mem_iff.mp hop)

/-- The operations of an integer register. -/
inductive RegOp where
  | write (val : Int)
  | read

/-- An integer register initialized to 0. A read must return the value held. -/
def registerModel : Model Int RegOp Int where
  init := 0
  step state input output :=
    match input with
    | .write val => (true, val)
    | .read => (output == state, state)
  equal := some fun s t => s == t

theorem registerModel_lawful : registerModel.Lawful := by
  intro equal hequal
  obtain rfl : equal = fun s t => s == t := (Option.some.inj hequal).symm
  refine ⟨⟨by simp, by simp_all, by simp_all⟩, ?_, ?_⟩ <;> simp_all

theorem opLess_eq_false_iff (a b : Operation ι ο) :
    opLess a b = false ↔ b.call.toInt < a.call.toInt ∨
      a.call.toInt = b.call.toInt ∧ b.ret.toInt ≤ a.ret.toInt := by
  unfold opLess
  split_ifs with hne
  · rw [ne_eq, ← Int64.toInt_inj] at hne
    rw [decide_eq_false_iff_not, Int64.lt_iff_toInt_lt]
    omega
  · rw [ne_eq, not_not, ← Int64.toInt_inj] at hne
    rw [decide_eq_false_iff_not, Int64.lt_iff_toInt_lt]
    omega

/-- Insertion sort implements `sort.Slice` for the comparison of operations. -/
def opSort : SortSlice (@opLess ι ο) :=
  .insertionSort opLess
    (fun a b c => by
      simp only [opLess_eq_false_iff]
      omega)
    (fun a b => by
      simp only [opLess_eq_false_iff]
      omega)

/-- A write of 1, a read of 1 that overlaps it, and a later read of 1. -/
def overlappingHistory : List (Operation RegOp Int) :=
  [⟨0, .write 1, 0, 1, 4⟩, ⟨1, .read, 1, 2, 3⟩, ⟨1, .read, 1, 5, 6⟩]

/-- The checker accepts a read that overlaps the write it observes. -/
theorem overlappingHistory_linearizable :
    checkOperations opSort registerModel overlappingHistory = true ∧
      Linearizable registerModel overlappingHistory :=
  have hok : checkOperations opSort registerModel overlappingHistory = true := by decide
  ⟨hok, (check_operations_iff opSort registerModel overlappingHistory registerModel_lawful
    (by decide)).mp hok⟩

end HelixCluster.Porcupine
