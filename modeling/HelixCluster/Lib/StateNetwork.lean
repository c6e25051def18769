import Mathlib

/-!
# Networks of state-based replicas

A replica changes its own state by calls and by merging a snapshot, which is any state that some
replica has been in.
-/

namespace HelixCluster

open List

/-- A replicated object: the calls of a replica, and the merge of two states. -/
structure StateObject (ι σ Op : Type) where
  apply : ι → Op → σ → σ
  merge : σ → σ → σ

namespace StateNetwork

variable {ι σ Op : Type} [DecidableEq ι]

/-- A call with the state it ran on. -/
structure Call (ι σ Op : Type) where
  caller : ι
  op : Op
  before : σ

/-- The replicas, the states they have entered, and the calls so far. -/
structure World (ι σ Op : Type) where
  replica : ι → σ
  past : List σ
  calls : List (Call ι σ Op)

namespace World

/-- The world before the first call. -/
def start (init : ι → σ) : World ι σ Op where
  replica := init
  past := []
  calls := []

/-- A call at a replica. -/
def call (obj : StateObject ι σ Op) (w : World ι σ Op) (i : ι) (op : Op) : World ι σ Op where
  replica := Function.update w.replica i (obj.apply i op (w.replica i))
  past := w.past ++ [obj.apply i op (w.replica i)]
  calls := w.calls ++ [⟨i, op, w.replica i⟩]

/-- A replica merges a state. -/
def mergeState (obj : StateObject ι σ Op) (w : World ι σ Op) (i : ι) (s : σ) : World ι σ Op where
  replica := Function.update w.replica i (obj.merge (w.replica i) s)
  past := w.past ++ [obj.merge (w.replica i) s]
  calls := w.calls

/-- The state is one that some replica has been in. -/
def Snapshot (init : ι → σ) (w : World ι σ Op) (s : σ) : Prop := (∃ i, s = init i) ∨ s ∈ w.past

end World

/-- The worlds reached by calls and merges of snapshots. -/
inductive Reachable (obj : StateObject ι σ Op) (init : ι → σ) : World ι σ Op → Prop where
  | start : Reachable obj init (World.start init)
  | call {w : World ι σ Op} (i : ι) (op : Op) : Reachable obj init w →
      Reachable obj init (w.call obj i op)
  | merge {w : World ι σ Op} (i : ι) {s : σ} : Reachable obj init w → w.Snapshot init s →
      Reachable obj init (w.mergeState obj i s)

variable {obj : StateObject ι σ Op} {init : ι → σ} {w : World ι σ Op}

theorem Reachable.replica_snapshot (hw : Reachable obj init w) (i : ι) :
    w.Snapshot init (w.replica i) := by
  induction hw with
  | start => exact .inl ⟨i, rfl⟩
  | @call w j op _ ih =>
    rcases eq_or_ne i j with rfl | hij
    · exact .inr (by simp [World.call])
    · simp only [World.Snapshot, World.call, Function.update_of_ne hij, mem_append]
      exact ih.imp_right .inl
  | @merge w j s _ _ ih =>
    rcases eq_or_ne i j with rfl | hij
    · exact .inr (by simp [World.mergeState])
    · simp only [World.Snapshot, World.mergeState, Function.update_of_ne hij, mem_append]
      exact ih.imp_right .inl

theorem Reachable.call_snapshot (hw : Reachable obj init w) {c : Call ι σ Op}
    (hc : c ∈ w.calls) : w.Snapshot init c.before := by
  induction hw with
  | start => exact absurd hc not_mem_nil
  | @call w j op hw ih =>
    have hgrows (s : σ) (h : w.Snapshot init s) : (w.call obj j op).Snapshot init s :=
      h.imp_right fun h => mem_append_left _ h
    rcases mem_append.mp hc with hc | hc
    · exact hgrows _ (ih hc)
    · obtain rfl := mem_singleton.mp hc
      exact hgrows _ (hw.replica_snapshot j)
  | merge i _ _ ih => exact (ih hc).imp_right fun h => mem_append_left _ h

/-- A property holds of every snapshot if it holds initially and is kept by calls and merges. -/
theorem Reachable.forall_snapshot {P : List (Call ι σ Op) → σ → Prop}
    (hinit : ∀ i, P [] (init i)) (hmono : ∀ calls c s, P calls s → P (calls ++ [c]) s)
    (hcall : ∀ calls i op s, P calls s → P (calls ++ [⟨i, op, s⟩]) (obj.apply i op s))
    (hmerge : ∀ calls s t, P calls s → P calls t → P calls (obj.merge s t))
    (hw : Reachable obj init w) {s : σ} (hs : w.Snapshot init s) : P w.calls s := by
  induction hw generalizing s with
  | start =>
    rcases hs with ⟨i, rfl⟩ | hs
    · exact hinit i
    · exact absurd hs not_mem_nil
  | @call w j op hw ih =>
    rcases hs with hs | hs
    · exact hmono _ _ _ (ih (.inl hs))
    rcases mem_append.mp hs with hs | hs
    · exact hmono _ _ _ (ih (.inr hs))
    · obtain rfl := mem_singleton.mp hs
      exact hcall _ j op _ (ih (hw.replica_snapshot j))
  | @merge w j t hw ht ih =>
    rcases hs with hs | hs
    · exact ih (.inl hs)
    rcases mem_append.mp hs with hs | hs
    · exact ih (.inr hs)
    · obtain rfl := mem_singleton.mp hs
      exact hmerge _ _ _ (ih (hw.replica_snapshot j)) (ih ht)

/-- What a call establishes and its replica keeps holds whenever a later call of it runs. -/
theorem Reachable.calls_ordered {R : Call ι σ Op → σ → Prop}
    (hcall : ∀ i op s, R ⟨i, op, s⟩ (obj.apply i op s))
    (hkeep : ∀ c op s, R c s → R c (obj.apply c.caller op s))
    (hmerge : ∀ c s t, R c s → R c (obj.merge s t)) (hw : Reachable obj init w) :
    (∀ c ∈ w.calls, R c (w.replica c.caller)) ∧
      w.calls.Pairwise fun c d => c.caller = d.caller → R c d.before := by
  induction hw with
  | start => exact ⟨fun c hc => absurd hc not_mem_nil, List.Pairwise.nil⟩
  | @call w j op _ ih =>
    obtain ⟨hreplica, hpairwise⟩ := ih
    refine ⟨fun c hc => ?_, pairwise_append.mpr ⟨hpairwise, pairwise_singleton _ _, ?_⟩⟩
    · rcases mem_append.mp hc with hc | hc
      · by_cases hcaller : c.caller = j
        · simp only [World.call, hcaller, Function.update_self]
          exact hcaller ▸ hkeep c op _ (hreplica c hc)
        · simp only [World.call, Function.update_of_ne hcaller]
          exact hreplica c hc
      · obtain rfl := mem_singleton.mp hc
        simp only [World.call, Function.update_self]
        exact hcall j op _
    intro c hc d hd hcaller
    obtain rfl := mem_singleton.mp hd
    have hkept := hreplica c hc
    rwa [show c.caller = j from hcaller] at hkept
  | @merge w j s _ _ ih =>
    obtain ⟨hreplica, hpairwise⟩ := ih
    refine ⟨fun c hc => ?_, hpairwise⟩
    by_cases hcaller : c.caller = j
    · simp only [World.mergeState, hcaller, Function.update_self]
      exact hmerge c _ s (hcaller ▸ hreplica c hc)
    · simp only [World.mergeState, Function.update_of_ne hcaller]
      exact hreplica c hc

theorem pairwise_cases {α : Type} {R : α → α → Prop} {l : List α} (h : l.Pairwise R) {a b : α}
    (ha : a ∈ l) (hb : b ∈ l) (hne : a ≠ b) : R a b ∨ R b a := by
  have hboth : l.Pairwise fun a b => R a b ∨ R b a := h.imp Or.inl
  have : Std.Symm fun a b => R a b ∨ R b a := ⟨fun _ _ => Or.symm⟩
  exact hboth.forall ha hb hne

theorem Reachable.kept {α : Type} {f : σ → α} (hcall : ∀ i op s, f (obj.apply i op s) = f s)
    (hmerge : ∀ s t, f (obj.merge s t) = f s) (hw : Reachable obj init w) :
    (∀ i, f (w.replica i) = f (init i)) ∧ ∀ c ∈ w.calls, f c.before = f (init c.caller) := by
  induction hw with
  | start => exact ⟨fun _ => rfl, fun c hc => absurd hc not_mem_nil⟩
  | @call w j op _ ih =>
    refine ⟨fun i => ?_, fun c hc => ?_⟩
    · rcases eq_or_ne i j with rfl | hij
      · simp only [World.call, Function.update_self]
        exact (hcall i op _).trans (ih.1 i)
      · simp only [World.call, Function.update_of_ne hij]
        exact ih.1 i
    rcases mem_append.mp hc with hc | hc
    · exact ih.2 c hc
    · obtain rfl := mem_singleton.mp hc
      exact ih.1 j
  | @merge w j s _ _ ih =>
    refine ⟨fun i => ?_, ih.2⟩
    rcases eq_or_ne i j with rfl | hij
    · simp only [World.mergeState, Function.update_self]
      exact (hmerge _ s).trans (ih.1 i)
    · simp only [World.mergeState, Function.update_of_ne hij]
      exact ih.1 i

/-! ### Parts of a network -/

section Map

variable {τ Op' : Type} (f : σ → τ) (g : Op → Op')

/-- The part of a call. -/
def Call.map (c : Call ι σ Op) : Call ι τ Op' := ⟨c.caller, g c.op, f c.before⟩

/-- The part of a world. -/
def World.map (w : World ι σ Op) : World ι τ Op' where
  replica i := f (w.replica i)
  past := w.past.map f
  calls := w.calls.map (Call.map f g)

variable {f g} {obj' : StateObject ι τ Op'}

theorem Reachable.map (hcall : ∀ {w : World ι σ Op}, Reachable obj init w → ∀ i op,
      f (obj.apply i op (w.replica i)) = obj'.apply i (g op) (f (w.replica i)))
    (hmerge : ∀ s t, f (obj.merge s t) = obj'.merge (f s) (f t)) (hw : Reachable obj init w) :
    Reachable obj' (fun i => f (init i)) (w.map f g) := by
  induction hw with
  | start => exact .start
  | @call w j op hw ih =>
    have hmap : (w.call obj j op).map f g = (w.map f g).call obj' j (g op) := by
      simp only [World.map, World.call, map_append, map_singleton, hcall hw, Call.map,
        World.mk.injEq, and_true]
      funext i
      rcases eq_or_ne i j with rfl | hij
      · simp only [Function.update_self, hcall hw]
      · simp only [Function.update_of_ne hij]
    rw [hmap]
    exact .call j (g op) ih
  | @merge w j s hw hs ih =>
    have hmap : (w.mergeState obj j s).map f g = (w.map f g).mergeState obj' j (f s) := by
      simp only [World.map, World.mergeState, map_append, map_singleton, hmerge,
        World.mk.injEq, and_true]
      funext i
      rcases eq_or_ne i j with rfl | hij
      · simp only [Function.update_self, hmerge]
      · simp only [Function.update_of_ne hij]
    have hsnapshot : (w.map f g).Snapshot (fun i => f (init i)) (f s) := by
      rcases hs with ⟨i, rfl⟩ | hs
      · exact .inl ⟨i, rfl⟩
      · exact .inr (mem_map_of_mem hs)
    rw [hmap]
    exact .merge j ih hsnapshot

end Map

end StateNetwork

end HelixCluster
