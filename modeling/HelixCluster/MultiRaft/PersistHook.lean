import HelixCluster.MultiRaft.Durability

/-!
# The hook for persistence errors

The locks that `Tick`, `Propose`, `Run` and `Campaign` hold where they call the hook of
`OnPersistError`. It is called under the lock of a shard whenever a call to the storage fails
(`hook_unlocked_iff`).
-/

namespace HelixCluster.MultiRaft

open List

/-- The `mu` and the `persistMu` of the manager, and the `mu` of a shard. -/
inductive Mutex where
  | manager
  | persist
  | shard (id : Str)
  deriving DecidableEq

/-- What the goroutine that drives does with the locks, and its calls of the hook. -/
inductive Action where
  | lock (mu : Mutex)
  | unlock (mu : Mutex)
  | hook (shardID : Str) (err : PersistError)
  deriving DecidableEq

/-- The locks that it holds after an action. -/
def Action.held (held : List Mutex) : Action → List Mutex
  | lock mu => mu :: held
  | unlock mu => held.erase mu
  | hook _ _ => held

def Action.isHook : Action → Bool
  | hook _ _ => true
  | _ => false

/-- No lock is held where the hook is called. -/
abbrev HooksFree (actions : List Action) : Prop :=
  Along Action.held (fun held a => a.isHook = true → held = []) [] actions

/-- The calls of `raft.RawNode` that the drivers make. -/
structure Engine (σ κ : Type) extends Raft σ κ where
  tick : σ → σ
  isLeader : σ → Bool
  propose : σ → Str → Except Str σ
  campaign : σ → Except Str σ

variable {σ κ : Type}

/-- A shard as the goroutine finds it under its lock, whatever others have done before, and whether
a hook is registered. -/
structure Visit (σ : Type) where
  id : Str
  shard : Shard σ
  orders : List (Shuffle UInt64)
  hooked : Bool

namespace Visit

variable (E : Raft σ κ) (v : Visit σ)

def surfacePersistError (err : PersistError) : List Action :=
  [.lock .persist, .unlock .persist] ++ if v.hooked then [.hook v.id err] else []

def processReadyLocked : List Action :=
  ((v.shard.processReadyLockedErr E v.orders).1.firstErr.toList).flatMap v.surfacePersistError

/-- The calls to the engine and the storage that the loop makes. -/
def calls : List (UInt64 × Call) :=
  (v.shard.processReadyLockedErr E v.orders).1.shard.trace.drop v.shard.trace.length

/-- `deliverPending`, up to the calls of the transport, which are made with the lock released. -/
def deliverPending : List Action := [.lock (.shard v.id), .unlock (.shard v.id)]

/-- The loop under the lock, and the messages that it leaves. -/
def cycle : List Action :=
  .lock (.shard v.id) :: (v.processReadyLocked E ++ .unlock (.shard v.id) :: v.deliverPending)

end Visit

/-- A part of a call: a cycle, or an error that is returned from under the lock. -/
inductive Part (σ : Type) where
  | cycle (v : Visit σ)
  | refused (id : Str)

def Part.actions (E : Raft σ κ) : Part σ → List Action
  | cycle v => v.cycle E
  | refused id => [.lock (.shard id), .unlock (.shard id)]

/-- A call, with the shards that it visits. The order of a map is open, and `Run` goes on for any
number of rounds. -/
inductive Drive (σ : Type) where
  | tick (visits : List (Visit σ))
  | propose (ctxErr : Option Str) (found : Option (Visit σ)) (data : Str)
  | run (visits : List (Visit σ))
  | campaign (found : Option (Visit σ)) (nodeID : UInt64)

/-- The node goes on after the engine has taken a call, unless it refuses. -/
def Visit.onNode (v : Visit σ) (node : Option (UInt64 × Node σ)) (call : σ → Except Str σ) :
    Part σ :=
  match node with
  | none => .refused v.id
  | some (id, n) =>
    match call n.raw with
    | .error _ => .refused v.id
    | .ok raw => .cycle { v with shard := v.shard.setNode id { n with raw } }

/-- `leaderLocked`, for the order of the nodes in the map. -/
def Shard.leaderLocked (E : Engine σ κ) (s : Shard σ) : Option (UInt64 × Node σ) :=
  (s.nodes.entries.find? fun e => !e.2.stopped && E.isLeader e.2.raw).map fun e => (e.1, e.2)

namespace Drive

variable (E : Engine σ κ)

def parts : Drive σ → List (Part σ)
  | tick visits => visits.map fun v => .cycle { v with
      shard := v.shard.nodes.keys.foldl (fun s id => s.modify id fun n =>
        if n.stopped then n else { n with raw := E.tick n.raw }) v.shard }
  | propose ctxErr found data =>
    if ctxErr.isSome then []
    else found.toList.map fun v => v.onNode (v.shard.leaderLocked E) (E.propose · data)
  | run visits => visits.map .cycle
  | campaign found nodeID => found.toList.map fun v =>
      v.onNode (((v.shard.nodes.lookup nodeID).filter (!·.stopped)).map (nodeID, ·)) E.campaign

/-- `Propose` returns at once if its context has ended, and the others look the shards up first. -/
def lookup : Drive σ → List Action
  | propose (some _) _ _ => []
  | _ => [.lock .manager, .unlock .manager]

def actions (call : Drive σ) : List Action :=
  call.lookup ++ (call.parts E).flatMap (Part.actions E.toRaft)

end Drive

/-! ### What is held -/

/-- The actions release what they lock, and the hook is free in them exactly if `free` holds. -/
def Closed (actions : List Action) (free : Prop) : Prop :=
  actions.foldl Action.held [] = [] ∧ (HooksFree actions ↔ free)

theorem closed_pair (mu : Mutex) : Closed [.lock mu, .unlock mu] True := by
  simp [Closed, Along, Action.held, Action.isHook]

theorem Closed.append {xs ys : List Action} {p q : Prop} (hx : Closed xs p) (hy : Closed ys q) :
    Closed (xs ++ ys) (p ∧ q) := by
  refine ⟨by rw [foldl_append, hx.1, hy.1], ?_⟩
  rw [HooksFree, along_append, hx.1]
  exact and_congr hx.2 hy.2

theorem closed_flatMap {α : Type} {f : α → List Action} {p : α → Prop} (h : ∀ x, Closed (f x) (p x))
    (xs : List α) : Closed (xs.flatMap f) (∀ x ∈ xs, p x) := by
  induction xs with
  | nil => exact ⟨rfl, iff_of_true trivial (by simp)⟩
  | cons x xs ih => simpa only [flatMap_cons, forall_mem_cons] using (h x).append ih

theorem closed_lookup (call : Drive σ) : Closed call.lookup True := by
  unfold Drive.lookup
  split
  · exact ⟨rfl, iff_of_true trivial trivial⟩
  · exact closed_pair .manager

/-! ### The calls that fail -/

section

variable {E : Raft σ κ}

theorem not_failed_of_completing {id : UInt64} {rd : Ready} {batch : List Call}
    (h : Completing E id rd batch) {c : Call} (hc : c ∈ batch) : c.failed = false := by
  obtain ⟨delivering, hdelivering, rfl⟩ := h
  have hdelivers : (delivering.filterMap fun c => if c.failed then some c else none) = [] :=
    (filterMap_delivering (g := fun _ => none) (fun msg c hc => by cases hc <;> rfl)
      hdelivering).trans (by simp)
  simp only [mem_append, storing, mem_map, mem_singleton] at hc
  rcases hc with (((hc | hc) | hc | ⟨ent, -, rfl⟩) | rfl)
  · split_ifs at hc
    · contradiction
    · exact mem_singleton.mp hc ▸ rfl
  · split_ifs at hc
    · contradiction
    · exact mem_singleton.mp hc ▸ rfl
  · by_contra hfailed
    have hmem := filterMap_eq_nil_iff.mp hdelivers c hc
    simp [Bool.eq_true_of_not_eq_false hfailed] at hmem
  · rfl
  · rfl

/-- A visit fails exactly if one of its calls to the storage does. -/
theorem visit_failed_iff (E : Raft σ κ) (s : Shard σ) (id : UInt64) :
    ∃ new : List Call, (s.visit E id).1.trace = s.trace ++ new.map (Prod.mk id) ∧
      ((∀ err, (s.visit E id).2 ≠ .failed err) ↔ ∀ c ∈ new, c.failed = false) := by
  obtain ⟨-, hvisit⟩ | ⟨n, rd, raw, pulls, -, hstopped, htake, hrest⟩ := s.visit_cases E id
  · rw [hvisit]
    exact ⟨[], (append_nil _).symm, iff_of_true nofun nofun⟩
  have hpulls : ∀ c ∈ pulls, c.failed = false := by
    obtain ⟨-, rfl⟩ | ⟨-, rfl⟩ := Shard.take_cases htake
    · nofun
    · exact forall_mem_singleton.mpr rfl
  obtain ⟨err, herr, hvisit⟩ | ⟨herr, hvisit⟩ := hrest
  · rw [hvisit]
    refine ⟨pulls ++ (store E id raw rd).calls, rfl, iff_of_false (fun h => h err rfl) fun h => ?_⟩
    obtain ⟨c, hlast, hfailed⟩ := Shard.store_failed herr
    have hc := h c (mem_append_right _ (mem_of_getLast? hlast))
    exact Bool.false_ne_true (hc.symm.trans hfailed)
  · rw [hvisit]
    have hlive := s.live_unparking id hstopped pulls (store E id raw rd)
    obtain ⟨-, -, -, delivering, hdelivering, htrace⟩ :=
      Shard.release_spec E hlive rd ((Shard.kept_setNode _ id _ id).trans (if_pos rfl))
    have hbatch : Completing E id rd _ := ⟨delivering, hdelivering, rfl⟩
    refine ⟨pulls ++ (storing E rd ++ (delivering ++ rd.committedEntries.map .applied) ++
      [.advanced rd]), htrace.trans ?_, iff_of_true nofun fun c hc => ?_⟩
    · simp [Shard.unparking, Shard.setNode, Shard.record, (Shard.store_spec E id raw rd).2 herr]
    · rcases mem_append.mp hc with hc | hc
      · exact hpulls c hc
      · exact not_failed_of_completing hbatch hc

/-- The loop goes on from `p` to `q`, and the first error of `q` is one of `p` or of a call that
fails. -/
def GoesOn (p q : Shard.Pass σ) : Prop :=
  ∃ new, q.shard.trace = p.shard.trace ++ new ∧
    (q.firstErr = none ↔ p.firstErr = none ∧ ∀ c ∈ new, c.2.failed = false)

theorem GoesOn.refl (p : Shard.Pass σ) : GoesOn p p :=
  ⟨[], (append_nil _).symm, by simp⟩

theorem GoesOn.trans {p q r : Shard.Pass σ} (h : GoesOn p q) (h' : GoesOn q r) : GoesOn p r := by
  obtain ⟨new, htrace, herr⟩ := h
  obtain ⟨more, htrace', herr'⟩ := h'
  refine ⟨new ++ more, by rw [htrace', htrace, append_assoc], ?_⟩
  rw [herr', herr, and_assoc, forall_mem_append]

theorem goesOn_visit (E : Raft σ κ) (p : Shard.Pass σ) (id : UInt64) : GoesOn p (p.visit E id) := by
  obtain ⟨new, htrace, hfailed⟩ := visit_failed_iff E p.shard id
  refine ⟨new.map (Prod.mk id), by rw [p.visit_shard, htrace], ?_⟩
  rw [forall_mem_map, ← hfailed]
  unfold Shard.Pass.visit
  generalize p.shard.visit E id = result
  obtain ⟨t, outcome⟩ := result
  cases outcome <;> simp

theorem goesOn_run (E : Raft σ κ) (p : Shard.Pass σ) (order : Shuffle UInt64) :
    GoesOn p (p.run E order) := by
  have hfold : ∀ (ids : List UInt64) (q : Shard.Pass σ), GoesOn q (ids.foldl (Shard.Pass.visit E) q) := by
    intro ids
    induction ids with
    | nil => exact GoesOn.refl
    | cons id ids ih => exact fun q => (goesOn_visit E q id).trans (ih _)
  exact hfold _ { p with did := false }

theorem goesOn_loop (E : Raft σ κ) (orders : List (Shuffle UInt64)) (p : Shard.Pass σ) :
    GoesOn p (p.loop E orders).1 := by
  induction orders generalizing p with
  | nil => exact .refl p
  | cons order orders ih =>
    rw [Shard.Pass.loop]
    split_ifs
    · exact (goesOn_run E p order).trans (ih _)
    · exact goesOn_run E p order

end

theorem Visit.firstErr_eq_none_iff (E : Raft σ κ) (v : Visit σ) :
    (v.shard.processReadyLockedErr E v.orders).1.firstErr = none ↔
      ∀ c ∈ v.calls E, c.2.failed = false := by
  obtain ⟨new, htrace, herr⟩ := goesOn_loop E v.orders ⟨v.shard, false, false, none⟩
  have hcalls : v.calls E = new := by
    rw [Visit.calls, Shard.processReadyLockedErr, htrace, drop_left]
  rw [hcalls]
  exact herr.trans (and_iff_right rfl)

variable (E : Raft σ κ)

/-- The hook of a cycle is called with the lock of the shard held. -/
theorem closed_cycle (v : Visit σ) : Closed (v.cycle E)
    (v.hooked = true → ∀ c ∈ v.calls E, c.2.failed = false) := by
  rw [← v.firstErr_eq_none_iff]
  have hloop : Closed (.lock (.shard v.id) :: (v.processReadyLocked E ++ [.unlock (.shard v.id)]))
      (v.hooked = true → (v.shard.processReadyLockedErr E v.orders).1.firstErr = none) := by
    unfold Visit.processReadyLocked Visit.surfacePersistError
    cases (v.shard.processReadyLockedErr E v.orders).1.firstErr <;> cases v.hooked <;>
      simp [Closed, Along, Action.held, Action.isHook]
  simpa [Visit.cycle, Visit.deliverPending] using hloop.append (closed_pair (.shard v.id))

theorem closed_part (p : Part σ) : Closed (p.actions E)
    (∀ v, p = .cycle v → v.hooked = true → ∀ c ∈ v.calls E, c.2.failed = false) := by
  cases p with
  | cycle v => simpa [Part.actions] using closed_cycle E v
  | refused id => simpa [Part.actions] using closed_pair (.shard id)

/-- **The hook is called without a lock** in a call, if and only if it is not called, that is, if no
call to the storage fails in a cycle while a hook is registered. -/
theorem hook_unlocked_iff (E : Engine σ κ) (call : Drive σ) : HooksFree (call.actions E) ↔
    ∀ v, .cycle v ∈ call.parts E → v.hooked = true →
      ∀ c ∈ v.calls E.toRaft, c.2.failed = false := by
  have hparts := closed_flatMap (closed_part E.toRaft) (call.parts E)
  refine ((closed_lookup call).append hparts).2.trans ?_
  rw [true_and]
  exact ⟨fun h v hv => h _ hv v rfl, fun h p hp v hv => h v (hv ▸ hp)⟩

/-- One tick of a shard `s` with one node, whose `Append` fails. -/
theorem hook_under_shard_lock :
    let E : Engine (List Ready × ℕ) Unit :=
      ⟨Shard.scripted, id, fun _ => true, fun raw _ => .ok raw, .ok⟩
    let v : Visit (List Ready × ℕ) := ⟨[115], .createShard [(1, [Shard.entryBatch 1 97], 1)],
      [⟨id, fun _ => .rfl⟩], true⟩
    (Drive.tick [v]).actions E = [.lock .manager, .unlock .manager, .lock (.shard [115]),
      .lock .persist, .unlock .persist, .hook [115] (.append 1 [33]), .unlock (.shard [115]),
      .lock (.shard [115]), .unlock (.shard [115])] ∧ ¬ HooksFree ((Drive.tick [v]).actions E) := by
  decide

end HelixCluster.MultiRaft
