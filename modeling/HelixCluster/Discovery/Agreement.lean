import HelixCluster.Discovery.Registry
import HelixCluster.Lib.Runs

/-!
# Cache and backend

`Register`, `Renew` and `Deregister` change the cache under the mutex, and then the call to the
backend is pending until it is made.
-/

namespace HelixCluster.Discovery

/-- The registry, and the calls to the backend that are left, in order. -/
structure Concurrent where
  registry : ServiceRegistry
  pending : List BackendCall

/-- The atomic steps. `Register` reads the clock before it takes the mutex. -/
inductive Atomic where
  | register (read : ℤ) (inst : Option Instance)
  | renew (now : ℤ) (service id : Str)
  | deregister (service id : Str)
  | sweepExpired (order : RangeOrder) (now : ℤ)
  | callBackend (i : ℕ)

namespace Concurrent

def start : Concurrent := ⟨newStaticRegistry, []⟩

/-- A section under the mutex. -/
def lock (w : Concurrent) : Locked → Concurrent
  | .error _ => w
  | .ok (instances, call) => ⟨{ w.registry with instances }, w.pending ++ [call]⟩

/-- The pending call is made. -/
def callBackend (w : Concurrent) (i : ℕ) : Concurrent :=
  (w.pending[i]?).elim w fun call =>
    ⟨{ w.registry with backend := (call.run w.registry.backend).1 }, w.pending.eraseIdx i⟩

def step (w : Concurrent) : Atomic → Concurrent
  | .register read inst => w.lock (registerLocked w.registry.instances read inst)
  | .renew now service id => w.lock (renewLocked w.registry.instances now service id)
  | .deregister service id => w.lock (deregisterLocked w.registry.instances service id)
  | .sweepExpired order now => { w with registry := w.registry.sweepExpired order now }
  | .callBackend i => w.callBackend i

/-- The same keys with the same `LastSeen`. -/
def Agree (w : Concurrent) : Prop :=
  ∀ key, (w.registry.instances.lookup key).map Instance.lastSeen =
    (w.registry.backend.data.lookup key).map Instance.lastSeen

/-- A call is made after the older ones on its key, and a sweep finds none on what it evicts. -/
def InOrder (w : Concurrent) : Atomic → Prop
  | .callBackend i => ∀ call ∈ w.pending[i]?, ∀ older ∈ w.pending.take i, older.key ≠ call.key
  | .sweepExpired _ now => ∀ call ∈ w.pending,
      ∀ inst ∈ w.registry.instances.lookup call.key, inst.expired now = false
  | _ => True

instance (w : Concurrent) : DecidablePred w.InOrder
  | .callBackend i => inferInstanceAs (Decidable
      (∀ call ∈ w.pending[i]?, ∀ older ∈ w.pending.take i, older.key ≠ call.key))
  | .sweepExpired _ now => inferInstanceAs (Decidable
      (∀ call ∈ w.pending, ∀ inst ∈ w.registry.instances.lookup call.key, inst.expired now = false))
  | .register _ _ => .isTrue trivial
  | .renew _ _ _ => .isTrue trivial
  | .deregister _ _ => .isTrue trivial

end Concurrent

/-! ### What the pending calls will leave -/

/-- What the call leaves under its key. -/
def BackendCall.effect : BackendCall → Option Instance
  | put _ inst => some inst
  | delete _ => none

theorem lookup_run (b : InMemoryBackend) (call : BackendCall) (j : Str) :
    (call.run b).1.data.lookup j = if j = call.key then call.effect else b.data.lookup j := by
  cases call with
  | put key inst => exact lookup_run_put b key inst j
  | delete key => exact lookup_run_delete b key j

/-- What the calls leave under the key, in their order. -/
def settle (key : Str) (calls : List BackendCall) (value : Option Instance) : Option Instance :=
  calls.foldl (fun value call => if key = call.key then call.effect else value) value

theorem settle_append (key : Str) (calls more : List BackendCall) (value : Option Instance) :
    settle key (calls ++ more) value = settle key more (settle key calls value) :=
  List.foldl_append

theorem settle_cons (key : Str) (call : BackendCall) (calls : List BackendCall) (value : Option Instance) :
    settle key (call :: calls) value = settle key calls (if key = call.key then call.effect else value) := rfl

theorem settle_of_forall_ne {key : Str} {calls : List BackendCall} (h : ∀ call ∈ calls, call.key ≠ key)
    (value : Option Instance) : settle key calls value = value := by
  induction calls with
  | nil => rfl
  | cons call calls ih =>
    obtain ⟨hcall, hcalls⟩ := List.forall_mem_cons.mp h
    rw [settle_cons, if_neg (Ne.symm hcall), ih hcalls]

theorem settle_eraseIdx {key : Str} {older newer : List BackendCall} {call : BackendCall}
    (h : ∀ c ∈ older, c.key ≠ call.key) (value : Option Instance) :
    settle key (older ++ newer) (if key = call.key then call.effect else value) =
      settle key (older ++ call :: newer) value := by
  rw [settle_append, settle_append, settle_cons]
  rcases eq_or_ne key call.key with rfl | hkey
  · rw [if_pos rfl, if_pos rfl, settle_of_forall_ne h]
  · rw [if_neg hkey, if_neg hkey]

/-! ### Runs -/

namespace Concurrent

variable {w : Concurrent}

/-- The cache has what the pending calls will leave in the backend. -/
def Settled (w : Concurrent) : Prop :=
  ∀ key, w.registry.instances.lookup key = settle key w.pending (w.registry.backend.data.lookup key)

section

variable (h : w.Settled)

include h

theorem Settled.lock {instances : GoMap Str Instance} {call : BackendCall}
    (hcall : ∀ j, instances.lookup j = if j = call.key then call.effect else w.registry.instances.lookup j) :
    (w.lock (.ok (instances, call))).Settled := by
  intro key
  show instances.lookup key = settle key (w.pending ++ [call]) (w.registry.backend.data.lookup key)
  rw [hcall, settle_append, settle_cons, ← h key]
  rfl

theorem Settled.register (read : ℤ) (inst : Option Instance) :
    (w.step (.register read inst)).Settled := by
  show (w.lock (registerLocked w.registry.instances read inst)).Settled
  cases inst with
  | none => exact h
  | some inst =>
    rw [registerLocked]
    split_ifs
    · exact h
    · exact h.lock fun j => GoMap.lookup_insert_if _ _ j _

theorem Settled.renew (now : ℤ) (service id : Str) :
    (w.step (.renew now service id)).Settled := by
  show (w.lock (renewLocked w.registry.instances now service id)).Settled
  rw [renewLocked]
  cases w.registry.instances.lookup (instanceKey service id) with
  | none => exact h
  | some inst => exact h.lock fun j => GoMap.lookup_insert_if _ _ j _

theorem Settled.deregister (service id : Str) : (w.step (.deregister service id)).Settled :=
  h.lock fun j => GoMap.lookup_erase_if _ _ j

theorem Settled.sweepExpired {order : RangeOrder} {now : ℤ}
    (horder : w.InOrder (.sweepExpired order now)) : (w.step (.sweepExpired order now)).Settled := by
  intro key
  have hview := w.registry.view_sweepExpired order now key
  show (w.registry.sweepExpired order now).instances.lookup key =
    settle key w.pending ((w.registry.sweepExpired order now).backend.data.lookup key)
  rw [show (w.registry.sweepExpired order now).instances.lookup key = _ from congrArg Prod.fst hview,
    show (w.registry.sweepExpired order now).backend.data.lookup key = _ from congrArg Prod.snd hview]
  split_ifs with hany
  · -- no call on an expired key is pending
    refine (settle_of_forall_ne (fun call hcall hkey => ?_) none).symm
    cases hlookup : w.registry.instances.lookup key with
    | none =>
      rw [hlookup] at hany
      cases hany
    | some inst =>
      rw [hlookup] at hany
      have hkept := horder call hcall inst (hkey ▸ hlookup)
      exact Bool.false_ne_true (hkept.symm.trans hany)
  · exact h key

theorem Settled.callBackend {i : ℕ} (horder : w.InOrder (.callBackend i)) :
    (w.step (.callBackend i)).Settled := by
  show (w.callBackend i).Settled
  rw [Concurrent.callBackend]
  cases hcall : w.pending[i]? with
  | none => exact h
  | some call =>
    intro key
    obtain ⟨hi, hget⟩ := List.getElem?_eq_some_iff.mp hcall
    have hsplit : w.pending = w.pending.take i ++ call :: w.pending.drop (i + 1) := by
      rw [← hget, List.getElem_cons_drop, List.take_append_drop]
    show w.registry.instances.lookup key =
      settle key (w.pending.eraseIdx i) ((call.run w.registry.backend).1.data.lookup key)
    rw [h key, lookup_run, List.eraseIdx_eq_take_drop_succ, settle_eraseIdx (horder call hcall), ← hsplit]

theorem Settled.step (e : Atomic) (horder : w.InOrder e) : (w.step e).Settled := by
  cases e with
  | register read inst => exact h.register read inst
  | renew now service id => exact h.renew now service id
  | deregister service id => exact h.deregister service id
  | sweepExpired order now => exact h.sweepExpired horder
  | callBackend i => exact h.callBackend horder

end

/-- If the calls are made in order, cache and backend agree whenever none is pending. -/
theorem agree_at_rest {steps : List Atomic} (horder : Along step InOrder start steps) :
    ∀ w ∈ states step start steps, w.pending = [] → w.Agree := by
  intro w hw hrest key
  have hsettled : w.Settled :=
    forall_states_of_along (fun w e h => h.step e) (s := start) (fun _ => rfl) horder w hw
  rw [hsettled key, hrest]
  rfl

/-- An instance whose `LastSeen` is left to the registry. -/
def unseen : Instance := { sample 97 1 with lastSeen := 0 }

/-- Two registrations overlap and a third call follows. -/
theorem unseen_agree_at_rest :
    ([.register 1 (some unseen), .register 2 (some unseen), .callBackend 0, .callBackend 0,
      .renew 3 [115] [97], .callBackend 0].foldl step start).Agree :=
  agree_at_rest (by decide) _ (foldl_mem_states _ _) (by rfl)

/-- The older of two registrations reaches the backend last. -/
theorem unseen_differs_at_rest :
    ¬∀ w ∈ states step start [.register 1 (some unseen), .register 2 (some unseen), .callBackend 1,
      .callBackend 0], w.pending = [] → w.Agree := by
  intro h
  have hlast := h _ (foldl_mem_states _ _) (by rfl) (instanceKey [115] [97])
  exact absurd hlast (by decide)

end Concurrent

end HelixCluster.Discovery
