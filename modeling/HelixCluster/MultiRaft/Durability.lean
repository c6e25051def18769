import HelixCluster.Lib.Runs
import HelixCluster.MultiRaft.History

/-!
# Batches are durable before they take effect

In every state of every run, the calls for each node are a `History` (`Linked`), and a cycle ends
with the first pass that finds no node able to go on (`Pass.loop_ended_iff`). The main result is
`processReady_durable`.
-/

namespace HelixCluster.MultiRaft

open List

/-! ### Runs -/

variable {σ κ : Type}

/-- A cycle, the flush after it, the end of a node, and what else is done to an engine or storage.
-/
inductive Event (σ : Type) where
  | processReady (orders : List (Shuffle UInt64))
  | deliverPending
  | stopNode (id : UInt64)
  | engine (id : UInt64) (change : σ → σ)

namespace Shard

def step (E : Raft σ κ) (s : Shard σ) : Event σ → Shard σ
  | .processReady orders => (s.processReadyLockedErr E orders).1.shard
  | .deliverPending => s.deliverPending
  | .stopNode id => s.modify id fun n => { n with stopped := true }
  | .engine id change => s.modify id fun n => { n with raw := change n.raw }

/-- `CreateShard`, with the raft engines of the peers. -/
def createShard (peers : List (UInt64 × σ)) : Shard σ :=
  ⟨peers.foldl (fun nodes peer => nodes.insert peer.1 ⟨peer.2, [], 0, false, none⟩) ∅, [], [], []⟩

/-- The calls for a node. -/
def calls (s : Shard σ) (id : UInt64) : List Call :=
  (s.trace.filter fun c => c.1 = id).map Prod.snd

/-- The batches of a node that are advanced. -/
def advanced (s : Shard σ) (id : UInt64) : List Ready := (s.calls id).filterMap Call.advancedReady

/-- Batches are advanced in order, once, after they are stored, and released once. -/
structure Durable (E : Raft σ κ) (s : Shard σ) : Prop where
  inOrder : ∀ id n, s.nodes.lookup id = some n →
    (s.calls id).filterMap Call.pulledReady = s.advanced id ++ n.pendingReady.toList
  stored : ∀ id before rd after, s.calls id = before ++ .advanced rd :: after →
    ∃ earlier batch, Completing E id rd batch ∧ before ++ [.advanced rd] = earlier ++ batch
  single : ∀ id before rd after, s.calls id = before ++ .pulled rd :: after →
    before.filterMap Call.pulledReady = before.filterMap Call.advancedReady
  delivered : ∀ id,
    (s.calls id).filterMap Call.deliveredMessage = (s.advanced id).flatMap Ready.messages
  /-- Only messages for a node that is gone are lost. -/
  dropped : ∀ id msg, .dropped msg ∈ s.calls id → msg.toID ≠ id
  applied : ∀ id,
    (s.calls id).filterMap Call.appliedEntry = (s.advanced id).flatMap Ready.committedEntries
  committed : ∀ id n, s.nodes.lookup id = some n →
    n.committed = ((s.advanced id).flatMap Ready.committedEntries).filterMap Entry.payload
  sent : s.sent ++ s.pending =
    (s.trace.filterMap fun c => c.2.deliveredMessage).filter Message.crossNode

/-- What the loop keeps for a node beside its raft engine. -/
def kept (s : Shard σ) (id : UInt64) : Option (List Str × Option Ready) :=
  (s.nodes.lookup id).map fun n => (n.committed, n.pendingReady)

end Shard

variable (E : Raft σ κ)

/-- The calls for node `id` are a history, and there are none without a node. -/
inductive Lawful (id : UInt64) : Option (List Str × Option Ready) → List Call → Prop where
  | absent : Lawful id none []
  | present {calls : List Call} {done : List Ready} {parked : Option Ready}
      (h : History E id calls done parked) : Lawful id
        (some ((done.flatMap Ready.committedEntries).filterMap Entry.payload, parked)) calls

variable {E}

theorem Lawful.exists_history {id : UInt64} {k : Option (List Str × Option Ready)}
    {calls : List Call} (h : Lawful E id k calls) :
    ∃ parked, History E id calls (calls.filterMap Call.advancedReady) parked := by
  cases h with
  | absent => exact ⟨none, .start⟩
  | present h => exact ⟨_, h.advanced_eq.symm ▸ h⟩

namespace Shard

variable {s t : Shard σ}

/-- Every node is lawful, and what is delivered to other nodes is sent or pending. -/
structure Linked (E : Raft σ κ) (s : Shard σ) : Prop where
  lawful : ∀ id, Lawful E id (s.kept id) (s.calls id)
  sent : s.sent ++ s.pending =
    (s.trace.filterMap fun c => c.2.deliveredMessage).filter Message.crossNode

theorem Linked.of_lookup (h : s.Linked E) {id : UInt64} {n : Node σ}
    (hlookup : s.nodes.lookup id = some n) :
    History E id (s.calls id) (s.advanced id) n.pendingReady ∧
      n.committed = ((s.advanced id).flatMap Ready.committedEntries).filterMap Entry.payload := by
  have hlawful := h.lawful id
  rw [kept, hlookup, Option.map_some] at hlawful
  generalize n.committed = committed, n.pendingReady = parked at hlawful ⊢
  cases hlawful with
  | present h =>
    rw [advanced, h.advanced_eq]
    exact ⟨h, rfl⟩

theorem Linked.durable (h : s.Linked E) : s.Durable E := by
  have hhistory := fun id => (h.lawful id).exists_history
  constructor
  · exact fun id n hlookup => (h.of_lookup hlookup).1.pulled_eq
  · exact fun id before rd after hcalls => (hhistory id).choose_spec.completing_of_advanced hcalls
  · exact fun id before rd after hcalls => (hhistory id).choose_spec.pulled_eq_advanced hcalls
  · exact fun id => (hhistory id).choose_spec.delivered_eq
  · exact fun id msg hmem => (hhistory id).choose_spec.not_dropped hmem
  · exact fun id => (hhistory id).choose_spec.applied_eq
  · exact fun id n hlookup => (h.of_lookup hlookup).2
  · exact h.sent

variable (E)

/-! ### What the operations leave of a node -/

theorem lookup_modify (s : Shard σ) (id : UInt64) (f : Node σ → Node σ) (j : UInt64) :
    (s.modify id f).nodes.lookup j =
      if j = id then (s.nodes.lookup id).map f else s.nodes.lookup j := by
  unfold modify
  cases hlookup : s.nodes.lookup id with
  | none =>
    split_ifs with hj
    · rw [hj, hlookup]
      rfl
    · rfl
  | some n => exact GoMap.lookup_insert_if s.nodes id j (f n)

theorem kept_modify (s : Shard σ) (id : UInt64) {f : Node σ → Node σ}
    (hf : ∀ n, (f n).committed = n.committed ∧ (f n).pendingReady = n.pendingReady) (j : UInt64) :
    (s.modify id f).kept j = s.kept j := by
  rw [kept, kept, lookup_modify]
  split_ifs with hj
  · rw [hj, Option.map_map]
    refine congrArg (Option.map · _) (funext fun n => ?_)
    rw [Function.comp_apply, (hf n).1, (hf n).2]
  · rfl

theorem modify_rest (s : Shard σ) (id : UInt64) (f : Node σ → Node σ) :
    (s.modify id f).trace = s.trace ∧ (s.modify id f).sent = s.sent ∧
      (s.modify id f).pending = s.pending := by
  unfold modify
  cases s.nodes.lookup id with
  | none => exact ⟨rfl, rfl, rfl⟩
  | some n => exact ⟨rfl, rfl, rfl⟩

/-- The node is there and not stopped. -/
def live (s : Shard σ) (id : UInt64) : Prop := (s.nodes.lookup id).any (!·.stopped) = true

theorem live_modify {id : UInt64} (h : s.live id) (dst : UInt64) {f : Node σ → Node σ}
    (hf : ∀ n, (f n).stopped = n.stopped) : (s.modify dst f).live id := by
  unfold live at h ⊢
  rw [lookup_modify]
  split_ifs with heq
  · subst heq
    simpa [Option.any_map, Function.comp_def, hf] using h
  · exact h

/-- What `deliver` does for a node that is live. -/
theorem deliver_spec {id : UInt64} (hlive : s.live id) (msg : Message) :
    (∀ j, (s.deliver E id msg).kept j = s.kept j) ∧ (s.deliver E id msg).live id ∧
      (s.deliver E id msg).sent = s.sent ∧
      (s.deliver E id msg).pending = s.pending ++ [msg].filter Message.crossNode ∧
      ∃ c, Delivers id msg c ∧ (s.deliver E id msg).trace = s.trace ++ [(id, c)] := by
  unfold deliver
  by_cases hself : msg.toID = msg.fromID
  · have hmsg : msg.crossNode = false := decide_eq_false (not_not.mpr hself)
    rw [if_pos hself, filter_cons_of_neg (by simp [hmsg]), filter_nil, append_nil]
    split_ifs with hdst
    · obtain ⟨htrace, hsent, hpending⟩ := s.modify_rest msg.toID
        fun dst => { dst with raw := E.step dst.raw msg }
      refine ⟨s.kept_modify msg.toID (f := fun dst => { dst with raw := E.step dst.raw msg })
        fun n => ⟨rfl, rfl⟩, live_modify hlive _ fun n => rfl, hsent, hpending, .stepped msg, .stepped hmsg, ?_⟩
      rw [record, htrace]
      rfl
    · exact ⟨fun _ => rfl, hlive, rfl, rfl, .dropped msg,
        .dropped hmsg fun heq => hdst (heq ▸ hlive), rfl⟩
  have hmsg : msg.crossNode = true := decide_eq_true hself
  rw [if_neg hself, filter_cons_of_pos hmsg]
  exact ⟨fun _ => rfl, hlive, rfl, rfl, .queued msg, .queued hmsg, rfl⟩

theorem foldl_deliver (messages : List Message) {id : UInt64} (hlive : s.live id) :
    (∀ j, (messages.foldl (deliver E id) s).kept j = s.kept j) ∧
      (messages.foldl (deliver E id) s).sent = s.sent ∧
      (messages.foldl (deliver E id) s).pending = s.pending ++ messages.filter Message.crossNode ∧
      ∃ delivering, Forall₂ (Delivers id) messages delivering ∧
        (messages.foldl (deliver E id) s).trace = s.trace ++ delivering.map (Prod.mk id) := by
  induction messages generalizing s with
  | nil => exact ⟨fun _ => rfl, rfl, (append_nil _).symm, [], .nil, (append_nil _).symm⟩
  | cons msg messages ih =>
    obtain ⟨hkept, hlive', hsent, hpending, c, hc, htrace⟩ := deliver_spec E hlive msg
    obtain ⟨hkept', hsent', hpending', delivering, hdelivering, htrace'⟩ := ih hlive'
    refine ⟨fun j => (hkept' j).trans (hkept j), hsent'.trans hsent, hpending'.trans ?_,
      c :: delivering, .cons hc hdelivering, htrace'.trans ?_⟩
    · rw [hpending, append_assoc, ← filter_append]
      rfl
    · rw [htrace, append_assoc]
      rfl

theorem applyEntry_kept (n : Node σ) (ent : Entry) :
    (n.applyEntry E ent).committed = n.committed ++ ent.payload.toList ∧
      (n.applyEntry E ent).pendingReady = n.pendingReady := by
  have hlast : ∀ m : Node σ,
      (if m.applied < ent.index then { m with applied := ent.index } else m).committed = m.committed ∧
        (if m.applied < ent.index then { m with applied := ent.index } else m).pendingReady = m.pendingReady := by
    intro m
    split_ifs <;> exact ⟨rfl, rfl⟩
  refine ⟨(hlast _).1.trans ?_, (hlast _).2.trans ?_⟩
  · unfold Entry.payload
    cases ent.type with
    | normal => by_cases hdata : ent.data = [] <;> simp [hdata]
    | _ => cases E.unmarshal _ ent.data <;> simp
  cases ent.type with
  | normal => by_cases hdata : ent.data = [] <;> simp [hdata]
  | _ => cases E.unmarshal _ ent.data <;> rfl

theorem foldl_applyEntry (entries : List Entry) (n : Node σ) :
    (entries.foldl (Node.applyEntry E) n).committed = n.committed ++ entries.filterMap Entry.payload ∧
      (entries.foldl (Node.applyEntry E) n).pendingReady = n.pendingReady := by
  induction entries generalizing n with
  | nil => exact ⟨(append_nil _).symm, rfl⟩
  | cons ent entries ih =>
    obtain ⟨hcommitted, hparked⟩ := ih (n.applyEntry E ent)
    obtain ⟨hcommitted', hparked'⟩ := applyEntry_kept E n ent
    rw [foldl_cons, hcommitted, hparked, hcommitted', hparked', append_assoc, filterMap_cons]
    cases ent.payload <;> exact ⟨rfl, rfl⟩

theorem release_spec {id : UInt64} (hlive : s.live id) (rd : Ready) {committed : List Str}
    {parked : Option Ready} (hkept : s.kept id = some (committed, parked)) :
    (∀ j, (s.release E id rd).kept j = if j = id then
      some (committed ++ rd.committedEntries.filterMap Entry.payload, parked) else s.kept j) ∧
    (s.release E id rd).sent = s.sent ∧
    (s.release E id rd).pending = s.pending ++ rd.messages.filter Message.crossNode ∧
    ∃ delivering, Forall₂ (Delivers id) rd.messages delivering ∧
      (s.release E id rd).trace = s.trace ++
        (delivering ++ rd.committedEntries.map Call.applied ++ [Call.advanced rd]).map
          (Prod.mk id) := by
  obtain ⟨hdeliver, hsent, hpending, delivering, hdelivering, htrace⟩ :=
    foldl_deliver E rd.messages hlive
  unfold release
  generalize rd.messages.foldl (deliver E id) s = t at hdeliver htrace hsent hpending ⊢
  refine ⟨fun j => ?_, ?_, ?_, delivering, hdelivering, ?_⟩
  · refine (kept_modify _ id (f := fun n => { n with raw := E.advance n.raw rd })
      (fun n => ⟨rfl, rfl⟩) j).trans ?_
    show ((t.modify id _).nodes.lookup j).map _ = _
    rw [lookup_modify]
    split_ifs with hj
    · have ht : (t.nodes.lookup id).map (fun n => (n.committed, n.pendingReady)) =
          some (committed, parked) := (hdeliver id).trans hkept
      obtain ⟨n, hn, hkeptn⟩ := Option.map_eq_some_iff.mp ht
      cases hkeptn
      obtain ⟨hcommitted, hparked⟩ := foldl_applyEntry E rd.committedEntries n
      rw [hn, Option.map_some, Option.map_some, hcommitted, hparked]
    · exact hdeliver j
  · simp only [record, modify_rest, hsent]
  · simp only [record, modify_rest, hpending]
  · simp only [record, modify_rest, htrace, map_append, append_assoc]

/-! ### A visit -/

theorem store_spec (id : UInt64) (raw : σ) (rd : Ready) :
    (∀ c ∈ (store E id raw rd).calls, c.toStorage = true) ∧
      ((store E id raw rd).err = none → (store E id raw rd).calls = storing E rd) := by
  unfold store storeHardState storeEntries storing
  cases hfirst : (E.setHardState raw rd.hardState).2 with
  | _ =>
    by_cases hhard : E.isEmptyHardState rd.hardState = true <;>
      by_cases hentries : rd.entries = [] <;> simp [hhard, hentries, hfirst, Call.toStorage]

theorem take_cases {E : Raft σ κ} {n : Node σ} {rd : Ready} {raw : σ} {pulls : List Call}
    (h : n.take E = some (rd, raw, pulls)) :
    (n.pendingReady = some rd ∧ pulls = []) ∨ (n.pendingReady = none ∧ pulls = [.pulled rd]) := by
  unfold Node.take at h
  cases hparked : n.pendingReady with
  | some parked =>
    rw [hparked] at h
    obtain ⟨rfl, -, rfl⟩ := by simpa using h
    exact .inl ⟨rfl, rfl⟩
  | none =>
    rw [hparked] at h
    dsimp only at h
    split_ifs at h
    obtain ⟨rfl, -, rfl⟩ := by simpa using h
    exact .inr ⟨rfl, rfl⟩

theorem kept_setNode (s : Shard σ) (id : UInt64) (n : Node σ) (j : UInt64) :
    (s.setNode id n).kept j = if j = id then some (n.committed, n.pendingReady) else s.kept j := by
  rw [kept, setNode, GoMap.lookup_insert_if]
  split_ifs <;> rfl

/-- The shard after a visit that stores no batch. -/
def parking (s : Shard σ) (id : UInt64) (n : Node σ) (rd : Ready) (pulls : List Call)
    (stored : Stored σ) : Shard σ :=
  (s.record id (pulls ++ stored.calls)).setNode id
    { n with raw := stored.raw, pendingReady := some rd }

/-- The shard before a batch that is stored is released. -/
def unparking (s : Shard σ) (id : UInt64) (n : Node σ) (pulls : List Call) (stored : Stored σ) :
    Shard σ :=
  (s.record id (pulls ++ stored.calls)).setNode id
    { n with raw := stored.raw, pendingReady := none }

theorem live_unparking (s : Shard σ) (id : UInt64) {n : Node σ} (hstopped : n.stopped = false)
    (pulls : List Call) (stored : Stored σ) : (s.unparking id n pulls stored).live id := by
  simp [live, unparking, setNode, hstopped]

theorem visit_cases (s : Shard σ) (id : UInt64) :
    ((∀ n, s.nodes.lookup id = some n → n.stopped = true ∨ n.take E = none) ∧ s.visit E id = (s, .skipped)) ∨
    ∃ n rd raw pulls, s.nodes.lookup id = some n ∧ n.stopped = false ∧ n.take E = some (rd, raw, pulls) ∧
      ((∃ err, (store E id raw rd).err = some err ∧
          s.visit E id = (s.parking id n rd pulls (store E id raw rd), .failed err)) ∨
        ((store E id raw rd).err = none ∧
          s.visit E id = ((s.unparking id n pulls (store E id raw rd)).release E id rd, .advanced))) := by
  unfold visit
  cases hlookup : s.nodes.lookup id with
  | none => exact .inl ⟨fun n hn => absurd hn.symm (Option.some_ne_none n), rfl⟩
  | some n =>
    dsimp only
    by_cases hstopped : n.stopped = true
    · refine .inl ⟨fun m hm => .inl (Option.some_inj.mp hm ▸ hstopped), if_pos hstopped⟩
    rw [if_neg hstopped]
    cases htake : n.take E with
    | none => exact .inl ⟨fun m hm => .inr (Option.some_inj.mp hm ▸ htake), rfl⟩
    | some taken =>
      obtain ⟨rd, raw, pulls⟩ := taken
      refine .inr ⟨n, rd, raw, pulls, rfl, Bool.eq_false_iff.mpr hstopped, htake, ?_⟩
      cases herr : (store E id raw rd).err with
      | some err =>
        simp only [herr]
        exact .inl ⟨err, rfl, rfl⟩
      | none =>
        simp only [herr]
        exact .inr ⟨trivial, rfl⟩

/-! ### Every run keeps the histories -/

theorem calls_of_trace {id : UInt64} {new : List Call}
    (htrace : t.trace = s.trace ++ new.map (Prod.mk id)) (j : UInt64) :
    t.calls j = if j = id then s.calls j ++ new else s.calls j := by
  rw [calls, htrace, filter_append, map_append, filter_map, map_map]
  split_ifs with hj
  · have hall : new.filter ((fun c : UInt64 × Call => decide (c.1 = j)) ∘ Prod.mk id) = new :=
      filter_eq_self.mpr fun c _ => decide_eq_true hj.symm
    rw [hall]
    exact congrArg _ (map_id new)
  have hnone : new.filter ((fun c : UInt64 × Call => decide (c.1 = j)) ∘ Prod.mk id) = [] :=
    filter_eq_nil_iff.mpr fun c _ hc => hj (of_decide_eq_true hc).symm
  rw [hnone, map_nil, append_nil]
  rfl

variable {E}

theorem Linked.of_kept (h : s.Linked E) (hkept : ∀ j, t.kept j = s.kept j)
    (htrace : t.trace = s.trace) (hsent : t.sent ++ t.pending = s.sent ++ s.pending) :
    t.Linked E where
  lawful j := by
    rw [hkept, calls, htrace]
    exact h.lawful j
  sent := by
    rw [hsent, htrace]
    exact h.sent

theorem Linked.extend (h : s.Linked E) (id : UInt64) (new : List Call)
    (k : List Str × Option Ready) (htrace : t.trace = s.trace ++ new.map (Prod.mk id))
    (hkept : ∀ j, t.kept j = if j = id then some k else s.kept j)
    (hlawful : Lawful E id (some k) (s.calls id ++ new))
    (hsent : t.sent ++ t.pending =
      s.sent ++ s.pending ++ (new.filterMap Call.deliveredMessage).filter Message.crossNode) :
    t.Linked E where
  lawful j := by
    rw [hkept, calls_of_trace htrace]
    split_ifs with hj
    · rw [hj]
      exact hlawful
    · exact h.lawful j
  sent := by
    rw [hsent, h.sent, htrace, filterMap_append, filter_append, filterMap_map]
    rfl

theorem Linked.visit (h : s.Linked E) (id : UInt64) : (s.visit E id).1.Linked E := by
  obtain ⟨-, hvisit⟩ | ⟨n, rd, raw, pulls, hlookup, hstopped, htake, hrest⟩ := visit_cases E s id
  · rw [hvisit]
    exact h
  obtain ⟨hhistory, hcommitted⟩ := h.of_lookup hlookup
  obtain ⟨hattempt, hstoring⟩ := store_spec E id raw rd
  -- the batch is parked, or it is pulled now
  obtain ⟨hpulled, hsilent⟩ : History E id (s.calls id ++ pulls) (s.advanced id) (some rd) ∧
      pulls.filterMap Call.deliveredMessage = [] := by
    obtain ⟨hparked, rfl⟩ | ⟨hparked, rfl⟩ := take_cases htake
    · rw [append_nil, ← hparked]
      exact ⟨hhistory, rfl⟩
    · exact ⟨.pull rd (hparked ▸ hhistory), rfl⟩
  obtain ⟨err, -, hvisit⟩ | ⟨herr, hvisit⟩ := hrest
  · rw [hvisit]
    refine h.extend id (pulls ++ (store E id raw rd).calls) (n.committed, some rd) rfl
      (kept_setNode _ id _) ?_ ?_
    · rw [hcommitted, ← append_assoc]
      exact .present (.fail hattempt hpulled)
    · rw [filterMap_append, hsilent,
        filterMap_attempt (fun c hc => by cases c <;> trivial) hattempt]
      exact (append_nil _).symm
  rw [hvisit]
  have hlive := live_unparking s id hstopped pulls (store E id raw rd)
  obtain ⟨hkept, hsent, hpending, delivering, hdelivering, htrace⟩ :=
    release_spec E hlive rd ((kept_setNode _ id _ id).trans (if_pos rfl))
  have hbatch : Completing E id rd _ := ⟨delivering, hdelivering, rfl⟩
  refine h.extend id
    (pulls ++ (storing E rd ++ (delivering ++ rd.committedEntries.map .applied) ++ [.advanced rd]))
    (n.committed ++ rd.committedEntries.filterMap Entry.payload, none) (htrace.trans ?_)
    (fun j => (hkept j).trans ?_) ?_ ?_
  · simp [unparking, setNode, record, hstoring herr]
  · split_ifs with hj
    · rfl
    · exact (kept_setNode _ id _ j).trans (if_neg hj)
  · have hpresent := Lawful.present (History.complete hbatch hpulled)
    rwa [flatMap_append, flatMap_singleton, filterMap_append, ← hcommitted, append_assoc]
      at hpresent
  · rw [hsent, hpending, filterMap_append, hsilent, hbatch.filterMap_eq
      (fun c hc => by cases c <;> trivial) fun msg c hc => hc.message_eq]
    simp [Ready.projected, Call.deliveredMessage, unparking, setNode, record]

variable (E)

theorem Pass.visit_shard (p : Pass σ) (id : UInt64) :
    (p.visit E id).shard = (p.shard.visit E id).1 := by
  unfold Pass.visit
  generalize p.shard.visit E id = result
  obtain ⟨t, outcome⟩ := result
  cases outcome <;> rfl

theorem Pass.visit_did (p : Pass σ) (id : UInt64) :
    (p.visit E id).did = true ↔ p.did = true ∨ (p.shard.visit E id).2 = .advanced := by
  unfold Pass.visit
  generalize p.shard.visit E id = result
  obtain ⟨t, outcome⟩ := result
  cases outcome <;> simp

variable {E}

theorem Linked.run {p : Pass σ} (h : p.shard.Linked E) (order : Shuffle UInt64) :
    (p.run E order).shard.Linked E := by
  unfold Pass.run
  generalize order.run p.shard.nodes.keys = ids
  replace h : ({ p with did := false } : Pass σ).shard.Linked E := h
  generalize ({ p with did := false } : Pass σ) = q at h ⊢
  induction ids generalizing q with
  | nil => exact h
  | cons id ids ih =>
    refine ih (q.visit E id) ?_
    rw [Pass.visit_shard]
    exact h.visit id

theorem Linked.loop {p : Pass σ} (h : p.shard.Linked E) (orders : List (Shuffle UInt64)) :
    (p.loop E orders).1.shard.Linked E := by
  induction orders generalizing p with
  | nil => exact h
  | cons order orders ih =>
    rw [Pass.loop]
    split_ifs
    · exact ih (h.run order)
    · exact h.run order

theorem Linked.step (h : s.Linked E) (e : Event σ) : (s.step E e).Linked E := by
  cases e with
  | processReady orders => exact Linked.loop (p := ⟨s, false, false, none⟩) h orders
  | deliverPending => exact h.of_kept (fun _ => rfl) rfl (append_nil _)
  | stopNode id =>
    obtain ⟨htrace, hsent, hpending⟩ := s.modify_rest id fun n => { n with stopped := true }
    refine h.of_kept (s.kept_modify id fun n => ⟨rfl, rfl⟩) htrace ?_
    show (s.modify id _).sent ++ (s.modify id _).pending = _
    rw [hsent, hpending]
  | engine id change =>
    obtain ⟨htrace, hsent, hpending⟩ := s.modify_rest id fun n => { n with raw := change n.raw }
    refine h.of_kept (s.kept_modify id fun n => ⟨rfl, rfl⟩) htrace ?_
    show (s.modify id _).sent ++ (s.modify id _).pending = _
    rw [hsent, hpending]

variable (E)

theorem linked_createShard (peers : List (UInt64 × σ)) : (createShard peers).Linked E := by
  refine ⟨fun id => ?_, rfl⟩
  show Lawful E id (Option.map _ ((createShard peers).nodes.lookup id)) []
  unfold createShard
  induction peers using List.reverseRecOn with
  | nil => exact .absent
  | append_singleton peers peer ih =>
    rw [foldl_append, foldl_cons, foldl_nil]
    dsimp only
    rw [GoMap.lookup_insert_if]
    split_ifs
    · exact .present .start
    · exact ih

/-! ### The end of a cycle -/

end Shard

/-- The call to the storage failed. -/
def Call.failed : Call → Bool
  | .setHardState _ err => err.isSome
  | .append _ err => err.isSome
  | _ => false

/-- The node is stopped, or it has no batch to handle, or storing that batch fails. -/
def Node.settled (E : Raft σ κ) (id : UInt64) (n : Node σ) : Bool :=
  n.stopped || (n.take E).all fun taken => (store E id taken.2.1 taken.1).err.isSome

/-- Stopped, or without a `Ready`, or with a parked one after a failed call. -/
def Node.Resting (E : Raft σ κ) (calls : List Call) (n : Node σ) : Prop :=
  n.stopped = true ∨ (n.pendingReady = none ∧ E.hasReady n.raw = false) ∨
    ∃ rd, n.pendingReady = some rd ∧ ∃ c, calls.getLast? = some c ∧ c.failed = true

namespace Shard

variable (E)

/-- No node can go on. -/
def Settled (E : Raft σ κ) (s : Shard σ) : Prop :=
  ∀ id n, s.nodes.lookup id = some n → n.settled E id = true

/-- The shard after some passes. -/
def passes (E : Raft σ κ) (s : Shard σ) (orders : List (Shuffle UInt64)) : Shard σ :=
  (orders.foldl (Pass.run E) ⟨s, false, false, none⟩).shard

theorem store_failed {E : Raft σ κ} {id : UInt64} {raw : σ} {rd : Ready} {err : PersistError}
    (h : (store E id raw rd).err = some err) :
    ∃ c, (store E id raw rd).calls.getLast? = some c ∧ c.failed = true := by
  unfold store at h ⊢
  by_cases hfirst : (storeHardState E id raw rd).err = none
  · rw [if_pos hfirst] at h ⊢
    generalize (storeHardState E id raw rd).raw = raw' at h ⊢
    unfold storeEntries at h ⊢
    split_ifs at h ⊢ with hentries
    obtain ⟨e, he, -⟩ := Option.map_eq_some_iff.mp h
    exact ⟨_, List.getLast?_concat, by rw [he]; rfl⟩
  rw [if_neg hfirst] at h ⊢
  unfold storeHardState at h ⊢
  split_ifs at h ⊢
  obtain ⟨e, he, -⟩ := Option.map_eq_some_iff.mp h
  exact ⟨_, List.getLast?_singleton, by rw [he]; rfl⟩

theorem visit_advanced_iff (s : Shard σ) (id : UInt64) :
    (s.visit E id).2 = .advanced ↔ ∃ n, s.nodes.lookup id = some n ∧ n.settled E id = false := by
  obtain ⟨hskip, hvisit⟩ | ⟨n, rd, raw, pulls, hlookup, hstopped, htake, hrest⟩ := visit_cases E s id
  · rw [hvisit]
    constructor
    · intro h
      cases h
    rintro ⟨n, hn, hsettled⟩
    obtain hstopped | htake := hskip n hn
    · simp [Node.settled, hstopped] at hsettled
    · simp [Node.settled, htake] at hsettled
  have hsettled : n.settled E id = (store E id raw rd).err.isSome := by
    rw [Node.settled, hstopped, htake]
    rfl
  obtain ⟨err, herr, hvisit⟩ | ⟨herr, hvisit⟩ := hrest
  · rw [hvisit]
    constructor
    · intro h
      cases h
    rintro ⟨m, hm, hm'⟩
    cases hlookup.symm.trans hm
    rw [hsettled, herr] at hm'
    cases hm'
  · rw [hvisit]
    exact ⟨fun _ => ⟨n, hlookup, by rw [hsettled, herr]; rfl⟩, fun _ => rfl⟩

theorem visit_stuck (s : Shard σ) (id : UInt64) (h : (s.visit E id).2 ≠ .advanced) :
    (∀ j, j ≠ id → (s.visit E id).1.nodes.lookup j = s.nodes.lookup j ∧ (s.visit E id).1.calls j = s.calls j) ∧
      ∀ n, (s.visit E id).1.nodes.lookup id = some n → n.Resting E ((s.visit E id).1.calls id) := by
  obtain ⟨hskip, hvisit⟩ | ⟨n, rd, raw, pulls, hlookup, hstopped, htake, hrest⟩ := visit_cases E s id
  · rw [hvisit]
    refine ⟨fun _ _ => ⟨rfl, rfl⟩, fun n hn => ?_⟩
    obtain hstopped | htake := hskip n hn
    · exact .inl hstopped
    refine .inr (.inl ?_)
    unfold Node.take at htake
    cases hparked : n.pendingReady with
    | some rd => simp [hparked] at htake
    | none => exact ⟨rfl, by simpa [hparked] using htake⟩
  obtain ⟨err, herr, hvisit⟩ | ⟨herr, hvisit⟩ := hrest
  · rw [hvisit]
    have hcalls := calls_of_trace (s := s) (t := s.parking id n rd pulls (store E id raw rd)) rfl
    refine ⟨fun j hj => ⟨?_, (hcalls j).trans (if_neg hj)⟩, fun m hm => .inr (.inr ?_)⟩
    · exact (GoMap.lookup_insert_if _ id j _).trans (if_neg hj)
    have hm' := (GoMap.lookup_insert_if s.nodes id id _).symm.trans hm
    rw [if_pos rfl] at hm'
    cases hm'
    obtain ⟨c, hlast, hfailed⟩ := store_failed herr
    refine ⟨rd, rfl, c, ?_, hfailed⟩
    rw [hcalls id, if_pos rfl, List.getLast?_append, List.getLast?_append, hlast]
    rfl
  · exact absurd (congrArg Prod.snd hvisit) h

theorem foldl_visit_did {ids : List UInt64} (hnodup : ids.Nodup) (p : Pass σ) :
    (ids.foldl (Pass.visit E) p).did = true ↔
      p.did = true ∨ ∃ id ∈ ids, ∃ n, p.shard.nodes.lookup id = some n ∧ n.settled E id = false := by
  induction ids generalizing p with
  | nil => simp
  | cons id ids ih =>
    obtain ⟨hid, hnodup⟩ := nodup_cons.mp hnodup
    rw [foldl_cons, ih hnodup, Pass.visit_did, Pass.visit_shard, visit_advanced_iff, exists_mem_cons_iff,
      or_assoc]
    by_cases hadvanced : ∃ n, p.shard.nodes.lookup id = some n ∧ n.settled E id = false
    · simp only [hadvanced, true_or, or_true]
    -- the nodes that come later are as they were before the pass
    obtain ⟨hsame, -⟩ := visit_stuck E p.shard id ((visit_advanced_iff E p.shard id).not.mpr hadvanced)
    simp only [hadvanced, false_or]
    refine or_congr_right (exists_congr fun j => and_congr_right fun hj => ?_)
    rw [(hsame j fun heq => hid (heq ▸ hj)).1]

theorem foldl_visit_resting {ids : List UInt64} (hnodup : ids.Nodup) {p : Pass σ}
    (hdid : ¬(ids.foldl (Pass.visit E) p).did = true) (j : UInt64) :
    (j ∉ ids → (ids.foldl (Pass.visit E) p).shard.nodes.lookup j = p.shard.nodes.lookup j ∧
      (ids.foldl (Pass.visit E) p).shard.calls j = p.shard.calls j) ∧
    (j ∈ ids → ∀ n, (ids.foldl (Pass.visit E) p).shard.nodes.lookup j = some n →
      n.Resting E ((ids.foldl (Pass.visit E) p).shard.calls j)) := by
  induction ids generalizing p with
  | nil => exact ⟨fun _ => ⟨rfl, rfl⟩, fun hj => absurd hj not_mem_nil⟩
  | cons id ids ih =>
    have hnot : (p.shard.visit E id).2 ≠ .advanced := by
      intro hadvanced
      refine hdid ((foldl_visit_did E hnodup p).mpr (.inr ⟨id, mem_cons_self, ?_⟩))
      exact (visit_advanced_iff E p.shard id).mp hadvanced
    obtain ⟨hsame, hresting⟩ := visit_stuck E p.shard id hnot
    obtain ⟨hid, hnodup⟩ := nodup_cons.mp hnodup
    obtain ⟨hother, hself⟩ := ih hnodup hdid
    rw [Pass.visit_shard] at hother
    constructor
    · intro hj
      obtain ⟨hne, hj⟩ := not_or.mp (mem_cons.not.mp hj)
      exact ⟨(hother hj).1.trans (hsame j hne).1, (hother hj).2.trans (hsame j hne).2⟩
    intro hj n hn
    obtain rfl | hj := mem_cons.mp hj
    · rw [foldl_cons] at hn ⊢
      rw [(hother hid).1] at hn
      rw [(hother hid).2]
      exact hresting n hn
    · exact hself hj n hn

theorem nodup_order (order : Shuffle UInt64) (s : Shard σ) : (order.run s.nodes.keys).Nodup :=
  (order.perm _).nodup_iff.mpr s.nodes.keys_nodup

theorem mem_order {order : Shuffle UInt64} {s : Shard σ} {id : UInt64} {n : Node σ}
    (h : s.nodes.lookup id = some n) : id ∈ order.run s.nodes.keys :=
  (order.perm _).mem_iff.mpr (AList.mem_keys.mpr (GoMap.mem_of_lookup h))

theorem Pass.run_did_iff (p : Pass σ) (order : Shuffle UInt64) :
    (p.run E order).did = true ↔ ¬p.shard.Settled E := by
  rw [Pass.run, foldl_visit_did E (nodup_order order p.shard), Settled]
  constructor
  · rintro (hfalse | ⟨id, -, n, hn, hsettled⟩) hall
    · exact Bool.false_ne_true hfalse
    · exact Bool.false_ne_true (hsettled.symm.trans (hall id n hn))
  intro hnot
  push Not at hnot
  obtain ⟨id, n, hn, hsettled⟩ := hnot
  exact .inr ⟨id, mem_order hn, n, hn, Bool.eq_false_iff.mpr hsettled⟩

theorem Pass.loop_ended_iff (orders : List (Shuffle UInt64)) (p : Pass σ) :
    (p.loop E orders).2 = true ↔
      ∃ k < orders.length, ((orders.take k).foldl (Pass.run E) p).shard.Settled E := by
  induction orders generalizing p with
  | nil =>
    constructor
    · exact fun h => absurd h Bool.false_ne_true
    · rintro ⟨k, hk, -⟩
      exact absurd hk (Nat.not_lt_zero k)
  | cons order orders ih =>
    rw [Pass.loop]
    by_cases hdid : (p.run E order).did = true
    · have hnot := (p.run_did_iff E order).mp hdid
      rw [if_pos hdid, ih]
      constructor
      · rintro ⟨k, hk, hsettled⟩
        exact ⟨k + 1, Nat.succ_lt_succ hk, hsettled⟩
      rintro ⟨k, hk, hsettled⟩
      cases k with
      | zero => exact absurd hsettled hnot
      | succ k => exact ⟨k, Nat.lt_of_succ_lt_succ hk, hsettled⟩
    have hsettled := not_not.mp ((p.run_did_iff E order).not.mp hdid)
    rw [if_neg hdid]
    exact ⟨fun _ => ⟨0, Nat.succ_pos _, hsettled⟩, fun _ => rfl⟩

theorem Pass.loop_resting {E : Raft σ κ} {orders : List (Shuffle UInt64)} {p : Pass σ}
    (h : (p.loop E orders).2 = true) {id : UInt64} {n : Node σ}
    (hn : (p.loop E orders).1.shard.nodes.lookup id = some n) :
    n.Resting E ((p.loop E orders).1.shard.calls id) := by
  induction orders generalizing p with
  | nil => exact absurd h Bool.false_ne_true
  | cons order orders ih =>
    rw [Pass.loop] at h hn ⊢
    split_ifs at h hn ⊢ with hdid
    · exact ih h hn
    · obtain ⟨hother, hself⟩ := foldl_visit_resting E (nodup_order order p.shard) hdid id
      by_cases hid : id ∈ order.run p.shard.nodes.keys
      · exact hself hid n hn
      · exact absurd (mem_order ((hother hid).1.symm.trans hn)) hid

/-- Batches are advanced in order, each once, after they are stored. A cycle ends with nothing left
to store. -/
theorem processReady_durable (E : Raft σ κ) (peers : List (UInt64 × σ)) (events : List (Event σ)) :
    ∀ s ∈ states (step E) (createShard peers) events, s.Durable E ∧ ∀ orders,
      ((s.processReadyLockedErr E orders).2 = true ↔
        ∃ k < orders.length, (s.passes E (orders.take k)).Settled E) ∧
      ((s.processReadyLockedErr E orders).2 = true →
        ∀ id n, (s.processReadyLockedErr E orders).1.shard.nodes.lookup id = some n →
          n.Resting E ((s.processReadyLockedErr E orders).1.shard.calls id)) := by
  intro s hs
  have hlinked := forall_states (I := Linked E) (fun s e h => h.step e) (linked_createShard E peers)
    events s hs
  refine ⟨hlinked.durable, fun orders => ⟨Pass.loop_ended_iff E orders _, fun hended id n hn => ?_⟩⟩
  exact Pass.loop_resting hended hn

/-- A raft engine with batches to come and a number of calls of `Append` that still fail. -/
def scripted : Raft (List Ready × ℕ) Unit where
  isEmptyHardState st := st = ⟨0, 0, 0⟩
  hasReady raw := raw.1 ≠ []
  ready raw := (raw.1.headD ⟨⟨0, 0, 0⟩, [], [], []⟩, (raw.1.tail, raw.2))
  setHardState raw _ := (raw, none)
  append raw _ := if raw.2 = 0 then (raw, none) else ((raw.1, raw.2 - 1), some [33])
  step raw _ := raw
  unmarshal _ _ := none
  applyConfChange raw _ := raw
  advance raw _ := raw

/-- A batch that commits its only entry and sends a message from node 1 to node 2. -/
def entryBatch (index : UInt64) (data : UInt8) : Ready :=
  ⟨⟨1, 1, index⟩, [⟨.normal, index, 1, [data]⟩], [⟨2, 1, [data]⟩], [⟨.normal, index, 1, [data]⟩]⟩

/-- Two cycles of node 1, where the first `Append` fails. -/
def retried : List (Event (List Ready × ℕ)) :=
  [.processReady [⟨id, fun _ => .rfl⟩],
    .processReady [⟨id, fun _ => .rfl⟩, ⟨id, fun _ => .rfl⟩, ⟨id, fun _ => .rfl⟩], .deliverPending]

theorem retried_durable :
    let s := retried.foldl (step scripted)
      (createShard [(1, [entryBatch 1 97, entryBatch 2 98], 1)])
    s.Durable scripted ∧ s.kept 1 = some ([[97], [98]], none) :=
  ⟨(processReady_durable scripted _ retried _ (foldl_mem_states _ _)).1, by decide⟩

end Shard

end HelixCluster.MultiRaft
