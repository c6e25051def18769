import HelixCluster.MultiRaft.Ready

/-!
# Histories of a node

What the Ready loop is for, node by node: a batch is pulled, an attempt to store it may fail any
number of times, and then one attempt stores it, its messages and entries are released, and it is
advanced.
-/

namespace HelixCluster.MultiRaft

open List

variable {σ κ : Type}

/-! ### What the calls say -/

def Call.pulledReady : Call → Option Ready
  | .pulled rd => some rd
  | _ => none

def Call.advancedReady : Call → Option Ready
  | .advanced rd => some rd
  | _ => none

/-- The message that `deliver` was called with. -/
def Call.deliveredMessage : Call → Option Message
  | .queued msg | .stepped msg | .dropped msg => some msg
  | _ => none

def Call.appliedEntry : Call → Option Entry
  | .applied ent => some ent
  | _ => none

/-- A call to the storage. -/
def Call.toStorage : Call → Bool
  | .setHardState _ _ => true
  | .append _ _ => true
  | _ => false

/-- The payload of an entry that is normal and not empty. -/
def Entry.payload (ent : Entry) : Option Str :=
  if ent.type = .normal ∧ ent.data ≠ [] then some ent.data else none

/-- The message is for another node. -/
def Message.crossNode (msg : Message) : Bool := msg.toID ≠ msg.fromID

/-- What `deliver` does with a message of node `id`: one for another node is queued, and one that a
node has sent to itself is stepped, unless it is that of a node that is gone. -/
inductive Delivers (id : UInt64) (msg : Message) : Call → Prop where
  | queued (h : msg.crossNode = true) : Delivers id msg (.queued msg)
  | stepped (h : msg.crossNode = false) : Delivers id msg (.stepped msg)
  | dropped (h : msg.crossNode = false) (hgone : msg.toID ≠ id) : Delivers id msg (.dropped msg)

section

variable (E : Raft σ κ)

/-- The calls that store a batch. -/
def storing (rd : Ready) : List Call :=
  (if E.isEmptyHardState rd.hardState then [] else [.setHardState rd.hardState none]) ++
    if rd.entries = [] then [] else [.append rd.entries none]

/-- The calls of a visit of node `id` that advances the batch: they store it, deliver its messages and
apply its entries. -/
def Completing (id : UInt64) (rd : Ready) (calls : List Call) : Prop :=
  ∃ delivering, Forall₂ (Delivers id) rd.messages delivering ∧
    calls = storing E rd ++ (delivering ++ rd.committedEntries.map .applied) ++ [.advanced rd]

/-! ### Histories -/

/-- The calls for node `id`, the batches that are advanced, and the batch that is parked. -/
inductive History (id : UInt64) : List Call → List Ready → Option Ready → Prop where
  | start : History id [] [] none
  | pull {calls : List Call} {done : List Ready} (rd : Ready) :
      History id calls done none → History id (calls ++ [.pulled rd]) done (some rd)
  | fail {calls attempt : List Call} {done : List Ready} {rd : Ready}
      (hattempt : ∀ c ∈ attempt, c.toStorage = true) :
      History id calls done (some rd) → History id (calls ++ attempt) done (some rd)
  | complete {calls batch : List Call} {done : List Ready} {rd : Ready}
      (hbatch : Completing E id rd batch) :
      History id calls done (some rd) → History id (calls ++ batch) (done ++ [rd]) none

end

variable {E : Raft σ κ} {id : UInt64} {rd : Ready} {batch : List Call}

theorem toStorage_of_mem_storing {c : Call} (hc : c ∈ storing E rd) : c.toStorage = true := by
  unfold storing at hc
  obtain hc | hc := mem_append.mp hc
  · split_ifs at hc
    · exact absurd hc not_mem_nil
    · rw [mem_singleton.mp hc]
      rfl
  split_ifs at hc
  · exact absurd hc not_mem_nil
  · rw [mem_singleton.mp hc]
    rfl

theorem Delivers.message_eq {msg : Message} {c : Call} (h : Delivers id msg c) :
    c.deliveredMessage = some msg := by
  cases h <;> rfl

/-- The last call of a batch advances it, and the others neither pull nor advance. -/
theorem Completing.exists_init (h : Completing E id rd batch) : ∃ init,
    batch = init ++ [.advanced rd] ∧ ∀ c ∈ init, c.pulledReady = none ∧ c.advancedReady = none ∧
      ∀ msg, c = .dropped msg → msg.toID ≠ id := by
  obtain ⟨delivering, hdelivering, rfl⟩ := h
  refine ⟨_, rfl, fun c hc => ?_⟩
  rcases mem_append.mp hc with hstoring | hc
  · have hstorage := toStorage_of_mem_storing hstoring
    cases c <;> first | contradiction | exact ⟨rfl, rfl, nofun⟩
  rcases mem_append.mp hc with hdelivers | happlied
  · obtain ⟨i, hi, hget⟩ := mem_iff_getElem.mp hdelivers
    have hmsg := hdelivering.get (hdelivering.length_eq ▸ hi) hi
    rw [List.get_eq_getElem, List.get_eq_getElem, hget] at hmsg
    cases hmsg with
    | queued | stepped => exact ⟨rfl, rfl, nofun⟩
    | dropped h hgone => exact ⟨rfl, rfl, fun msg heq => Call.dropped.inj heq ▸ hgone⟩
  · obtain ⟨ent, -, rfl⟩ := mem_map.mp happlied
    exact ⟨rfl, rfl, nofun⟩

section Projections

variable {β : Type} {f : Call → Option β} {g : Message → Option β}

theorem filterMap_attempt (hf : ∀ c, c.toStorage = true → f c = none) {attempt : List Call}
    (hattempt : ∀ c ∈ attempt, c.toStorage = true) : attempt.filterMap f = [] :=
  filterMap_eq_nil_iff.mpr fun c hc => hf c (hattempt c hc)

theorem filterMap_call (c : Call) : [c].filterMap f = (f c).toList := by
  rw [filterMap_cons]
  cases f c <;> rfl

theorem filterMap_delivering (hg : ∀ msg c, Delivers id msg c → f c = g msg)
    {messages : List Message} {delivering : List Call}
    (h : Forall₂ (Delivers id) messages delivering) :
    delivering.filterMap f = messages.filterMap g := by
  induction h with
  | nil => rfl
  | @cons msg c messages delivering hc _ ih => rw [filterMap_cons, filterMap_cons, hg msg c hc, ih]

/-- What a batch contributes to a projection of the calls. -/
def Ready.projected (f : Call → Option β) (g : Message → Option β) (rd : Ready) : List β :=
  rd.messages.filterMap g ++ rd.committedEntries.filterMap (fun ent => f (.applied ent)) ++
    (f (.advanced rd)).toList

theorem Completing.filterMap_eq (hf : ∀ c, c.toStorage = true → f c = none)
    (hg : ∀ msg c, Delivers id msg c → f c = g msg) (h : Completing E id rd batch) :
    batch.filterMap f = rd.projected f g := by
  obtain ⟨delivering, hdelivering, rfl⟩ := h
  have hstoring : (storing E rd).filterMap f = [] :=
    filterMap_attempt hf fun c hc => toStorage_of_mem_storing hc
  rw [filterMap_append, filterMap_append, hstoring, nil_append, filterMap_append,
    filterMap_delivering hg hdelivering, filterMap_map, filterMap_call]
  rfl

theorem History.filterMap_eq (hf : ∀ c, c.toStorage = true → f c = none)
    (hg : ∀ msg c, Delivers id msg c → f c = g msg) {calls : List Call} {done : List Ready}
    {parked : Option Ready} (h : History E id calls done parked) : calls.filterMap f =
      done.flatMap (fun rd => (f (.pulled rd)).toList ++ rd.projected f g) ++
        parked.toList.flatMap fun rd => (f (.pulled rd)).toList := by
  induction h with
  | start => rfl
  | pull rd _ ih =>
    rw [filterMap_append, ih, filterMap_call]
    simp
  | fail hattempt _ ih => rw [filterMap_append, ih, filterMap_attempt hf hattempt, append_nil]
  | complete hbatch _ ih =>
    rw [filterMap_append, ih, hbatch.filterMap_eq hf hg]
    simp

end Projections

section History

variable {calls : List Call} {done : List Ready} {parked : Option Ready}

section

variable (h : History E id calls done parked)

include h

theorem History.advanced_eq : calls.filterMap Call.advancedReady = done := by
  rw [h.filterMap_eq (g := fun _ => none) (fun c hc => by cases c <;> trivial)
    (fun msg c hc => by cases hc <;> rfl)]
  simp [Ready.projected, Call.advancedReady]

theorem History.pulled_eq : calls.filterMap Call.pulledReady = done ++ parked.toList := by
  rw [h.filterMap_eq (g := fun _ => none) (fun c hc => by cases c <;> trivial)
    (fun msg c hc => by cases hc <;> rfl)]
  simp [Ready.projected, Call.pulledReady]

theorem History.delivered_eq :
    calls.filterMap Call.deliveredMessage = done.flatMap Ready.messages := by
  rw [h.filterMap_eq (fun c hc => by cases c <;> trivial) fun msg c hc => hc.message_eq]
  simp [Ready.projected, Call.deliveredMessage]

theorem History.applied_eq :
    calls.filterMap Call.appliedEntry = done.flatMap Ready.committedEntries := by
  rw [h.filterMap_eq (g := fun _ => none) (fun c hc => by cases c <;> trivial)
    (fun msg c hc => by cases hc <;> rfl)]
  simp [Ready.projected, Call.appliedEntry]

/-- A node steps what it has sent to itself. -/
theorem History.not_dropped {msg : Message} (hmem : .dropped msg ∈ calls) : msg.toID ≠ id := by
  induction h with
  | start => exact absurd hmem not_mem_nil
  | pull rd _ ih =>
    rcases mem_append.mp hmem with hmem | hmem
    · exact ih hmem
    · exact absurd (mem_singleton.mp hmem) (by simp)
  | fail hattempt _ ih =>
    rcases mem_append.mp hmem with hmem | hmem
    · exact ih hmem
    · exact absurd (hattempt _ hmem) (by simp [Call.toStorage])
  | complete hbatch _ ih =>
    rcases mem_append.mp hmem with hmem | hmem
    · exact ih hmem
    obtain ⟨init, rfl, hinit⟩ := hbatch.exists_init
    rcases mem_append.mp hmem with hmem | hlast
    · exact (hinit _ hmem).2.2 msg rfl
    · exact absurd (mem_singleton.mp hlast) (by simp)

end

theorem split_append {α : Type} {a b before after : List α} {x : α} (h : a ++ b = before ++ x :: after) :
    (∃ rest, a = before ++ x :: rest) ∨ ∃ mid, before = a ++ mid ∧ b = mid ++ x :: after := by
  obtain ⟨mid, hbefore, hb⟩ | ⟨mid, ha, hrest⟩ := append_eq_append_iff.mp h
  · exact .inr ⟨mid, hbefore, hb⟩
  cases mid with
  | nil => exact .inr ⟨[], by rw [ha, append_nil, append_nil], hrest.symm⟩
  | cons y mid =>
    obtain ⟨rfl, -⟩ := cons_eq_cons.mp hrest
    exact .inl ⟨mid, ha⟩

theorem split_singleton {α : Type} {mid after : List α} {x y : α} (h : [y] = mid ++ x :: after) :
    mid = [] ∧ y = x := by
  obtain ⟨rfl, hx⟩ | ⟨-, hx⟩ := append_eq_singleton_iff.mp h.symm
  · exact ⟨rfl, (cons_eq_cons.mp hx).1.symm⟩
  · exact absurd hx (cons_ne_nil x after)

theorem History.completing_of_advanced (h : History E id calls done parked)
    {before after : List Call} (hcalls : calls = before ++ .advanced rd :: after) :
    ∃ earlier batch, Completing E id rd batch ∧ before ++ [.advanced rd] = earlier ++ batch := by
  induction h generalizing after with
  | start => exact absurd hcalls (by simp)
  | pull rd' _ ih =>
    obtain ⟨rest, hrest⟩ | ⟨mid, -, hmid⟩ := split_append hcalls
    · exact ih hrest
    · have hmem : Call.advanced rd ∈ [Call.pulled rd'] := hmid ▸ mem_append_right mid mem_cons_self
      exact absurd (mem_singleton.mp hmem) (by simp)
  | fail hattempt _ ih =>
    obtain ⟨rest, hrest⟩ | ⟨mid, -, hmid⟩ := split_append hcalls
    · exact ih hrest
    · have hmem := hattempt (.advanced rd) (hmid ▸ mem_append_right mid mem_cons_self)
      exact absurd hmem (by simp [Call.toStorage])
  | @complete calls batch done rd' hbatch _ ih =>
    obtain ⟨rest, hrest⟩ | ⟨mid, hbefore, hmid⟩ := split_append hcalls
    · exact ih hrest
    -- the only call of this kind is the last one
    obtain ⟨init, rfl, hinit⟩ := hbatch.exists_init
    obtain ⟨rest, hrest⟩ | ⟨mid', hmid', hlast⟩ := split_append hmid
    · have hmem : Call.advanced rd ∈ init := hrest ▸ mem_append_right mid mem_cons_self
      exact absurd (hinit _ hmem).2.1 (Option.some_ne_none rd)
    obtain ⟨rfl, hrd⟩ := split_singleton hlast
    obtain rfl : rd' = rd := Call.advanced.inj hrd
    refine ⟨calls, _, hbatch, ?_⟩
    rw [hbefore, hmid', append_nil, append_assoc]

theorem History.pulled_eq_advanced (h : History E id calls done parked) {before after : List Call}
    (hcalls : calls = before ++ .pulled rd :: after) :
    before.filterMap Call.pulledReady = before.filterMap Call.advancedReady := by
  induction h generalizing after with
  | start => exact absurd hcalls (by simp)
  | @pull calls done rd' h ih =>
    obtain ⟨rest, hrest⟩ | ⟨mid, hbefore, hmid⟩ := split_append hcalls
    · exact ih hrest
    · obtain ⟨rfl, -⟩ := split_singleton hmid
      rw [hbefore, append_nil, h.pulled_eq, h.advanced_eq, Option.toList_none, append_nil]
  | fail hattempt _ ih =>
    obtain ⟨rest, hrest⟩ | ⟨mid, -, hmid⟩ := split_append hcalls
    · exact ih hrest
    · have hmem := hattempt (.pulled rd) (hmid ▸ mem_append_right mid mem_cons_self)
      exact absurd hmem (by simp [Call.toStorage])
  | @complete calls batch done rd' hbatch _ ih =>
    obtain ⟨rest, hrest⟩ | ⟨mid, -, hmid⟩ := split_append hcalls
    · exact ih hrest
    have hmem : Call.pulled rd ∈ batch := hmid ▸ mem_append_right mid mem_cons_self
    obtain ⟨init, rfl, hinit⟩ := hbatch.exists_init
    obtain hmem | hlast := mem_append.mp hmem
    · exact absurd (hinit _ hmem).1 (Option.some_ne_none rd)
    · exact absurd (mem_singleton.mp hlast) (by simp)

end History

end HelixCluster.MultiRaft
