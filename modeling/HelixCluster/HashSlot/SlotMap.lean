import HelixCluster.HashSlot.Slot
import HelixCluster.Lib.GoMap
import HelixCluster.Lib.Runs

/-!
# Slot maps and redirections

The `SlotMap` of `pkg/hashslot`. A redirection points back at the node that issued it when a slot is
recorded as migrating to its own owner:
-/

namespace HelixCluster.HashSlot

/-- The errors of the package: those of `fmt.Errorf`, `ErrSlotOutOfRange` and `ErrUnassignedSlot`. -/
inductive SlotError where
  | message (text : String)
  | slotOutOfRange (slot : ℕ)
  | unassignedSlot (slot : UInt16)
  deriving DecidableEq

inductive RedirectKind where
  | noRedirect
  | moved
  | ask
  deriving DecidableEq

structure Redirect where
  kind : RedirectKind
  slot : UInt16
  node : Str
  deriving DecidableEq

/-- `SlotMap`. A slot without an owner has the empty string. -/
structure SlotMap where
  owners : Fin slotCount → Str
  migrating : GoMap (Fin slotCount) Str
  sourced : ∀ s target, migrating.lookup s = some target → owners s ≠ [] ∧ target ≠ []

def newSlotMap : SlotMap where
  owners _ := []
  migrating := ∅
  sourced _ _ h := nomatch h

namespace SlotMap

/-! ## The changes of a map -/

/-- Give the slots of a range to a node. -/
def own (m : SlotMap) (start stop : UInt16) (node : Str) (hnode : node ≠ []) : SlotMap where
  owners s := if start.toNat ≤ s.val ∧ s.val ≤ stop.toNat then node else m.owners s
  migrating := m.migrating
  sourced s target h := by
    obtain ⟨howner, htarget⟩ := m.sourced s target h
    refine ⟨?_, htarget⟩
    split
    · exact hnode
    · exact howner

/-- Delete the migration of a slot. -/
def forget (m : SlotMap) (slot : Fin slotCount) : SlotMap where
  owners := m.owners
  migrating := m.migrating.erase slot
  sourced s target h := by
    rw [GoMap.lookup_erase_if] at h
    split at h
    · cases h
    · exact m.sourced s target h

/-- Record a migration of an assigned slot. -/
def migrate (m : SlotMap) (slot : Fin slotCount) (target : Str) (howner : m.owners slot ≠ [])
    (htarget : target ≠ []) : SlotMap where
  owners := m.owners
  migrating := m.migrating.insert slot target
  sourced s other h := by
    rw [GoMap.lookup_insert_if] at h
    split_ifs at h with hs
    · cases h
      exact ⟨hs ▸ howner, htarget⟩
    · exact m.sourced s other h

/-! ## The operations -/

def assign (m : SlotMap) (start stop : UInt16) (node : Str) : Except SlotError SlotMap :=
  if hnode : node = [] then
    .error (.message "hashslot: cannot assign slots to an empty node id")
  else if ¬ start.toNat < slotCount then .error (.slotOutOfRange start.toNat)
  else if ¬ stop.toNat < slotCount then .error (.slotOutOfRange stop.toNat)
  else if start > stop then
    .error (.message ("hashslot: inverted range [" ++ toString start.toNat ++ "," ++
      toString stop.toNat ++ "]"))
  else .ok (m.own start stop node hnode)

def reassign (m : SlotMap) (slot : UInt16) (newNode : Str) : Except SlotError SlotMap :=
  if hnode : newNode = [] then
    .error (.message "hashslot: cannot reassign slot to an empty node id")
  else if hslot : slot.toNat < slotCount then
    .ok ((m.own slot slot newNode hnode).forget ⟨slot.toNat, hslot⟩)
  else .error (.slotOutOfRange slot.toNat)

def setMigrating (m : SlotMap) (slot : UInt16) (target : Str) : Except SlotError SlotMap :=
  if htarget : target = [] then
    .error (.message "hashslot: migration target node id cannot be empty")
  else if hslot : slot.toNat < slotCount then
    if howner : m.owners ⟨slot.toNat, hslot⟩ = [] then .error (.unassignedSlot slot)
    else .ok (m.migrate ⟨slot.toNat, hslot⟩ target howner htarget)
  else .error (.slotOutOfRange slot.toNat)

def clearMigrating (m : SlotMap) (slot : UInt16) : Except SlotError SlotMap :=
  if hslot : slot.toNat < slotCount then .ok (m.forget ⟨slot.toNat, hslot⟩)
  else .error (.slotOutOfRange slot.toNat)

def ownerOf (m : SlotMap) (slot : UInt16) : Option Str :=
  if hslot : slot.toNat < slotCount then
    let owner := m.owners ⟨slot.toNat, hslot⟩
    if owner ≠ [] then some owner else none
  else none

def migrationTarget (m : SlotMap) (slot : UInt16) : Option Str :=
  if hslot : slot.toNat < slotCount then m.migrating.lookup ⟨slot.toNat, hslot⟩ else none

/-- `Route`. The parameter `local` of the source is `node`. -/
def route (m : SlotMap) (node key : Str) (keyPresentLocally : Bool) :
    Except SlotError Redirect :=
  let index : Fin slotCount := ⟨(slot key).toNat, slot_lt key⟩
  let owner := m.owners index
  if owner = [] then .error (.unassignedSlot (slot key))
  else if owner ≠ node then .ok ⟨.moved, slot key, owner⟩
  else
    match m.migrating.lookup index, keyPresentLocally with
    | some target, false => .ok ⟨.ask, slot key, target⟩
    | _, _ => .ok ⟨.noRedirect, slot key, node⟩

/-- A call that changes a map. -/
inductive Call where
  | assign (start stop : UInt16) (node : Str)
  | reassign (slot : UInt16) (newNode : Str)
  | setMigrating (slot : UInt16) (target : Str)
  | clearMigrating (slot : UInt16)

def perform (m : SlotMap) : Call → Except SlotError SlotMap
  | .assign start stop node => m.assign start stop node
  | .reassign slot newNode => m.reassign slot newNode
  | .setMigrating slot target => m.setMigrating slot target
  | .clearMigrating slot => m.clearMigrating slot

/-- The map after a call. A call that fails changes nothing. -/
def step (m : SlotMap) (c : Call) : SlotMap :=
  match m.perform c with
  | .ok m' => m'
  | .error _ => m

/-! ## Redirections -/

/-- No redirection points back at its node, and a slot that is migrating has an owner, not the
target. -/
def Forward (m : SlotMap) : Prop :=
  (∀ node key keyPresentLocally r, m.route node key keyPresentLocally = .ok r →
    r.kind ≠ .noRedirect → r.node ≠ node) ∧
  ∀ slot target, m.migrationTarget slot = some target →
    ∃ owner, m.ownerOf slot = some owner ∧ owner ≠ target

/-- The call records no migration to the owner, and gives no slot to the target of a migration. -/
def KeepsForward (m : SlotMap) : Call → Prop
  | .assign start stop node => stop.toNat < slotCount →
      ∀ slot, start ≤ slot → slot ≤ stop → m.migrationTarget slot ≠ some node
  | .setMigrating slot target => m.ownerOf slot ≠ some target
  | .reassign _ _ => True
  | .clearMigrating _ => True

variable {m : SlotMap}

variable {slot : UInt16}

theorem ownerOf_eq_some {owner : Str} : m.ownerOf slot = some owner ↔
      ∃ h : slot.toNat < slotCount, m.owners ⟨slot.toNat, h⟩ = owner ∧ owner ≠ [] := by
  unfold ownerOf
  split_ifs with hslot
  · dsimp only
    split_ifs with howner
    · constructor
      · rintro ⟨⟩
        exact ⟨hslot, rfl, howner⟩
      · rintro ⟨_, rfl, _⟩
        rfl
    · constructor
      · rintro ⟨⟩
      · rintro ⟨_, rfl, hne⟩
        exact absurd hne howner
  · exact iff_of_false nofun fun ⟨h, _⟩ => hslot h

variable {target : Str}

theorem migrationTarget_eq_some : m.migrationTarget slot = some target ↔
      ∃ h : slot.toNat < slotCount, m.migrating.lookup ⟨slot.toNat, h⟩ = some target := by
  unfold migrationTarget
  split_ifs with hslot
  · exact ⟨fun h => ⟨hslot, h⟩, fun ⟨_, h⟩ => h⟩
  · exact iff_of_false nofun fun ⟨h, _⟩ => hslot h

theorem exists_slot (s : Fin slotCount) :
    ∃ (slot : UInt16) (h : slot.toNat < slotCount), s = ⟨slot.toNat, h⟩ := by
  have hval : (UInt16.ofNat s.val).toNat = s.val :=
    UInt16.toNat_ofNat_of_lt' (s.isLt.trans (by decide))
  exact ⟨UInt16.ofNat s.val, hval.symm ▸ s.isLt, Fin.ext hval.symm⟩

theorem forward_iff : m.Forward ↔ ∀ s, m.migrating.lookup s ≠ some (m.owners s) := by
  constructor
  · rintro ⟨_, hforward⟩ s hself
    obtain ⟨slot, hslot, rfl⟩ := exists_slot s
    obtain ⟨owner, howner, hne⟩ := hforward slot _ (migrationTarget_eq_some.mpr ⟨hslot, hself⟩)
    obtain ⟨_, heq, _⟩ := ownerOf_eq_some.mp howner
    exact hne heq.symm
  intro hforward
  refine ⟨fun node key keyPresentLocally r hroute hkind => ?_, fun slot target htarget => ?_⟩
  · unfold route at hroute
    dsimp only at hroute
    split at hroute
    · cases hroute
    split_ifs at hroute with hne
    · cases hroute
      exact hne
    · split at hroute
      · next target _ htarget =>
        cases hroute
        rintro rfl
        exact hforward _ (by rw [htarget, not_not.mp hne])
      · cases hroute
        exact absurd rfl hkind
  · obtain ⟨hslot, hlookup⟩ := migrationTarget_eq_some.mp htarget
    refine ⟨_, ownerOf_eq_some.mpr ⟨hslot, rfl, (m.sourced _ _ hlookup).1⟩, ?_⟩
    rintro rfl
    exact hforward _ hlookup

variable {node : Str}

theorem own_forward_iff (hm : m.Forward) (start stop : UInt16) (hnode : node ≠ []) :
    (m.own start stop node hnode).Forward ↔
      ∀ s : Fin slotCount, start.toNat ≤ s.val → s.val ≤ stop.toNat →
        m.migrating.lookup s ≠ some node := by
  rw [forward_iff] at hm ⊢
  refine forall_congr' fun s => ?_
  show m.migrating.lookup s ≠ some (if start.toNat ≤ s.val ∧ s.val ≤ stop.toNat then node
    else m.owners s) ↔ _
  split_ifs with hrange
  · exact ⟨fun h _ _ => h, fun h => h hrange.1 hrange.2⟩
  · exact iff_of_true (hm s) fun hle hge => absurd ⟨hle, hge⟩ hrange

theorem forget_forward (hm : m.Forward) (slot : Fin slotCount) : (m.forget slot).Forward := by
  rw [forward_iff] at hm ⊢
  intro s
  show (m.migrating.erase slot).lookup s ≠ some (m.owners s)
  rw [GoMap.lookup_erase_if]
  split
  · nofun
  · exact hm s

theorem own_forget_forward (hm : m.Forward) (hslot : slot.toNat < slotCount) (hnode : node ≠ []) :
    ((m.own slot slot node hnode).forget ⟨slot.toNat, hslot⟩).Forward := by
  rw [forward_iff] at hm ⊢
  intro s
  show (m.migrating.erase ⟨slot.toNat, hslot⟩).lookup s ≠
    some (if slot.toNat ≤ s.val ∧ s.val ≤ slot.toNat then node else m.owners s)
  rw [GoMap.lookup_erase_if]
  split
  · nofun
  · next hne =>
    rw [if_neg fun hrange => hne (Fin.ext (le_antisymm hrange.2 hrange.1))]
    exact hm s

theorem migrate_forward_iff (hm : m.Forward) {slot : Fin slotCount} (howner : m.owners slot ≠ [])
    (htarget : target ≠ []) :
    (m.migrate slot target howner htarget).Forward ↔ m.owners slot ≠ target := by
  rw [forward_iff] at hm ⊢
  have hlookup (s : Fin slotCount) : (m.migrate slot target howner htarget).migrating.lookup s =
      if s = slot then some target else m.migrating.lookup s :=
    GoMap.lookup_insert_if _ _ _ _
  show (∀ s, _ ≠ some (m.owners s)) ↔ _
  simp only [hlookup]
  constructor
  · intro h heq
    exact h slot (by rw [if_pos rfl, heq])
  intro hne s
  split_ifs with hs
  · rw [hs]
    exact fun heq => hne (Option.some.inj heq).symm
  · exact hm s

/-! ## One call -/

variable {m' : SlotMap}

theorem assign_eq_ok {start stop : UInt16} :
    m.assign start stop node = .ok m' ↔ ∃ hnode : node ≠ [], stop.toNat < slotCount ∧ start ≤ stop ∧
        m.own start stop node hnode = m' := by
  unfold assign
  split
  · next hnode => exact iff_of_false nofun fun ⟨h, _⟩ => h hnode
  · next hnode =>
    split
    · next hstart =>
      refine iff_of_false nofun fun ⟨_, hstop, hle, _⟩ => hstart ?_
      exact lt_of_le_of_lt (UInt16.le_iff_toNat_le.mp hle) hstop
    split
    · next hstop => exact iff_of_false nofun fun ⟨_, h, _⟩ => hstop h
    · next hstop =>
      split
      · next hlt => exact iff_of_false nofun fun ⟨_, _, hle, _⟩ => UInt16.not_lt.mpr hle hlt
      · next hlt =>
        refine ⟨fun h => ?_, fun ⟨_, _, _, h⟩ => congrArg _ h⟩
        exact ⟨hnode, not_not.mp hstop, UInt16.not_lt.mp hlt, Except.ok.inj h⟩

theorem reassign_eq_ok {newNode : Str} (h : m.reassign slot newNode = .ok m') :
    ∃ (hnode : newNode ≠ []) (hslot : slot.toNat < slotCount),
      (m.own slot slot newNode hnode).forget ⟨slot.toNat, hslot⟩ = m' := by
  unfold reassign at h
  split at h
  · cases h
  · next hnode =>
    split at h
    · next hslot => exact ⟨hnode, hslot, Except.ok.inj h⟩
    · cases h

theorem setMigrating_eq_ok :
    m.setMigrating slot target = .ok m' ↔ ∃ (htarget : target ≠ []) (hslot : slot.toNat < slotCount)
        (howner : m.owners ⟨slot.toNat, hslot⟩ ≠ []),
        m.migrate ⟨slot.toNat, hslot⟩ target howner htarget = m' := by
  unfold setMigrating
  split
  · next htarget => exact iff_of_false nofun fun ⟨h, _⟩ => h htarget
  · next htarget =>
    split
    · next hslot =>
      split
      · next howner => exact iff_of_false nofun fun ⟨_, _, h, _⟩ => h howner
      · next howner =>
        exact ⟨fun h => ⟨htarget, hslot, howner, Except.ok.inj h⟩,
          fun ⟨_, _, _, h⟩ => congrArg _ h⟩
    · next hslot => exact iff_of_false nofun fun ⟨_, h, _⟩ => hslot h

theorem clearMigrating_eq_ok (h : m.clearMigrating slot = .ok m') :
    ∃ hslot : slot.toNat < slotCount, m.forget ⟨slot.toNat, hslot⟩ = m' := by
  unfold clearMigrating at h
  split at h
  · next hslot => exact ⟨hslot, Except.ok.inj h⟩
  · cases h

theorem keepsForward_of_error {c : Call} {e : SlotError} (h : m.perform c = .error e) :
    m.KeepsForward c := by
  cases c with
  | assign start stop node =>
    intro hstop slot hle hge htarget
    obtain ⟨_, hlookup⟩ := migrationTarget_eq_some.mp htarget
    have hnode : node ≠ [] := (m.sourced _ _ hlookup).2
    have hok : m.perform (.assign start stop node) = .ok (m.own start stop node hnode) :=
      assign_eq_ok.mpr ⟨hnode, hstop, UInt16.le_trans hle hge, rfl⟩
    cases h.symm.trans hok
  | setMigrating slot target =>
    intro howner
    obtain ⟨hslot, heq, hne⟩ := ownerOf_eq_some.mp howner
    have hok : m.perform (.setMigrating slot target) =
        .ok (m.migrate ⟨slot.toNat, hslot⟩ target (heq.trans_ne hne) hne) :=
      setMigrating_eq_ok.mpr ⟨hne, hslot, heq.trans_ne hne, rfl⟩
    cases h.symm.trans hok
  | reassign slot newNode => trivial
  | clearMigrating slot => trivial

theorem forward_iff_of_ok (hm : m.Forward) {c : Call} (h : m.perform c = .ok m') :
    m'.Forward ↔ m.KeepsForward c := by
  cases c with
  | assign start stop node =>
    obtain ⟨hnode, hstop, _, rfl⟩ := assign_eq_ok.mp h
    rw [own_forward_iff hm]
    constructor
    · intro hkeep _ slot hle hge htarget
      obtain ⟨hslot, hlookup⟩ := migrationTarget_eq_some.mp htarget
      exact hkeep ⟨slot.toNat, hslot⟩ (UInt16.le_iff_toNat_le.mp hle)
        (UInt16.le_iff_toNat_le.mp hge) hlookup
    intro hkeep s hle hge hlookup
    obtain ⟨slot, hslot, rfl⟩ := exists_slot s
    exact hkeep hstop slot (UInt16.le_iff_toNat_le.mpr hle) (UInt16.le_iff_toNat_le.mpr hge)
      (migrationTarget_eq_some.mpr ⟨hslot, hlookup⟩)
  | setMigrating slot target =>
    obtain ⟨htarget, hslot, howner, rfl⟩ := setMigrating_eq_ok.mp h
    rw [migrate_forward_iff hm]
    show _ ↔ ¬ _
    rw [ownerOf_eq_some]
    exact not_congr ⟨fun heq => ⟨hslot, heq, htarget⟩, fun ⟨_, heq, _⟩ => heq⟩
  | reassign slot newNode =>
    obtain ⟨hnode, hslot, rfl⟩ := reassign_eq_ok h
    exact iff_of_true (own_forget_forward hm hslot hnode) trivial
  | clearMigrating slot =>
    obtain ⟨hslot, rfl⟩ := clearMigrating_eq_ok h
    exact iff_of_true (forget_forward hm _) trivial

theorem forward_step_iff (hm : m.Forward) (c : Call) : (m.step c).Forward ↔ m.KeepsForward c := by
  unfold step
  split
  · next m' h => exact forward_iff_of_ok hm h
  · next e h => exact iff_of_true hm (keepsForward_of_error h)

theorem forward_new : newSlotMap.Forward := forward_iff.mpr fun _ => nofun

end SlotMap

/-- **Redirections point forward** exactly if no slot migrates to its owner or is assigned to its
target. -/
theorem redirects_forward_iff (calls : List SlotMap.Call) :
    (∀ m ∈ states SlotMap.step newSlotMap calls, m.Forward) ↔
      Along SlotMap.step SlotMap.KeepsForward newSlotMap calls :=
  forall_states_iff (I := fun _ => True) (P := SlotMap.Forward) (fun _ _ _ => trivial)
    (fun _ c _ hm => SlotMap.forward_step_iff hm c) trivial SlotMap.forward_new calls

/-- `B` has the slot of `a` with its migration to `B` recorded, and redirects to itself. So does
`A`. -/
theorem stale_migration_asks_self :
    let assigned := newSlotMap.step (.assign 15495 15495 [65])
    let completed := (assigned.step (.setMigrating 15495 [66])).step (.assign 15495 15495 [66])
    completed.route [66] [97] false = .ok ⟨.ask, 15495, [66]⟩ ∧
      completed.ownerOf 15495 = some [66] ∧ completed.migrationTarget 15495 = some [66] ∧
      (assigned.step (.setMigrating 15495 [65])).route [65] [97] false =
        .ok ⟨.ask, 15495, [65]⟩ := by
  decide

end HelixCluster.HashSlot
