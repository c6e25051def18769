import HelixCluster.Lib.GoInt
import HelixCluster.Lib.GoString
import HelixCluster.Lib.Runs
import HelixCluster.Pair

/-!
# Leadership under a shared lease registry

The `Election` of `pkg/leader` and the `LeaseRegistry`. A time is the number of nanoseconds since
the zero time, and a duration is an `Int64`. A lease is nobody else's until it runs out
(`lease_exclusive`). Leadership outlasts it, and `at_most_one_leader_iff` says when that shows.
-/

namespace HelixCluster.Leader

open List

theorem toInt_mul_two {d : Int64} (h : 0 < d.toInt) :
    (d * 2).toInt = if d.toInt < 2 ^ 62 then 2 * d.toInt else 2 * d.toInt - 2 ^ 64 := by
  have hlt := d.toInt_lt
  have htwo : (2 : Int64).toInt = 2 := by decide
  rw [Int64.toInt_mul, htwo]
  split <;> rw [Int.bmod_def] <;> split <;> omega

/-- The errors of `NewElection` and `AcquireLease`. -/
inductive Error where
  | noLocalID
  | leaseHeld
  deriving DecidableEq

structure FencingToken where
  holderID : Str
  epoch : UInt64
  expiry : ℤ
  deriving DecidableEq

structure LeaseRegistry where
  holderID : Str
  epoch : UInt64
  expiry : ℤ
  hasHolder : Bool

def newLeaseRegistry : LeaseRegistry := ⟨[], 0, 0, false⟩

namespace LeaseRegistry

def acquire (r : LeaseRegistry) (holderID : Str) (now : ℤ) (ttl : Int64) :
    Except Error LeaseRegistry :=
  if (r.hasHolder ∧ now < r.expiry) ∧ r.holderID ≠ holderID then .error .leaseHeld
  else .ok ⟨holderID, r.epoch + 1, now + ttl.toInt, true⟩

def validFor (r : LeaseRegistry) (holderID : Str) (now : ℤ) : Bool :=
  r.hasHolder ∧ r.holderID = holderID ∧ now < r.expiry

end LeaseRegistry

structure Config where
  localID : Str
  ttl : Int64

structure Election where
  localID : Str
  isLeader : Bool
  leaderID : Str
  lastElected : ℤ
  ttl : Int64
  epoch : UInt64
  leaseExpiry : ℤ
  ttl_pos : 0 < ttl

/-- The `TTL` of a configuration, or five seconds. -/
def Config.ttlOrDefault (cfg : Config) : Int64 := if cfg.ttl ≤ 0 then 5000000000 else cfg.ttl

theorem Config.ttlOrDefault_pos (cfg : Config) : 0 < cfg.ttlOrDefault := by
  unfold ttlOrDefault
  split
  · decide
  · next h => exact Int64.not_le.mp h

def newElection (cfg : Config) : Except Error Election :=
  if cfg.localID = [] then .error .noLocalID
  else .ok ⟨cfg.localID, false, [], 0, cfg.ttlOrDefault, 0, 0, cfg.ttlOrDefault_pos⟩

namespace Election

/-- `IsLeader`. -/
def leads (e : Election) (now : ℤ) : Bool := e.isLeader ∧ timeSub now e.lastElected < e.ttl * 2

def resign (e : Election) : Election :=
  { e with isLeader := false, leaderID := if e.leaderID = e.localID then [] else e.leaderID }

/-- The election takes the lease of the given epoch and expiry. -/
def elected (e : Election) (now : ℤ) (epoch : UInt64) (expiry : ℤ) : Election :=
  { e with
    epoch, leaseExpiry := expiry, isLeader := true, leaderID := e.localID, lastElected := now }

/-- The token of an election that has just acquired its lease. -/
def token (e : Election) : FencingToken := ⟨e.localID, e.epoch, e.leaseExpiry⟩

/-- `AcquireLease`, with the registry if one is attached. -/
def acquireLease (e : Election) (registry : Option LeaseRegistry) (now : ℤ) :
    Except Error (Election × Option LeaseRegistry × FencingToken) :=
  match registry with
  | some r =>
    match r.acquire e.localID now e.ttl with
    | .error err => .error err
    | .ok r' =>
      let e' := e.elected now r'.epoch r'.expiry
      .ok (e', some r', e'.token)
  | none =>
    if e.leaseExpiry ≠ 0 ∧ now < e.leaseExpiry then .error .leaseHeld
    else
      let e' := e.elected now (e.epoch + 1) (now + e.ttl.toInt)
      .ok (e', none, e'.token)

def leaseValid (e : Election) (registry : Option LeaseRegistry) (now : ℤ) : Bool :=
  match registry with
  | some r => r.validFor e.localID now
  | none => e.leaseExpiry ≠ 0 ∧ now < e.leaseExpiry

/-- Elected, with a lease that has run out and a grace that has not. From `2 ^ 62` on `ttl*2` is
negative. -/
def Overdue (e : Election) (now : ℤ) : Prop :=
  e.isLeader ∧ e.lastElected + e.ttl.toInt ≤ now ∧ now < e.lastElected + 2 * e.ttl.toInt ∧
    e.ttl.toInt < 2 ^ 62

theorem ttl_toInt_pos (e : Election) : 0 < e.ttl.toInt := Int64.lt_iff_toInt_lt.mp e.ttl_pos

theorem leads_iff {e : Election} {now : ℤ} (hnow : e.lastElected ≤ now) : e.leads now ↔
      e.isLeader ∧ now < e.lastElected + 2 * e.ttl.toInt ∧ e.ttl.toInt < 2 ^ 62 := by
  have hpos := e.ttl_toInt_pos
  have hlt := e.ttl.toInt_lt
  simp only [leads, decide_eq_true_eq, Int64.lt_iff_toInt_lt, toInt_timeSub hnow,
    toInt_mul_two hpos]
  refine and_congr_right fun _ => ?_
  split <;> omega

theorem acquireLease_some (e : Election) (r : LeaseRegistry) (now : ℤ) :
    e.acquireLease (some r) now =
      if (r.hasHolder ∧ now < r.expiry) ∧ r.holderID ≠ e.localID then .error .leaseHeld else
        .ok (e.elected now (r.epoch + 1) (now + e.ttl.toInt),
          some ⟨e.localID, r.epoch + 1, now + e.ttl.toInt, true⟩,
          ⟨e.localID, r.epoch + 1, now + e.ttl.toInt⟩) := by
  unfold acquireLease LeaseRegistry.acquire
  dsimp only
  by_cases h : (r.hasHolder ∧ now < r.expiry) ∧ r.holderID ≠ e.localID
  · rw [if_pos h, if_pos h]
  · rw [if_neg h, if_neg h]
    rfl

end Election

/-! ## Elections that share a registry -/

/-- New elections with distinct IDs. -/
structure Fleet (ι : Type) where
  elections : ι → Election
  new : ∀ i, ∃ cfg, newElection cfg = .ok (elections i)
  distinct : Function.Injective fun i => (elections i).localID

theorem Fleet.not_isLeader {ι : Type} (fleet : Fleet ι) (i : ι) :
    (fleet.elections i).isLeader = false := by
  obtain ⟨cfg, hcfg⟩ := fleet.new i
  unfold newElection at hcfg
  split at hcfg
  · cases hcfg
  · rw [← Except.ok.inj hcfg]

/-- Elections with a shared registry and clock, and the epochs issued so far in order. -/
structure System (ι : Type) where
  elections : ι → Election
  registry : LeaseRegistry
  now : ℤ
  issued : List UInt64

inductive Event (ι : Type) where
  | acquireLease (i : ι)
  | resign (i : ι)
  | advance (d : ℕ)
  deriving DecidableEq

namespace System

variable {ι : Type}

/-- The elections of a fleet, before any call. -/
def start (fleet : Fleet ι) (now : ℤ) : System ι := ⟨fleet.elections, newLeaseRegistry, now, []⟩

/-- Election `i` reports `IsLeader`. -/
def Leads (s : System ι) (i : ι) : Prop := (s.elections i).leads s.now

/-- Election `i` reports `LeaseValid`. -/
def Valid (s : System ι) (i : ι) : Prop := (s.elections i).leaseValid (some s.registry) s.now

instance Leads.decidable (s : System ι) (i : ι) : Decidable (s.Leads i) :=
  inferInstanceAs (Decidable ((s.elections i).leads s.now = true))

instance Valid.decidable (s : System ι) (i : ι) : Decidable (s.Valid i) :=
  inferInstanceAs (Decidable ((s.elections i).leaseValid (some s.registry) s.now = true))

/-- At most one valid lease and one leader, who has it, and the epochs increase. -/
structure Safe (s : System ι) : Prop where
  valid_unique : ∀ i j, s.Valid i → s.Valid j → i = j
  leads_unique : ∀ i j, s.Leads i → s.Leads j → i = j
  valid_of_leads : ∀ i, s.Leads i → s.Valid i
  epochs : s.issued.Pairwise (· < ·)

/-- An election other than `i` holds a valid lease. -/
def HeldByOther (s : System ι) (i : ι) : Prop :=
  (s.registry.hasHolder ∧ s.now < s.registry.expiry) ∧ s.registry.holderID ≠ (s.elections i).localID

/-- The event brings no election between the ends of its lease and its leadership, and epochs do not
run out. -/
def Careful (s : System ι) : Event ι → Prop
  | .acquireLease i => s.HeldByOther i ∨ s.registry.epoch.toNat + 1 < 2 ^ 64
  | .resign _ => True
  | .advance d => ∀ i, ¬ (s.elections i).Overdue (s.now + d)

/-- The lease ends `ttl` after the election of its holder, who is the only elected one with a lease.
-/
structure Consistent (s : System ι) : Prop where
  distinct : Function.Injective fun i => (s.elections i).localID
  expiry : ∀ i, s.registry.hasHolder → s.registry.holderID = (s.elections i).localID →
    (s.elections i).lastElected ≤ s.now ∧
      s.registry.expiry = (s.elections i).lastElected + (s.elections i).ttl.toInt
  holder : ∀ i, (s.elections i).isLeader → (s.elections i).lastElected ≤ s.now ∧
      (s.registry.hasHolder ∧ s.registry.holderID = (s.elections i).localID ∨
        (s.elections i).lastElected + (s.elections i).ttl.toInt ≤ s.now)
  epoch : s.registry.epoch = s.issued.getLast?.getD 0

variable {s : System ι} {i : ι}

theorem valid_iff : s.Valid i ↔
    s.registry.hasHolder ∧ s.registry.holderID = (s.elections i).localID ∧
      s.now < s.registry.expiry := by
  simp [Valid, Election.leaseValid, LeaseRegistry.validFor]

/-! ### Consistent states -/

theorem consistent_start (fleet : Fleet ι) (now : ℤ) : (start fleet now).Consistent where
  distinct := fleet.distinct
  expiry _ hholder _ := absurd hholder Bool.false_ne_true
  holder i hleader := absurd ((fleet.not_isLeader i).symm.trans hleader) Bool.false_ne_true
  epoch := rfl

theorem lease_over_of_not_held (h : s.Consistent) (hfree : ¬ s.HeldByOther i) {j : ι} (hj : j ≠ i)
    (hleader : (s.elections j).isLeader) :
    (s.elections j).lastElected + (s.elections j).ttl.toInt ≤ s.now := by
  rcases (h.holder j hleader).2 with ⟨hholder, hid⟩ | hover
  · rw [← (h.expiry j hholder hid).2]
    by_contra hlt
    refine hfree ⟨⟨hholder, not_le.mp hlt⟩, fun hsame => hj (h.distinct ?_)⟩
    exact hid.symm.trans hsame
  · exact hover

theorem safe_iff (h : s.Consistent) :
    s.Safe ↔ (∀ i, ¬ (s.elections i).Overdue s.now) ∧ s.issued.Pairwise (· < ·) := by
  have hunique : ∀ i j, s.Valid i → s.Valid j → i = j := fun i j hi hj =>
    h.distinct ((valid_iff.mp hi).2.1.symm.trans (valid_iff.mp hj).2.1)
  constructor
  · intro hsafe
    refine ⟨?_, hsafe.epochs⟩
    rintro i ⟨hleader, hover, hgrace, hsmall⟩
    have hleads : s.Leads i :=
      (Election.leads_iff (h.holder i hleader).1).mpr ⟨hleader, hgrace, hsmall⟩
    obtain ⟨hholder, hid, hbefore⟩ := valid_iff.mp (hsafe.valid_of_leads i hleads)
    have hexpiry := (h.expiry i hholder hid).2
    omega
  rintro ⟨hnone, hepochs⟩
  have hvalid : ∀ i, s.Leads i → s.Valid i := by
    intro i hleads
    have hleader : (s.elections i).isLeader := (of_decide_eq_true hleads).1
    obtain ⟨hlast, hholder⟩ := h.holder i hleader
    obtain ⟨_, hgrace, hsmall⟩ := (Election.leads_iff hlast).mp hleads
    have hbefore : s.now < (s.elections i).lastElected + (s.elections i).ttl.toInt := by
      by_contra hover
      exact hnone i ⟨hleader, not_lt.mp hover, hgrace, hsmall⟩
    obtain ⟨hholder, hid⟩ := hholder.resolve_right (not_le.mpr hbefore)
    exact valid_iff.mpr ⟨hholder, hid, by rwa [(h.expiry i hholder hid).2]⟩
  exact ⟨hunique, fun i j hi hj => hunique i j (hvalid i hi) (hvalid j hj), hvalid, hepochs⟩

theorem safe_start (fleet : Fleet ι) (now : ℤ) : (start fleet now).Safe := by
  rw [safe_iff (consistent_start fleet now)]
  refine ⟨?_, List.Pairwise.nil⟩
  rintro i ⟨hleader, _⟩
  exact absurd ((fleet.not_isLeader i).symm.trans hleader) Bool.false_ne_true

theorem epochs_granted_iff (h : s.Consistent) (hepochs : s.issued.Pairwise (· < ·)) :
    (s.issued ++ [s.registry.epoch + 1]).Pairwise (· < ·) ↔
      s.registry.epoch.toNat + 1 < 2 ^ 64 := by
  have hlt := s.registry.epoch.toNat_lt
  have hsucc : (s.registry.epoch + 1).toNat = (s.registry.epoch.toNat + 1) % 2 ^ 64 :=
    UInt64.toNat_add ..
  have hepoch := h.epoch
  rcases s.issued.eq_nil_or_concat with hnil | ⟨before, last, hlast⟩
  · rw [hnil] at hepoch ⊢
    refine iff_of_true (pairwise_singleton ..) ?_
    rw [hepoch]
    decide
  rw [concat_eq_append] at hlast
  rw [hlast] at hepoch hepochs ⊢
  rw [List.getLast?_concat, Option.getD_some] at hepoch
  rw [pairwise_append] at hepochs ⊢
  have hbelow := hepochs.2.2
  constructor
  · rintro ⟨_, _, hnext⟩
    have hself := UInt64.lt_iff_toNat_lt.mp (hnext last (by simp) _ (mem_singleton_self _))
    rw [← hepoch, hsucc] at hself
    omega
  intro hbound
  refine ⟨pairwise_append.mpr hepochs, pairwise_singleton .., ?_⟩
  simp only [mem_singleton, forall_eq]
  intro e he
  have hle : e ≤ s.registry.epoch := by
    rw [hepoch]
    rcases mem_append.mp he with he | he
    · exact UInt64.le_of_lt (hbelow e he last (mem_singleton_self _))
    · exact UInt64.le_of_eq (mem_singleton.mp he)
  rw [UInt64.lt_iff_toNat_lt, hsucc, Nat.mod_eq_of_lt hbound]
  exact Nat.lt_succ_of_le (UInt64.le_iff_toNat_le.mp hle)

/-- Election `i` is the holder, and its lease does not end before `expiry`. -/
structure Holds (s : System ι) (i : ι) (expiry : ℤ) : Prop where
  consistent : s.Consistent
  hasHolder : s.registry.hasHolder
  holderID : s.registry.holderID = (s.elections i).localID
  expiry : expiry ≤ s.registry.expiry

theorem Holds.heldByOther {expiry : ℤ} (h : s.Holds i expiry) (hnow : s.now < expiry) {j : ι}
    (hj : j ≠ i) : s.HeldByOther j :=
  ⟨⟨h.hasHolder, hnow.trans_le h.expiry⟩,
    fun hsame => hj (h.consistent.distinct (hsame.symm.trans h.holderID))⟩

/-! ### Steps -/

variable [DecidableEq ι]

def step (s : System ι) : Event ι → System ι
  | .acquireLease i =>
    match (s.elections i).acquireLease (some s.registry) s.now with
    | .error _ => s
    | .ok (e, registry, token) =>
      { s with
        elections := Function.update s.elections i e
        registry := registry.getD s.registry
        issued := s.issued ++ [token.epoch] }
  | .resign i => { s with elections := Function.update s.elections i (s.elections i).resign }
  | .advance d => { s with now := s.now + d }

/-- The lease of `i` is granted. -/
def granted (s : System ι) (i : ι) : System ι :=
  let e := s.elections i
  { s with
    elections := Function.update s.elections i
      (e.elected s.now (s.registry.epoch + 1) (s.now + e.ttl.toInt))
    registry := ⟨e.localID, s.registry.epoch + 1, s.now + e.ttl.toInt, true⟩
    issued := s.issued ++ [s.registry.epoch + 1] }

theorem step_acquireLease_of_held (h : s.HeldByOther i) : s.step (.acquireLease i) = s := by
  unfold HeldByOther at h
  unfold step
  dsimp only
  rw [Election.acquireLease_some, if_pos h]

theorem step_acquireLease_of_not_held (h : ¬ s.HeldByOther i) :
    s.step (.acquireLease i) = s.granted i := by
  unfold HeldByOther at h
  unfold step
  dsimp only
  rw [Election.acquireLease_some, if_neg h]
  rfl

theorem localID_granted (j : ι) : ((s.granted i).elections j).localID = (s.elections j).localID := by
  by_cases hj : j = i
  · subst hj
    simp [granted, Election.elected]
  · simp [granted, hj]

theorem elections_granted_self :
    (s.granted i).elections i = (s.elections i).elected s.now (s.registry.epoch + 1)
        (s.now + (s.elections i).ttl.toInt) :=
  Function.update_self ..

theorem elections_granted_of_ne {j : ι} (h : j ≠ i) : (s.granted i).elections j = s.elections j :=
  Function.update_of_ne h ..

theorem consistent_granted (h : s.Consistent) (hfree : ¬ s.HeldByOther i) :
    (s.granted i).Consistent where
  distinct j k hjk := by
    simp only [localID_granted] at hjk
    exact h.distinct hjk
  expiry j _ hid := by
    rw [localID_granted] at hid
    obtain rfl := h.distinct hid
    rw [elections_granted_self]
    exact ⟨le_refl _, rfl⟩
  holder j hleader := by
    rcases eq_or_ne j i with rfl | hj
    · rw [elections_granted_self]
      exact ⟨le_refl _, .inl ⟨rfl, rfl⟩⟩
    · rw [elections_granted_of_ne hj] at hleader ⊢
      exact ⟨(h.holder j hleader).1, .inr (lease_over_of_not_held h hfree hj hleader)⟩
  epoch := by
    show s.registry.epoch + 1 = (s.issued ++ [s.registry.epoch + 1]).getLast?.getD 0
    simp

theorem elections_resign (j : ι) :
    ((s.step (.resign i)).elections j).localID = (s.elections j).localID ∧
      ((s.step (.resign i)).elections j).lastElected = (s.elections j).lastElected ∧
      ((s.step (.resign i)).elections j).ttl = (s.elections j).ttl ∧
      (((s.step (.resign i)).elections j).isLeader → (s.elections j).isLeader) := by
  by_cases hj : j = i
  · subst hj
    simp [step, Election.resign]
  · simp [step, hj]

theorem consistent_resign (h : s.Consistent) : (s.step (.resign i)).Consistent where
  distinct j k hjk := by
    simp only [elections_resign] at hjk
    exact h.distinct hjk
  expiry j hholder hid := by
    obtain ⟨hsame, hlast, httl, _⟩ := elections_resign (s := s) (i := i) j
    rw [hlast, httl]
    exact h.expiry j hholder (hid.trans hsame)
  holder j hleader := by
    obtain ⟨hsame, hlast, httl, hleads⟩ := elections_resign (s := s) (i := i) j
    rw [hsame, hlast, httl]
    exact h.holder j (hleads hleader)
  epoch := h.epoch

theorem consistent_step (h : s.Consistent) (event : Event ι) : (s.step event).Consistent := by
  cases event with
  | acquireLease i =>
    by_cases hheld : s.HeldByOther i
    · rw [step_acquireLease_of_held hheld]
      exact h
    · rw [step_acquireLease_of_not_held hheld]
      exact consistent_granted h hheld
  | resign i => exact consistent_resign h
  | advance d =>
    have hlater : s.now ≤ s.now + d := by omega
    refine ⟨h.distinct, fun i hholder hid => ?_, fun i hleader => ?_, h.epoch⟩
    · exact (h.expiry i hholder hid).imp_left fun hlast => hlast.trans hlater
    obtain ⟨hlast, hholder⟩ := h.holder i hleader
    exact ⟨hlast.trans hlater, hholder.imp_right fun hover => hover.trans hlater⟩

theorem not_overdue_granted (hnone : ∀ j, ¬ (s.elections j).Overdue s.now) (j : ι) :
    ¬ ((s.granted i).elections j).Overdue (s.granted i).now := by
  by_cases hj : j = i
  · subst hj
    rw [elections_granted_self]
    rintro ⟨_, hover, _⟩
    have hpos := (s.elections j).ttl_toInt_pos
    change s.now + (s.elections j).ttl.toInt ≤ s.now at hover
    omega
  · rw [elections_granted_of_ne hj]
    exact hnone j

theorem safe_step_iff (h : s.Consistent) (hsafe : s.Safe) (event : Event ι) :
    (s.step event).Safe ↔ s.Careful event := by
  have hnext := safe_iff (consistent_step h event)
  obtain ⟨hnone, hepochs⟩ := (safe_iff h).mp hsafe
  cases event with
  | acquireLease i =>
    by_cases hheld : s.HeldByOther i
    · rw [step_acquireLease_of_held hheld]
      exact iff_of_true hsafe (.inl hheld)
    rw [step_acquireLease_of_not_held hheld] at hnext ⊢
    rw [hnext, and_iff_right (not_overdue_granted hnone)]
    exact (epochs_granted_iff h hepochs).trans (or_iff_right hheld).symm
  | resign i =>
    refine iff_of_true (hnext.mpr ⟨fun j => ?_, hepochs⟩) trivial
    obtain ⟨_, hlast, httl, hleads⟩ := elections_resign (s := s) (i := i) j
    rintro ⟨hleader, hover⟩
    rw [hlast, httl] at hover
    exact hnone j ⟨hleads hleader, hover⟩
  | advance d => exact hnext.trans (and_iff_left hepochs)

/-- The epochs issued are 1, 2, 3 and so on. -/
def Consecutive (s : System ι) : Prop := (0 :: s.issued).IsChain fun a b => b = a + 1

theorem consecutive_step (h : s.Consistent) (hchain : s.Consecutive) (event : Event ι) :
    (s.step event).Consecutive := by
  cases event with
  | acquireLease i =>
    by_cases hheld : s.HeldByOther i
    · rwa [step_acquireLease_of_held hheld]
    rw [step_acquireLease_of_not_held hheld]
    refine IsChain.append hchain (.singleton (s.registry.epoch + 1)) ?_
    rw [getLast?_cons, ← h.epoch]
    simp
  | resign i => exact hchain
  | advance d => exact hchain

theorem now_le_foldl (events : List (Event ι)) (s : System ι) :
    s.now ≤ (events.foldl step s).now := by
  induction events generalizing s with
  | nil => exact le_refl _
  | cons event events ih =>
    refine le_trans ?_ (ih (s.step event))
    cases event with
    | acquireLease i =>
      by_cases hheld : s.HeldByOther i
      · rw [step_acquireLease_of_held hheld]
      · rw [step_acquireLease_of_not_held hheld]
        exact le_refl _
    | resign i => exact le_refl _
    | advance d =>
      change s.now ≤ s.now + d
      omega

/-- Only the holder's own renewals get past the registry, and they move the end of the lease back. -/
theorem Holds.step {expiry : ℤ} (h : s.Holds i expiry) (hnow : s.now < expiry) (event : Event ι) :
    (s.step event).Holds i expiry ∧
      (s.step event).issued.length = s.issued.length + [event].count (.acquireLease i) := by
  have hnext := consistent_step h.consistent event
  cases event with
  | acquireLease j =>
    rcases eq_or_ne j i with rfl | hj
    · have hfree : ¬ s.HeldByOther j := fun hheld => hheld.2 h.holderID
      rw [step_acquireLease_of_not_held hfree] at hnext ⊢
      obtain ⟨hlast, hexpiry⟩ := h.consistent.expiry j h.hasHolder h.holderID
      have hlater : expiry ≤ s.now + (s.elections j).ttl.toInt := by
        have hbefore := h.expiry
        omega
      exact ⟨⟨hnext, rfl, (localID_granted j).symm, hlater⟩, by simp [granted]⟩
    · rw [step_acquireLease_of_held (h.heldByOther hnow hj)]
      exact ⟨h, by simp [hj]⟩
  | resign j =>
    exact ⟨⟨hnext, h.hasHolder, h.holderID.trans (elections_resign i).1.symm, h.expiry⟩, by simp [System.step]⟩
  | advance d => exact ⟨⟨hnext, h.hasHolder, h.holderID, h.expiry⟩, by simp [System.step]⟩

theorem Holds.foldl {expiry : ℤ} {events : List (Event ι)} (h : s.Holds i expiry)
    (hnow : (events.foldl System.step s).now < expiry) :
    (events.foldl System.step s).Holds i expiry ∧
      (events.foldl System.step s).issued.length =
        s.issued.length + events.count (.acquireLease i) := by
  induction events generalizing s with
  | nil => exact ⟨h, rfl⟩
  | cons event events ih =>
    have hbefore : s.now < expiry := (now_le_foldl (event :: events) s).trans_lt hnow
    obtain ⟨hstep, hissued⟩ := h.step hbefore event
    obtain ⟨hrun, hlength⟩ := ih hstep hnow
    have hcount : ([event] ++ events).count (.acquireLease i) = _ := count_append
    rw [singleton_append] at hcount
    rw [foldl_cons]
    exact ⟨hrun, by omega⟩

end System

/-- **A lease is exclusive**: from a state of a run where `i` has a valid lease until that runs out,
no other `AcquireLease` succeeds and only the renewals of `i` take an epoch. -/
theorem lease_exclusive {ι : Type} [DecidableEq ι] (fleet : Fleet ι) (now : ℤ)
    (before events : List (Event ι)) {i : ι} :
    let s := before.foldl System.step (.start fleet now)
    let s' := events.foldl System.step s
    s.Valid i → s'.now < s.registry.expiry →
      s'.Valid i ∧
        (∀ j ≠ i,
          (s'.elections j).acquireLease (some s'.registry) s'.now = .error .leaseHeld) ∧
        s'.issued.length = s.issued.length + events.count (.acquireLease i) ∧ s'.Consecutive := by
  intro s s' hvalid hnow
  have hinv : ∀ run : List (Event ι),
      (run.foldl System.step (.start fleet now)).Consistent ∧
        (run.foldl System.step (.start fleet now)).Consecutive := fun run =>
    forall_states (I := fun s : System ι => s.Consistent ∧ s.Consecutive)
      (fun _ event h => ⟨System.consistent_step h.1 event, System.consecutive_step h.1 h.2 event⟩)
      ⟨System.consistent_start fleet now, .singleton _⟩ run _ (foldl_mem_states _ _)
  obtain ⟨hholder, hid, _⟩ := System.valid_iff.mp hvalid
  have hstart : s.Holds i s.registry.expiry := ⟨(hinv before).1, hholder, hid, le_refl _⟩
  obtain ⟨hholds, hissued⟩ := hstart.foldl hnow
  refine ⟨System.valid_iff.mpr ⟨hholds.hasHolder, hholds.holderID, hnow.trans_le hholds.expiry⟩,
    fun j hj => ?_, hissued, ?_⟩
  · rw [Election.acquireLease_some]
    exact if_pos (hholds.heldByOther hnow hj)
  · have hall := (hinv (before ++ events)).2
    rwa [foldl_append] at hall

/-- **At most one leader**, if and only if no election is overdue at a stop of the clock, and the
epoch does not overflow. -/
theorem at_most_one_leader_iff {ι : Type} [DecidableEq ι] (fleet : Fleet ι) (now : ℤ)
    (events : List (Event ι)) : (∀ s ∈ states System.step (.start fleet now) events, s.Safe) ↔
      Along System.step System.Careful (.start fleet now) events :=
  forall_states_iff (I := System.Consistent) (P := System.Safe)
    (fun _ event h => System.consistent_step h event)
    (fun _ event h hsafe => System.safe_step_iff h hsafe event)
    (System.consistent_start fleet now) (System.safe_start fleet now) events

/-- Two new elections `a` and `b` with a `ttl` of five seconds. -/
def pair : Fleet Site where
  elections
    | .a => ⟨[97], false, [], 0, 5000000000, 0, 0, by decide⟩
    | .b => ⟨[98], false, [], 0, 5000000000, 0, 0, by decide⟩
  new
    | .a => ⟨⟨[97], 0⟩, rfl⟩
    | .b => ⟨⟨[98], 0⟩, rfl⟩
  distinct := by
    intro i j
    cases i <;> cases j <;> simp

/-- The lease that `a` has at time 0 is still its own at 4 s, after one attempt of `b` and one renewal. -/
theorem pair_lease_kept :
    let s := [Event.advance 1000000000, .acquireLease .b, .acquireLease .a, .advance 3000000000].foldl
      System.step ((System.start pair 0).step (.acquireLease .a))
    s.Valid .a ∧ (s.elections .b).acquireLease (some s.registry) s.now = .error .leaseHeld ∧
      s.issued.length = 2 := by
  have hkept := lease_exclusive pair 0 [.acquireLease .a]
    [.advance 1000000000, .acquireLease .b, .acquireLease .a, .advance 3000000000] (i := .a)
    (by decide) (by decide)
  exact ⟨hkept.1, hkept.2.1 .b (by decide), hkept.2.2.1⟩

/-- After five seconds the lease of `a` has run out, and `b` acquires it. Both lead. -/
theorem two_leaders_after_ttl :
    let s := (((System.start pair 0).step (.acquireLease .a)).step (.advance 5000000000)).step
      (.acquireLease .b)
    s.Leads .a ∧ s.Leads .b ∧ ¬ s.Valid .a ∧ s.Valid .b := by
  decide

end HelixCluster.Leader
