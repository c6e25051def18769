import HelixCluster.Lib.GoMap
import HelixCluster.Lib.VectorTime
import HelixCluster.Pair

/-!
# Vector clocks

The `VectorClock` of `pkg/crdt/vectorclock.go`, read as a vector of natural numbers (`slots`).
-/

namespace HelixCluster.Crdt

open AList MessagePassing

inductive CausalityRelation where
  | before
  | after
  | equal
  | concurrent
  deriving DecidableEq

abbrev VectorClock := GoMap Str UInt64

namespace VectorClock

def increment (vc : VectorClock) (id : Str) : VectorClock := vc.insert id (vc.read id 0 + 1)

/-- `Merge`. The first loop of the source copies `vc`. -/
def merge (vc other : VectorClock) : VectorClock := other.foldl (GoMap.raise 0) vc

/-- The loop of `Compare` over the entries of `vc`. The result `none` is the early exit. -/
def sweepOwn (other : VectorClock) :
    List (Σ _ : Str, UInt64) → Bool → Bool → Option (Bool × Bool)
  | [], vcLess, vcGreater => some (vcLess, vcGreater)
  | ⟨id, v⟩ :: rest, vcLess, vcGreater =>
    let w := other.read id 0
    let flags :=
      if v < w then (true, vcGreater)
      else if v > w then (vcLess, true)
      else (vcLess, vcGreater)
    if flags.1 && flags.2 then none else sweepOwn other rest flags.1 flags.2

/-- The loop of `Compare` over the entries of `other`, which skips the keys of `vc`. -/
def sweepAbsent (vc : VectorClock) :
    List (Σ _ : Str, UInt64) → Bool → Bool → Option (Bool × Bool)
  | [], vcLess, vcGreater => some (vcLess, vcGreater)
  | ⟨id, w⟩ :: rest, vcLess, vcGreater =>
    if (vc.lookup id).isSome then sweepAbsent vc rest vcLess vcGreater
    else
      let vcLess := if w > 0 then true else vcLess
      if vcLess && vcGreater then none else sweepAbsent vc rest vcLess vcGreater

def compare (vc other : VectorClock) : CausalityRelation :=
  match sweepOwn other vc.entries false false with
  | none => .concurrent
  | some (vcLess, vcGreater) =>
    match sweepAbsent vc other.entries vcLess vcGreater with
    | none => .concurrent
    | some (false, false) => .equal
    | some (true, false) => .before
    | some (false, true) => .after
    | some (true, true) => .concurrent

/-- The entries as natural numbers, zero where the clock has none. -/
def slots (vc : VectorClock) (id : Str) : ℕ := (vc.read id 0).toNat

/-! ## Increment and Merge -/

variable {vc : VectorClock} {id : Str}

theorem slots_increment (h : slots vc id + 1 < 2 ^ 64) :
    slots (vc.increment id) = Function.update (slots vc) id (slots vc id + 1) := by
  funext j
  unfold slots increment at *
  rw [GoMap.read_insert_if]
  split_ifs with hj
  · subst hj
    rw [Function.update_self, UInt64.toNat_add, UInt64.toNat_one, Nat.mod_eq_of_lt h]
  · rw [Function.update_of_ne hj]

theorem slots_merge (vc other : VectorClock) : slots (vc.merge other) = slots vc ⊔ slots other := by
  funext id
  exact GoMap.read_foldl_raise (f := UInt64.toNat) (fun _ _ => UInt64.lt_iff_toNat_lt) rfl ..

/-! ## Compare -/

/-- What a loop of `Compare` returns when its flags end up with these values. -/
def settled (vcLess vcGreater : Bool) : Option (Bool × Bool) :=
  if vcLess && vcGreater then none else some (vcLess, vcGreater)

theorem settled_or (vcLess vcGreater x y : Bool) : settled (vcLess || x) (vcGreater || y) =
      if vcLess && vcGreater then none else settled (vcLess || x) (vcGreater || y) := by
  split
  · next h => simp_all [settled]
  · rfl

theorem sweepOwn_eq (other : VectorClock) (entries : List (Σ _ : Str, UInt64))
    {vcLess vcGreater : Bool} (h : (vcLess && vcGreater) = false) :
    sweepOwn other entries vcLess vcGreater =
      settled (vcLess || entries.any fun e => e.2 < other.read e.1 0)
        (vcGreater || entries.any fun e => other.read e.1 0 < e.2) := by
  induction entries generalizing vcLess vcGreater with
  | nil => simp [sweepOwn, settled, h]
  | cons e rest ih =>
    obtain ⟨id, v⟩ := e
    have hflags : (if v < other.read id 0 then (true, vcGreater)
        else if v > other.read id 0 then (vcLess, true) else (vcLess, vcGreater)) =
        (vcLess || decide (v < other.read id 0), vcGreater || decide (other.read id 0 < v)) := by
      split
      · next hlt => simp [hlt, UInt64.lt_asymm hlt]
      · next hlt => split <;> simp_all
    rw [List.any_cons, List.any_cons, ← Bool.or_assoc, ← Bool.or_assoc, settled_or]
    simp only [sweepOwn, hflags]
    split
    · rfl
    · next hexit => exact ih (Bool.eq_false_iff.mpr hexit)

theorem sweepAbsent_eq (vc : VectorClock) (entries : List (Σ _ : Str, UInt64))
    {vcLess vcGreater : Bool} (h : (vcLess && vcGreater) = false) :
    sweepAbsent vc entries vcLess vcGreater =
      settled (vcLess || entries.any fun e => !(vc.lookup e.1).isSome && 0 < e.2) vcGreater := by
  induction entries generalizing vcLess with
  | nil => simp [sweepAbsent, settled, h]
  | cons e rest ih =>
    obtain ⟨id, w⟩ := e
    rw [sweepAbsent, List.any_cons, ← Bool.or_assoc]
    split
    · next hpresent => simp [hpresent, ih h]
    · next habsent =>
      have hflag : (if w > 0 then true else vcLess) =
          (vcLess || (!(vc.lookup id).isSome && decide (0 < w))) := by
        split <;> simp_all
      simp only [hflag]
      rw [← Bool.or_false vcGreater, settled_or, Bool.or_false]
      split
      · rfl
      · next hexit => exact ih (Bool.eq_false_iff.mpr hexit)

/-- Some entry of `vc` is below that of `other`, as the two loops find it. -/
def someLess (vc other : VectorClock) : Bool :=
  (vc.entries.any fun e => e.2 < other.read e.1 0) ||
    other.entries.any fun e => !(vc.lookup e.1).isSome && 0 < e.2

/-- Some entry of `vc` is above that of `other`, as the first loop finds it. -/
def someGreater (vc other : VectorClock) : Bool := vc.entries.any fun e => other.read e.1 0 < e.2

theorem compare_eq (vc other : VectorClock) :
    vc.compare other =
      match someLess vc other, someGreater vc other with
      | false, false => .equal
      | true, false => .before
      | false, true => .after
      | true, true => .concurrent := by
  unfold compare someLess someGreater
  rw [sweepOwn_eq _ _ rfl, Bool.false_or, Bool.false_or]
  generalize (vc.entries.any fun e => e.2 < other.read e.1 0) = vcLess
  generalize (vc.entries.any fun e => other.read e.1 0 < e.2) = vcGreater
  cases h : vcLess && vcGreater with
  | true =>
    obtain ⟨rfl, rfl⟩ := Bool.and_eq_true_iff.mp h
    rfl
  | false =>
    rw [show settled vcLess vcGreater = some (vcLess, vcGreater) by simp [settled, h]]
    dsimp only
    rw [sweepAbsent_eq vc other.entries h]
    generalize (vcLess || other.entries.any _) = vcLess
    cases vcLess <;> cases vcGreater <;> rfl

theorem slots_of_lookup {v : UInt64} (h : vc.lookup id = some v) : slots vc id = v.toNat := by
  simp [slots, GoMap.read, h]

theorem slots_of_absent (h : vc.lookup id = none) : slots vc id = 0 := by
  simp [slots, GoMap.read, h]

theorem someGreater_eq_false (vc other : VectorClock) :
    someGreater vc other = false ↔ slots vc ≤ slots other := by
  rw [← Bool.not_eq_true, not_iff_comm]
  simp only [someGreater, List.any_eq_true, decide_eq_true_eq, Pi.le_def, not_forall, not_le]
  constructor
  · intro h
    obtain ⟨id, hlt⟩ := h
    cases hlookup : vc.lookup id with
    | none =>
      rw [slots_of_absent hlookup] at hlt
      exact absurd hlt (Nat.not_lt_zero _)
    | some v =>
      rw [slots_of_lookup hlookup] at hlt
      exact ⟨⟨id, v⟩, mem_lookup_iff.mp hlookup, UInt64.lt_iff_toNat_lt.mpr hlt⟩
  intro h
  obtain ⟨⟨id, v⟩, hentry, hlt⟩ := h
  refine ⟨id, ?_⟩
  rw [slots_of_lookup (mem_lookup_iff.mpr hentry)]
  exact UInt64.lt_iff_toNat_lt.mp hlt

theorem someLess_eq_false (vc other : VectorClock) :
    someLess vc other = false ↔ slots other ≤ slots vc := by
  rw [← Bool.not_eq_true, not_iff_comm]
  simp only [someLess, Bool.or_eq_true, List.any_eq_true, decide_eq_true_eq, Bool.and_eq_true,
    Bool.not_eq_true', Option.isSome_eq_false_iff, Option.isNone_iff_eq_none, Pi.le_def,
    not_forall, not_le]
  constructor
  · intro h
    obtain ⟨id, hlt⟩ := h
    cases hlookup : vc.lookup id with
    | none =>
      rw [slots_of_absent hlookup] at hlt
      cases hother : other.lookup id with
      | none =>
        rw [slots_of_absent hother] at hlt
        exact absurd hlt (Nat.lt_irrefl _)
      | some w =>
        rw [slots_of_lookup hother] at hlt
        exact .inr ⟨⟨id, w⟩, mem_lookup_iff.mp hother, hlookup, UInt64.lt_iff_toNat_lt.mpr hlt⟩
    | some v =>
      rw [slots_of_lookup hlookup] at hlt
      exact .inl ⟨⟨id, v⟩, mem_lookup_iff.mp hlookup, UInt64.lt_iff_toNat_lt.mpr hlt⟩
  · intro h
    rcases h with ⟨⟨id, v⟩, hentry, hlt⟩ | ⟨⟨id, w⟩, hentry, habsent, hpos⟩
    · refine ⟨id, ?_⟩
      rw [slots_of_lookup (mem_lookup_iff.mpr hentry)]
      exact UInt64.lt_iff_toNat_lt.mp hlt
    refine ⟨id, ?_⟩
    rw [slots_of_absent habsent, slots_of_lookup (mem_lookup_iff.mpr hentry)]
    exact UInt64.lt_iff_toNat_lt.mp hpos

variable {other : VectorClock}

theorem compare_eq_before : vc.compare other = .before ↔ slots vc < slots other := by
  rw [lt_iff_le_not_ge, ← someGreater_eq_false, ← someLess_eq_false, compare_eq]
  cases someLess vc other <;> cases someGreater vc other <;> simp

theorem compare_eq_after : vc.compare other = .after ↔ slots other < slots vc := by
  rw [lt_iff_le_not_ge, ← someLess_eq_false vc other, ← someGreater_eq_false vc other, compare_eq]
  cases someLess vc other <;> cases someGreater vc other <;> simp

theorem compare_eq_equal : vc.compare other = .equal ↔ slots vc = slots other := by
  rw [le_antisymm_iff (b := slots other), ← someGreater_eq_false, ← someLess_eq_false, compare_eq]
  cases someLess vc other <;> cases someGreater vc other <;> simp

/-- `Merge` is commutative, associative and idempotent for `Compare`. -/
theorem merge_join (a b c : VectorClock) : (a.merge b).compare (b.merge a) = .equal ∧
      ((a.merge b).merge c).compare (a.merge (b.merge c)) = .equal ∧
      (a.merge a).compare a = .equal := by
  simp only [compare_eq_equal, slots_merge]
  exact ⟨sup_comm .., sup_assoc .., sup_idem _⟩

end VectorClock

/-! ## Runs -/

open VectorClock

variable {ι : Type} [DecidableEq ι] {node : ι → Str} {w : World ι VectorClock VectorClock}

/-- An event increments the entry of its process, after a receive has merged the clock of the
message. -/
def vectorClockObject (node : ι → Str) : ClockObject ι Unit VectorClock VectorClock where
  tick i _ vc := (vc.increment (node i), vc.increment (node i))
  absorb i _ vc message :=
    ((vc.merge message).increment (node i), (vc.merge message).increment (node i))

theorem vectorTime_of_reachable (hnode : Function.Injective node)
    (hw : Reachable (vectorClockObject node) (fun _ => ∅) w)
    (hcount : ∀ p, w.events.countP (·.process = p) < 2 ^ 64) :
    Reachable (VectorTime.object node) (fun _ _ => 0) (w.map slots slots) := by
  induction hw with
  | start => exact .start
  | @emit w i kind out hw hout ih =>
    have hold := ih fun p => lt_of_le_of_lt (by simp) (hcount p)
    have hbound := VectorTime.bounded_of_reachable hnode hold
    -- the new value of the entry of `i` is the number of its events
    have hown : slots (w.clock i) (node i) + 1 < 2 ^ 64 := by
      have hvalue : slots (w.clock i) (node i) = w.events.countP (·.process = i) :=
        (hbound.count i).trans List.countP_map
      rw [hvalue]
      simpa using hcount i
    have hreceived : ∀ s ∈ w.events, slots s.stamp (node i) ≤ slots (w.clock i) (node i) :=
      fun s hs => hbound.stamp_le i _ (List.mem_map_of_mem hs)
    rw [World.map_emit]
    refine hold.emit i (hout.map (fun _ => ?_) fun _ s hs => ?_)
    · simp [VectorTime.object, VectorTime.advance, vectorClockObject, slots_increment hown]
    have hmerged : slots ((w.clock i).merge s.stamp) (node i) + 1 < 2 ^ 64 := by
      rw [slots_merge, Pi.sup_apply, sup_of_le_left (hreceived s hs)]
      exact hown
    simp [VectorTime.object, VectorTime.advance, vectorClockObject, slots_increment hmerged,
      slots_merge]

/-- `Compare` tells which of two events happens before the other, if any. -/
theorem compare_characterises_causality (hnode : Function.Injective node)
    (hw : Reachable (vectorClockObject node) (fun _ => ∅) w)
    (hcount : ∀ p, w.events.countP (·.process = p) < 2 ^ 64)
    {e f : ℕ} {a b : Event ι VectorClock} (ha : w.events[e]? = some a)
    (hb : w.events[f]? = some b) (hne : e ≠ f) :
    (a.stamp.compare b.stamp = .before ↔ HappensBefore w.events e f) ∧
      (a.stamp.compare b.stamp = .after ↔ HappensBefore w.events f e) ∧
      (a.stamp.compare b.stamp = .concurrent ↔
        ¬ HappensBefore w.events e f ∧ ¬ HappensBefore w.events f e) := by
  have htime := vectorTime_of_reachable hnode hw hcount
  have ha' : (w.map slots slots).events[e]? = some (a.map slots) := by simp [World.map, ha]
  have hb' : (w.map slots slots).events[f]? = some (b.map slots) := by simp [World.map, hb]
  have hbefore : a.stamp.compare b.stamp = .before ↔ HappensBefore w.events e f := by
    rw [compare_eq_before, ← happensBefore_map slots]
    exact (VectorTime.happensBefore_iff hnode htime ha' hb').symm
  have hafter : a.stamp.compare b.stamp = .after ↔ HappensBefore w.events f e := by
    rw [compare_eq_after, ← happensBefore_map slots]
    exact (VectorTime.happensBefore_iff hnode htime hb' ha').symm
  have hequal : a.stamp.compare b.stamp ≠ .equal := fun h =>
    hne (VectorTime.stamp_injective hnode htime ha' hb' (compare_eq_equal.mp h))
  refine ⟨hbefore, hafter, ?_⟩
  rw [← hbefore, ← hafter]
  cases h : a.stamp.compare b.stamp with
  | equal => exact absurd h hequal
  | before | after | concurrent => simp

/-- Process `a` sends a message, and process `b` takes a step of its own. -/
def messageSent : World Site VectorClock VectorClock :=
  let start : World Site VectorClock VectorClock := .start fun _ => ∅
  let sent := start.emit .a .send ((vectorClockObject twoNames).tick .a () (start.clock .a))
  sent.emit .b .internal ((vectorClockObject twoNames).tick .b () (sent.clock .b))

/-- Then process `b` receives the message. -/
def messageReceived : World Site VectorClock VectorClock :=
  messageSent.emit .b (.receive 0)
    ((vectorClockObject twoNames).absorb .b () (messageSent.clock .b) (increment ∅ (twoNames .a)))

/-- The message was sent before it was received, and the step of the receiver is concurrent. -/
theorem messageReceived_causality : HappensBefore messageReceived.events 0 2 ∧
      ¬ HappensBefore messageReceived.events 0 1 ∧ ¬ HappensBefore messageReceived.events 1 0 := by
  have hw : Reachable (vectorClockObject twoNames) (fun _ => ∅) messageReceived :=
    .emit Site.b (.emit Site.b (.emit Site.a .start (.send ())) (.internal ()))
      (.receive () (s := ⟨.a, .send, increment ∅ (twoNames .a)⟩) rfl rfl)
  have hcount : ∀ p, messageReceived.events.countP (·.process = p) < 2 ^ 64 := by
    intro p
    cases p <;> decide
  have hreceived := compare_characterises_causality twoNames_injective hw hcount
    (e := 0) (f := 2) rfl rfl (by decide)
  have hstepped := compare_characterises_causality twoNames_injective hw hcount
    (e := 0) (f := 1) rfl rfl (by decide)
  exact ⟨hreceived.1.mp (by decide), hstepped.2.2.mp (by decide)⟩

end HelixCluster.Crdt
