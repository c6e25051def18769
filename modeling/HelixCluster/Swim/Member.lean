import HelixCluster.Lib.GoString

/-!
# Members of a cluster

The `Member` of `pkg/swim/member.go` and its state changes. `UpdateState` orders what is said about
a member by incarnation and then by state (`Standing`).
-/

namespace HelixCluster.Swim

inductive MemberState where
  | alive
  | suspect
  | dead
  | left
  deriving DecidableEq

/-- The numeric value of a state. -/
def MemberState.value : MemberState → ℕ
  | alive => 0
  | suspect => 1
  | dead => 2
  | left => 3

theorem MemberState.value_injective : Function.Injective MemberState.value := by
  intro s t h
  cases s <;> cases t <;> first | rfl | cases h

instance memberStateOrder : LinearOrder MemberState :=
  LinearOrder.lift' MemberState.value MemberState.value_injective

theorem MemberState.lt_iff {s t : MemberState} : s < t ↔ s.value < t.value := Iff.rfl

theorem MemberState.le_left (s : MemberState) : s ≤ .left := by
  cases s <;> decide

structure Member where
  id : Str
  address : Str
  state : MemberState
  incarnation : UInt32
  deriving DecidableEq

/-- What is said about a member: its incarnation and its state. -/
structure Standing where
  incarnation : UInt32
  state : MemberState
  deriving DecidableEq

namespace Standing

/-- The incarnation decides, then the state. -/
def rank (s : Standing) : ℕ ×ₗ ℕ := toLex (s.incarnation.toNat, s.state.value)

theorem rank_injective : Function.Injective rank := by
  intro s t h
  obtain ⟨hincarnation, hstate⟩ := Prod.ext_iff.mp (toLex.injective h)
  obtain ⟨incarnation, state⟩ := s
  obtain ⟨incarnation', state'⟩ := t
  rw [Standing.mk.injEq]
  exact ⟨UInt32.toNat_inj.mp hincarnation, MemberState.value_injective hstate⟩

instance standingOrder : LinearOrder Standing := LinearOrder.lift' rank rank_injective

theorem lt_iff {s t : Standing} : s < t ↔ s.incarnation.toNat < t.incarnation.toNat ∨
      s.incarnation = t.incarnation ∧ s.state < t.state := by
  show s.rank < t.rank ↔ _
  rw [rank, rank, Prod.Lex.toLex_lt_toLex, UInt32.toNat_inj, MemberState.lt_iff]

theorem le_iff {s t : Standing} : s ≤ t ↔ s.incarnation.toNat < t.incarnation.toNat ∨
      s.incarnation = t.incarnation ∧ s.state ≤ t.state := by
  show s.rank ≤ t.rank ↔ _
  rw [rank, rank, Prod.Lex.toLex_le_toLex, UInt32.toNat_inj]
  rfl

theorem incarnation_le {s t : Standing} (h : s ≤ t) :
    s.incarnation.toNat ≤ t.incarnation.toNat := by
  rcases le_iff.mp h with hlt | ⟨heq, _⟩
  · exact hlt.le
  · rw [heq]

end Standing

namespace Member

/-- The present standing of a member. -/
def standing (m : Member) : Standing := ⟨m.incarnation, m.state⟩

def updateState (m : Member) (state : MemberState) (incarnation : UInt32) : Member × Bool :=
  if incarnation < m.incarnation then (m, false)
  else if incarnation = m.incarnation ∧ state < m.state then (m, false)
  else ({ m with state, incarnation }, true)

def clearSuspect (m : Member) : Member × Bool :=
  if m.state = .suspect then ({ m with state := .alive }, true) else (m, false)

def isHealthy (m : Member) : Bool := m.state = .alive

variable (m : Member) (state : MemberState) (incarnation : UInt32)

theorem updateState_eq : m.updateState state incarnation =
      if m.standing ≤ ⟨incarnation, state⟩ then ({ m with state, incarnation }, true)
      else (m, false) := by
  have hlt : (⟨incarnation, state⟩ : Standing) < m.standing ↔
      incarnation < m.incarnation ∨ incarnation = m.incarnation ∧ state < m.state := by
    rw [Standing.lt_iff, UInt32.lt_iff_toNat_lt]
    rfl
  unfold updateState
  by_cases h : m.standing ≤ ⟨incarnation, state⟩
  · obtain ⟨hincarnation, hstate⟩ := not_or.mp (mt hlt.mpr (not_lt.mpr h))
    rw [if_neg hincarnation, if_neg hstate, if_pos h]
  rcases hlt.mp (not_le.mp h) with hincarnation | hstate
  · rw [if_pos hincarnation, if_neg h]
  · rw [if_neg h, if_pos hstate, ite_self]

theorem updateState_accepts :
    (m.updateState state incarnation).2 = true ↔ m.standing ≤ ⟨incarnation, state⟩ := by
  rw [updateState_eq]
  split
  · next h => exact iff_of_true rfl h
  · next h => exact iff_of_false Bool.false_ne_true h

theorem standing_updateState :
    (m.updateState state incarnation).1.standing = max m.standing ⟨incarnation, state⟩ := by
  rw [updateState_eq]
  split_ifs with h
  · rw [max_eq_right h]; rfl
  · rw [max_eq_left (not_le.mp h).le]

@[simp] theorem updateState_id : (m.updateState state incarnation).1.id = m.id := by
  rw [updateState_eq]
  split <;> rfl

theorem updateState_of_reject (h : (m.updateState state incarnation).2 = false) :
    (m.updateState state incarnation).1 = m := by
  rw [updateState_eq] at *
  split at h
  · cases h
  · next hle => rw [if_neg hle]

@[simp] theorem clearSuspect_id : m.clearSuspect.1.id = m.id := by
  unfold clearSuspect
  split <;> rfl

@[simp] theorem clearSuspect_incarnation : m.clearSuspect.1.incarnation = m.incarnation := by
  unfold clearSuspect
  split <;> rfl

end Member

end HelixCluster.Swim
