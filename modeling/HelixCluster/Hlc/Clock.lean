import HelixCluster.Lib.GoInt

/-!
# The hybrid logical clock

The timestamps and the `Clock` of `pkg/hlc/package.go`, with the physical readings as arguments.
-/

namespace HelixCluster.Hlc

structure Timestamp where
  physical : Int64
  logical : UInt32
  deriving DecidableEq

namespace Timestamp

def compare (t other : Timestamp) : Int :=
  if t.physical < other.physical then -1
  else if t.physical > other.physical then 1
  else if t.logical < other.logical then -1
  else if t.logical > other.logical then 1
  else 0

def less (t other : Timestamp) : Bool := t.compare other < 0

/-- The position of a timestamp in the order of `Compare`. -/
def rank (t : Timestamp) : ℤ := t.physical.toInt * 2 ^ 32 + t.logical.toNat

theorem rank_mk (physical : Int64) (logical : UInt32) :
    rank ⟨physical, logical⟩ = physical.toInt * 2 ^ 32 + logical.toNat := rfl

/-- The largest timestamp. -/
def saturated : Timestamp := ⟨Int64.maxValue, 4294967295⟩

theorem less_iff (t other : Timestamp) : t.less other = true ↔ t.rank < other.rank := by
  have hlogical := UInt32.toNat_lt t.logical
  have hlogical' := UInt32.toNat_lt other.logical
  simp only [less, compare, rank, gt_iff_lt, Int64.lt_iff_toInt_lt, UInt32.lt_iff_toNat_lt,
    decide_eq_true_eq]
  split_ifs <;> omega

theorem rank_injective : Function.Injective rank := by
  intro t other h
  have hlogical := UInt32.toNat_lt t.logical
  have hlogical' := UInt32.toNat_lt other.logical
  have hphysical : t.physical.toInt = other.physical.toInt := by
    unfold rank at h
    omega
  have hvalue : t.logical.toNat = other.logical.toNat := by
    unfold rank at h
    omega
  obtain ⟨p, l⟩ := t
  obtain ⟨p', l'⟩ := other
  rw [Timestamp.mk.injEq]
  exact ⟨Int64.toInt_inj.mp hphysical, UInt32.toNat_inj.mp hvalue⟩

/-- `Less` is a total order. -/
instance : LinearOrder Timestamp where
  lt t other := t.less other = true
  le t other := other.less t = false
  le_refl t := by rw [← Bool.not_eq_true, less_iff]; omega
  le_trans t u v htu huv := by
    rw [← Bool.not_eq_true, less_iff] at *
    omega
  le_antisymm t u htu hut := by
    rw [← Bool.not_eq_true, less_iff] at *
    exact rank_injective (by omega)
  le_total t u := by
    simp only [← Bool.not_eq_true, less_iff]
    omega
  lt_iff_le_not_ge t u := by
    simp only [← Bool.not_eq_true, less_iff]
    omega
  toDecidableLE t other := inferInstanceAs (Decidable (other.less t = false))

theorem lt_iff_rank {t other : Timestamp} : t < other ↔ t.rank < other.rank := less_iff t other

theorem le_iff_rank {t other : Timestamp} : t ≤ other ↔ t.rank ≤ other.rank := by
  rw [← not_lt, lt_iff_rank, not_lt]

end Timestamp

/-- `DefaultMaxDrift`, in nanoseconds. -/
def defaultMaxDrift : Int64 := 500000000

structure Clock where
  maxDrift : Int64
  last : Timestamp

def new : Clock where
  maxDrift := defaultMaxDrift
  last := ⟨0, 0⟩

def newWithMaxDrift (maxDrift : Int64) : Clock where
  maxDrift := if maxDrift = 0 then defaultMaxDrift else maxDrift
  last := ⟨0, 0⟩

def bumpLogical (physical : Int64) (base : UInt32) : Timestamp :=
  if base = 4294967295 then
    if physical = Int64.maxValue then ⟨Int64.maxValue, 4294967295⟩
    else ⟨physical + 1, 0⟩
  else ⟨physical, base + 1⟩

namespace Clock

/-- `Now`, when the physical clock reads `phys`. -/
def now (c : Clock) (phys : Int64) : Clock × Timestamp :=
  let last :=
    if phys > c.last.physical then ⟨phys, 0⟩
    else bumpLogical c.last.physical c.last.logical
  ({ c with last }, last)

/-- The drift clamp of `Update`. -/
def remotePhys (c : Clock) (phys : Int64) (remote : Timestamp) : Int64 :=
  if c.maxDrift > 0 then
    let ceiling := phys + c.maxDrift
    if remote.physical > ceiling then ceiling else remote.physical
  else remote.physical

/-- `Update`, when the physical clock reads `phys`. -/
def update (c : Clock) (phys : Int64) (remote : Timestamp) : Clock × Timestamp :=
  let remotePhys := c.remotePhys phys remote
  let maxPhys := if c.last.physical > phys then c.last.physical else phys
  let maxPhys := if remotePhys > maxPhys then remotePhys else maxPhys
  let last :=
    if maxPhys = c.last.physical ∧ maxPhys = remotePhys then
      let base := c.last.logical
      let base := if remote.logical > base then remote.logical else base
      bumpLogical maxPhys base
    else if maxPhys = c.last.physical then bumpLogical maxPhys c.last.logical
    else if maxPhys = remotePhys then bumpLogical maxPhys remote.logical
    else ⟨maxPhys, 0⟩
  ({ c with last }, last)

end Clock

/-! ## What the operations return -/

theorem toInt_add_one {p : Int64} (h : p ≠ Int64.maxValue) : (p + 1).toInt = p.toInt + 1 := by
  have hlt := p.toInt_lt
  have hne : p.toInt ≠ 2 ^ 63 - 1 := fun heq => h (Int64.toInt_inj.mp (heq.trans rfl))
  exact toInt_add_one_of_lt (by omega)

theorem toNat_add_one {l : UInt32} (h : l ≠ 4294967295) : (l + 1).toNat = l.toNat + 1 := by
  have hlt := l.toNat_lt
  have hne : l.toNat ≠ 4294967295 := fun heq => h (UInt32.toNat_inj.mp heq)
  rw [UInt32.toNat_add, UInt32.toNat_one]
  omega

variable {physical : Int64} {base : UInt32}

theorem rank_bumpLogical (h : (⟨physical, base⟩ : Timestamp) ≠ .saturated) :
    (bumpLogical physical base).rank = Timestamp.rank ⟨physical, base⟩ + 1 := by
  unfold bumpLogical
  split
  · next hbase =>
    have hphysical : physical ≠ Int64.maxValue := fun heq => h (by rw [hbase, heq]; rfl)
    rw [if_neg hphysical, Timestamp.rank_mk, Timestamp.rank_mk, toInt_add_one hphysical, hbase,
      UInt32.toNat_zero, show (4294967295 : UInt32).toNat = 4294967295 from rfl]
    omega
  · next hbase =>
    rw [Timestamp.rank_mk, Timestamp.rank_mk, toNat_add_one hbase]
    omega

/-- The timestamp `u` is past `t`, unless it is the largest one. -/
structure Dominates (u t : Timestamp) : Prop where
  le : t ≤ u
  lt : u ≠ .saturated → t < u

theorem le_saturated (t : Timestamp) : t ≤ .saturated := by
  have hphysical := t.physical.toInt_lt
  have hlogical := t.logical.toNat_lt
  have hrank : Timestamp.saturated.rank = (2 ^ 63 - 1) * 2 ^ 32 + 4294967295 := rfl
  rw [Timestamp.le_iff_rank, hrank]
  unfold Timestamp.rank
  omega

variable {u t : Timestamp}

theorem dominates_of_lt (h : u ≠ .saturated → t < u) : Dominates u t where
  le := by
    by_cases hu : u = .saturated
    · rw [hu]
      exact le_saturated t
    · exact (h hu).le
  lt := h

theorem Dominates.lt_of_ne (h : Dominates u t) (ht : t ≠ .saturated) : t < u := by
  by_cases hu : u = .saturated
  · exact lt_of_le_of_ne h.le (hu ▸ ht)
  · exact h.lt hu

theorem bumpLogical_dominates (h : t ≤ ⟨physical, base⟩) :
    Dominates (bumpLogical physical base) t := by
  refine dominates_of_lt fun hne => ?_
  have hnext : (⟨physical, base⟩ : Timestamp) ≠ .saturated := by
    intro hsaturated
    obtain ⟨rfl, rfl⟩ := Timestamp.mk.inj hsaturated
    exact hne rfl
  rw [Timestamp.le_iff_rank] at h
  rw [Timestamp.lt_iff_rank, rank_bumpLogical hnext]
  omega

theorem bumpLogical_le (h : ⟨physical, base⟩ < t) : bumpLogical physical base ≤ t := by
  have hnext : (⟨physical, base⟩ : Timestamp) ≠ .saturated := (h.trans_le (le_saturated t)).ne
  rw [Timestamp.lt_iff_rank] at h
  rw [Timestamp.le_iff_rank, rank_bumpLogical hnext]
  omega

theorem lt_of_physical_lt (h : t.physical < u.physical) : t < u := by
  have hlogical := t.logical.toNat_lt
  rw [Timestamp.lt_iff_rank]
  rw [Int64.lt_iff_toInt_lt] at h
  unfold Timestamp.rank
  omega

theorem le_of_physical_eq (h : u.physical = t.physical) (hlogical : t.logical ≤ u.logical) :
    t ≤ u := by
  rw [UInt32.le_iff_toNat_le] at hlogical
  rw [Timestamp.le_iff_rank]
  unfold Timestamp.rank
  rw [h]
  omega

theorem le_larger (l l' : UInt32) :
    l ≤ (if l' > l then l' else l) ∧ l' ≤ (if l' > l then l' else l) := by
  simp only [gt_iff_lt, UInt32.lt_iff_toNat_lt, UInt32.le_iff_toNat_le]
  split_ifs <;> omega

namespace Clock

theorem now_spec (c : Clock) (phys : Int64) : Dominates (c.now phys).2 c.last := by
  unfold now
  dsimp only
  split
  · next h => exact dominates_of_lt fun _ => lt_of_physical_lt h
  · exact bumpLogical_dominates le_rfl

/-- The remote timestamp after the drift clamp. -/
def clamped (c : Clock) (phys : Int64) (remote : Timestamp) : Timestamp :=
  ⟨c.remotePhys phys remote, remote.logical⟩

theorem update_spec (c : Clock) (phys : Int64) (remote : Timestamp) :
    Dominates (c.update phys remote).2 c.last ∧ Dominates (c.update phys remote).2 (c.clamped phys remote) ∧
      ⟨phys, 0⟩ ≤ (c.update phys remote).2 ∧
      ((c.update phys remote).2 = ⟨phys, 0⟩ ∨ ∃ t, (t = c.last ∨ t = c.clamped phys remote) ∧
        (c.update phys remote).2 = bumpLogical t.physical t.logical) := by
  unfold update clamped
  dsimp only
  generalize c.remotePhys phys remote = remotePhys
  generalize hmax : (if remotePhys > (if c.last.physical > phys then c.last.physical else phys)
    then remotePhys else (if c.last.physical > phys then c.last.physical else phys)) = maxPhys
  have hmaximum : c.last.physical ≤ maxPhys ∧ remotePhys ≤ maxPhys ∧ phys ≤ maxPhys ∧
      (maxPhys ≠ c.last.physical → maxPhys ≠ remotePhys → maxPhys = phys) := by
    subst hmax
    simp only [gt_iff_lt, Int64.lt_iff_toInt_lt, Int64.le_iff_toInt_le]
    split_ifs <;> simp <;> omega
  obtain ⟨hlast, hremote, hphys, hfresh⟩ := hmaximum
  have hreading (base : UInt32) : (⟨phys, 0⟩ : Timestamp) ≤ ⟨maxPhys, base⟩ := by
    rw [Int64.le_iff_toInt_le] at hphys
    rw [Timestamp.le_iff_rank, Timestamp.rank_mk, Timestamp.rank_mk, UInt32.toNat_zero]
    omega
  have hbelow (t : Timestamp) (hle : t.physical ≤ maxPhys) (hne : maxPhys ≠ t.physical)
      (base : UInt32) : t < ⟨maxPhys, base⟩ :=
    lt_of_physical_lt (Int64.lt_of_le_of_ne hle hne.symm)
  -- the four cases of which inputs hold the largest physical part
  by_cases hl : maxPhys = c.last.physical <;> by_cases hr : maxPhys = remotePhys
  · rw [if_pos ⟨hl, hr⟩]
    have hbase : c.last.logical ≤ _ ∧ remote.logical ≤ _ := le_larger c.last.logical remote.logical
    refine ⟨bumpLogical_dominates (le_of_physical_eq hl hbase.1),
      bumpLogical_dominates (le_of_physical_eq hr hbase.2), (bumpLogical_dominates (hreading _)).le, .inr ?_⟩
    split_ifs
    · exact ⟨_, .inr rfl, by rw [hr]⟩
    · exact ⟨_, .inl rfl, by rw [hl]⟩
  · rw [if_neg (fun h => hr h.2), if_pos hl]
    exact ⟨bumpLogical_dominates (le_of_physical_eq hl (UInt32.le_refl _)),
      bumpLogical_dominates (hbelow ⟨remotePhys, remote.logical⟩ hremote hr _).le,
      (bumpLogical_dominates (hreading _)).le, .inr ⟨_, .inl rfl, by rw [hl]⟩⟩
  · rw [if_neg (fun h => hl h.1), if_neg hl, if_pos hr]
    exact ⟨bumpLogical_dominates (hbelow c.last hlast hl _).le,
      bumpLogical_dominates (le_of_physical_eq hr (UInt32.le_refl _)),
      (bumpLogical_dominates (hreading _)).le, .inr ⟨_, .inr rfl, by rw [hr]⟩⟩
  rw [if_neg (fun h => hl h.1), if_neg hl, if_neg hr]
  exact ⟨dominates_of_lt fun _ => hbelow c.last hlast hl _,
    dominates_of_lt fun _ => hbelow ⟨remotePhys, remote.logical⟩ hremote hr _, hreading 0,
    .inl (by rw [hfresh hl hr])⟩

/-- `Update` is past the previous timestamp. Where the drift bound is in range, it is past the remote
one exactly if that is within the bound, old, or behind the reading. -/
theorem update_dominates_iff {c : Clock} (hdrift : 0 < c.maxDrift) (hlast : c.last ≠ .saturated)
    (phys : Int64) {remote : Timestamp} (hremote : remote ≠ .saturated) :
    c.last < (c.update phys remote).2 ∧
      (phys.toInt + c.maxDrift.toInt < 2 ^ 63 →
        (remote < (c.update phys remote).2 ↔
          remote.physical.toInt ≤ phys.toInt + c.maxDrift.toInt ∨ remote ≤ c.last ∨
            remote.physical < phys)) := by
  obtain ⟨hpast, hclamped, hreading, hcases⟩ := c.update_spec phys remote
  have hafter : c.last < (c.update phys remote).2 := hpast.lt_of_ne hlast
  refine ⟨hafter, fun hrange => ?_⟩
  have hsum : (phys + c.maxDrift).toInt = phys.toInt + c.maxDrift.toInt := by
    have hle := phys.le_toInt
    have hpos : 0 < c.maxDrift.toInt := Int64.lt_iff_toInt_lt.mp hdrift
    exact toInt_add_of_bounds (by omega) hrange
  rw [← hsum, ← Int64.le_iff_toInt_le]
  by_cases hwithin : remote.physical ≤ phys + c.maxDrift
  · have hsame : c.clamped phys remote = remote := by
      rw [clamped, remotePhys, if_pos hdrift]
      dsimp only
      rw [if_neg (Int64.not_lt.mpr hwithin)]
    rw [hsame] at hclamped
    exact iff_of_true (hclamped.lt_of_ne hremote) (.inl hwithin)
  have hceiling := Int64.not_le.mp hwithin
  rw [or_iff_right hwithin]
  constructor
  · -- otherwise the result is at most the remote timestamp
    intro hlt
    by_contra hnot
    obtain ⟨hafterLast, hahead⟩ := not_or.mp hnot
    have hbelow : c.clamped phys remote < remote := by
      refine lt_of_physical_lt ?_
      rw [clamped, remotePhys, if_pos hdrift]
      dsimp only
      rwa [if_pos hceiling]
    refine absurd hlt (not_lt.mpr ?_)
    obtain heq | ⟨t, ht, heq⟩ := hcases
    · rw [heq, Timestamp.le_iff_rank, Timestamp.rank_mk, UInt32.toNat_zero]
      rw [Int64.lt_iff_toInt_lt] at hahead
      unfold Timestamp.rank
      omega
    rw [heq]
    refine bumpLogical_le ?_
    obtain rfl | rfl := ht
    · exact not_le.mp hafterLast
    · exact hbelow
  · rintro (hbefore | hbehind)
    · exact hbefore.trans_lt hafter
    · exact (lt_of_physical_lt hbehind).trans_le hreading

/-- A remote timestamp at the drift bound. -/
theorem update_dominates_at_bound :
    (⟨7, 0⟩ : Timestamp) < ((⟨5, ⟨7, 0⟩⟩ : Clock).update 10 ⟨15, 3⟩).2 ∧
      ⟨15, 3⟩ < ((⟨5, ⟨7, 0⟩⟩ : Clock).update 10 ⟨15, 3⟩).2 :=
  have hboth := update_dominates_iff (c := ⟨5, ⟨7, 0⟩⟩) (by decide) (by decide) 10
    (show (⟨15, 3⟩ : Timestamp) ≠ .saturated by decide)
  ⟨hboth.1, (hboth.2 (by decide)).mpr (.inl (by decide))⟩

/-- A remote timestamp one nanosecond past the drift bound. -/
theorem update_below_remote : ¬⟨16, 3⟩ < ((⟨5, ⟨7, 0⟩⟩ : Clock).update 10 ⟨16, 3⟩).2 := by decide

end Clock

end HelixCluster.Hlc
