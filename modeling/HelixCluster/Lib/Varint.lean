import HelixCluster.Lib.Bytes

/-!
# Variable-length integers

Integers in groups of seven bits, the lowest first; the high bit of a byte says that more follow.
-/

namespace HelixCluster

/-! ### Zig-zag -/

/-- Folds a signed integer into an unsigned one. -/
def zigZag (n : Int64) : UInt64 := (n <<< 1).toUInt64 ^^^ (n >>> 63).toUInt64

/-- Unfolds it. -/
def unZigZag (u : UInt64) : Int64 := (u >>> 1).toInt64 ^^^ -(u &&& 1).toInt64

theorem toNat_and_one (x : BitVec 64) : (x &&& 1#64).toNat = x.toNat % 2 := by
  rw [BitVec.toNat_and, BitVec.toNat_ofNat, Nat.and_one_is_mod]

theorem unfold_of_msb_false {x : BitVec 64} (h : x.msb = false) :
    ((x <<< 1 ^^^ x.sshiftRight 63) >>> 1) ^^^ -((x <<< 1 ^^^ x.sshiftRight 63) &&& 1#64) = x := by
  have hx : 2 * x.toNat < 2 ^ 64 := BitVec.msb_eq_false_iff_two_mul_lt.mp h
  have hsign : x.sshiftRight 63 = 0#64 := by
    rw [BitVec.sshiftRight_eq_of_msb_false h]
    apply BitVec.eq_of_toNat_eq
    rw [BitVec.toNat_ushiftRight, Nat.shiftRight_eq_div_pow, BitVec.toNat_ofNat]
    omega
  have hdouble : (x <<< 1).toNat = 2 * x.toNat := by
    rw [BitVec.toNat_shiftLeft, Nat.shiftLeft_eq]
    omega
  have hlow : x <<< 1 &&& 1#64 = 0#64 := by
    apply BitVec.eq_of_toNat_eq
    rw [toNat_and_one, hdouble, BitVec.toNat_ofNat]
    omega
  rw [hsign, BitVec.xor_zero, hlow, BitVec.neg_zero, BitVec.xor_zero]
  apply BitVec.eq_of_toNat_eq
  rw [BitVec.toNat_ushiftRight, hdouble, Nat.shiftRight_eq_div_pow]
  omega

theorem unfold_of_msb_true {x : BitVec 64} (h : x.msb = true) :
    ((x <<< 1 ^^^ x.sshiftRight 63) >>> 1) ^^^ -((x <<< 1 ^^^ x.sshiftRight 63) &&& 1#64) = x := by
  have hx : 2 ^ 64 ≤ 2 * x.toNat := BitVec.msb_eq_true_iff_two_mul_ge.mp h
  have hlt := x.isLt
  have hsign : x.sshiftRight 63 = BitVec.allOnes 64 := by
    rw [BitVec.sshiftRight_eq_of_msb_true h]
    apply BitVec.eq_of_toNat_eq
    rw [BitVec.toNat_not, BitVec.toNat_ushiftRight, BitVec.toNat_not, Nat.shiftRight_eq_div_pow,
      BitVec.toNat_allOnes]
    omega
  have hdouble : (x <<< 1).toNat = 2 * x.toNat - 2 ^ 64 := by
    rw [BitVec.toNat_shiftLeft, Nat.shiftLeft_eq]
    omega
  have hlow : ~~~(x <<< 1) &&& 1#64 = 1#64 := by
    apply BitVec.eq_of_toNat_eq
    rw [toNat_and_one, BitVec.toNat_not, hdouble, BitVec.toNat_ofNat]
    omega
  have hneg : -1#64 = BitVec.allOnes 64 := by decide
  rw [hsign, BitVec.xor_allOnes, hlow, hneg, BitVec.xor_allOnes]
  apply BitVec.eq_of_toNat_eq
  rw [BitVec.toNat_not, BitVec.toNat_ushiftRight, BitVec.toNat_not, hdouble, Nat.shiftRight_eq_div_pow]
  omega

theorem unZigZag_zigZag (n : Int64) : unZigZag (zigZag n) = n := by
  apply Int64.toBitVec_inj.mp
  have hbits : (unZigZag (zigZag n)).toBitVec =
      ((n.toBitVec <<< 1 ^^^ n.toBitVec.sshiftRight 63) >>> 1) ^^^
        -((n.toBitVec <<< 1 ^^^ n.toBitVec.sshiftRight 63) &&& 1#64) := by
    simp [unZigZag, zigZag]
  rw [hbits]
  cases hsign : n.toBitVec.msb with
  | false => exact unfold_of_msb_false hsign
  | true => exact unfold_of_msb_true hsign

/-! ### Groups of seven bits -/

/-- The bytes of a number, so many at most. -/
def writeUvarint : ℕ → UInt64 → List UInt8
  | 0, _ => []
  | turns + 1, u =>
    if u ≥ 0x80 then (u.toUInt8 ||| 0x80) :: writeUvarint turns (u >>> 7) else [u.toUInt8]

/-- Why a number cannot be read. -/
inductive VarintError where
  | overflow
  | truncated
  deriving DecidableEq

/-- Reads on from the byte with index `i`, after so many bits. -/
def readUvarint (u : UInt64) (shift i : ℕ) : List UInt8 → Except VarintError (UInt64 × ℕ)
  | [] => .error .truncated
  | b :: bs =>
    if shift ≥ 64 then .error .overflow
    else
      let u := u ||| (b &&& 0x7f).toUInt64 <<< UInt64.ofNat shift
      if b &&& 0x80 = 0 then .ok (u, i + 1) else readUvarint u (shift + 7) (i + 1) bs

theorem toNat_or_shiftLeft {u : UInt64} {b : UInt8} {shift : ℕ} (hu : u.toNat < 2 ^ shift)
    (hshift : shift < 64) (hfits : b.toNat % 128 * 2 ^ shift < 2 ^ 64) :
    (u ||| (b &&& 0x7f).toUInt64 <<< UInt64.ofNat shift).toNat =
      u.toNat + b.toNat % 128 * 2 ^ shift := by
  have hamount : (UInt64.ofNat shift).toNat % 64 = shift := by
    rw [UInt64.toNat_ofNat']
    omega
  rw [UInt64.toNat_or, UInt64.toNat_shiftLeft, UInt8.toNat_toUInt64, toNat_and_low, hamount,
    Nat.shiftLeft_eq, Nat.mod_eq_of_lt hfits, Nat.or_comm, Nat.mul_comm,
    ← Nat.two_pow_add_eq_or_of_lt hu, Nat.add_comm]

theorem toNat_shiftRight_seven (v : UInt64) : (v >>> 7).toNat = v.toNat / 128 := by
  rw [UInt64.toNat_shiftRight]
  exact Nat.shiftRight_eq_div_pow v.toNat 7

theorem ge_high_iff (v : UInt64) : v ≥ 0x80 ↔ 128 ≤ v.toNat := UInt64.le_iff_toNat_le

section read

variable {shift : ℕ} {u v : UInt64} (hu : u.toNat < 2 ^ shift) (hv : v.toNat * 2 ^ shift < 2 ^ 64)
  (hshift : shift < 64)
include hu hv hshift

theorem readUvarint_last (hlast : v.toNat < 128) (rest : List UInt8) (i : ℕ) :
    ∃ w, readUvarint u shift i (v.toUInt8 :: rest) = .ok (w, i + 1) ∧
      w.toNat = u.toNat + v.toNat * 2 ^ shift := by
  have hbyte : v.toUInt8.toNat = v.toNat := by
    rw [UInt64.toNat_toUInt8]
    omega
  have hbits : v.toUInt8.toNat % 128 = v.toNat := by omega
  refine ⟨_, ?_, (toNat_or_shiftLeft hu hshift (by rwa [hbits])).trans (by rw [hbits])⟩
  rw [readUvarint, if_neg (by omega), if_pos ((and_high_eq_zero_iff _).mpr (by omega))]

theorem readUvarint_more (rest : List UInt8) (i : ℕ) :
    ∃ w, readUvarint u shift i ((v.toUInt8 ||| 0x80) :: rest) = readUvarint w (shift + 7) (i + 1) rest ∧
      w.toNat = u.toNat + v.toNat % 128 * 2 ^ shift := by
  have hbyte : (v.toUInt8 ||| 0x80).toNat = v.toNat % 128 + 128 := by
    rw [toNat_or_high, UInt64.toNat_toUInt8]
    omega
  have hbits : (v.toUInt8 ||| 0x80).toNat % 128 = v.toNat % 128 := by omega
  have hfits : (v.toUInt8 ||| 0x80).toNat % 128 * 2 ^ shift < 2 ^ 64 := by
    rw [hbits]
    exact (Nat.mul_le_mul_right _ (Nat.mod_le _ _)).trans_lt hv
  refine ⟨_, ?_, (toNat_or_shiftLeft hu hshift hfits).trans (by rw [hbits])⟩
  rw [readUvarint, if_neg (by omega), if_neg (fun h => by
    have := (and_high_eq_zero_iff _).mp h
    omega)]

end read

theorem shiftRight_seven_bounds {shift : ℕ} {v : UInt64} (hv : v.toNat * 2 ^ shift < 2 ^ 64)
    (hmore : 128 ≤ v.toNat) : (v >>> 7).toNat * 2 ^ (shift + 7) < 2 ^ 64 ∧ shift + 7 < 64 := by
  have hlt : (v >>> 7).toNat * 2 ^ (shift + 7) < 2 ^ 64 := by
    rw [toNat_shiftRight_seven, Nat.pow_add, Nat.mul_comm (2 ^ shift), ← Nat.mul_assoc]
    exact (Nat.mul_le_mul_right _ (Nat.div_mul_le_self _ _)).trans_lt hv
  have hone : 2 ^ (shift + 7) ≤ (v >>> 7).toNat * 2 ^ (shift + 7) := by
    refine Nat.le_mul_of_pos_left _ ?_
    rw [toNat_shiftRight_seven]
    omega
  exact ⟨hlt, (Nat.pow_lt_pow_iff_right (by decide)).mp (hone.trans_lt hlt)⟩

theorem readUvarint_writeUvarint (turns shift : ℕ) (u v : UInt64) (rest : List UInt8) (i : ℕ)
    (hu : u.toNat < 2 ^ shift) (hv : v.toNat * 2 ^ shift < 2 ^ 64) (hshift : shift < 64)
    (hturns : v.toNat < 2 ^ (7 * (turns + 1))) :
    ∃ w, readUvarint u shift i (writeUvarint (turns + 1) v ++ rest) =
        .ok (w, i + (writeUvarint (turns + 1) v).length) ∧
      w.toNat = u.toNat + v.toNat * 2 ^ shift := by
  induction turns generalizing shift u v i with
  | zero =>
    have hlast : v.toNat < 128 := hturns
    rw [writeUvarint, if_neg (by rw [ge_high_iff]; omega)]
    exact readUvarint_last hu hv hshift hlast rest i
  | succ turns ih =>
    rw [writeUvarint]
    split_ifs with hmore
    · rw [ge_high_iff] at hmore
      obtain ⟨hv', hshift'⟩ := shiftRight_seven_bounds hv hmore
      obtain ⟨w, hread, hw⟩ :=
        readUvarint_more hu hv hshift (writeUvarint (turns + 1) (v >>> 7) ++ rest) i
      have hw' : w.toNat < 2 ^ (shift + 7) := by
        have hlow : v.toNat % 128 * 2 ^ shift ≤ 127 * 2 ^ shift := Nat.mul_le_mul_right _ (by omega)
        rw [hw, Nat.pow_add]
        omega
      have hturns' : (v >>> 7).toNat < 2 ^ (7 * (turns + 1)) := by
        rw [Nat.mul_succ, Nat.pow_add] at hturns
        rw [toNat_shiftRight_seven, Nat.div_lt_iff_lt_mul (by decide)]
        exact hturns
      obtain ⟨x, hx, hvalue⟩ := ih _ _ _ (i + 1) hw' hv' hshift' hturns'
      refine ⟨x, ?_, ?_⟩
      · rw [List.cons_append, hread, hx, List.length_cons, Nat.add_assoc, Nat.add_comm 1]
      rw [hvalue, hw, toNat_shiftRight_seven, Nat.pow_add, Nat.mul_comm (2 ^ shift), ← Nat.mul_assoc,
        Nat.add_assoc, ← Nat.add_mul]
      congr 2
      omega
    · rw [ge_high_iff] at hmore
      exact readUvarint_last hu hv hshift (by omega) rest i

/-! ### Signed numbers -/

/-- The bytes of a signed number. -/
def writeVarint (n : Int64) : List UInt8 := writeUvarint 10 (zigZag n)

/-- Reads a signed number, and says how many bytes it takes. -/
def readVarint (data : List UInt8) : Except VarintError (Int64 × ℕ) :=
  (readUvarint 0 0 0 data).map fun r => (unZigZag r.1, r.2)

theorem readVarint_writeVarint (n : Int64) (rest : List UInt8) :
    readVarint (writeVarint n ++ rest) = .ok (n, (writeVarint n).length) := by
  have hlt := (zigZag n).toNat_lt
  obtain ⟨w, hread, hw⟩ := readUvarint_writeUvarint 9 0 0 (zigZag n) rest 0
    (by decide) (by omega) (by decide) (by omega)
  have hsame : w = zigZag n := by
    apply UInt64.toNat_inj.mp
    rw [hw, pow_zero, Nat.mul_one, UInt64.toNat_zero, Nat.zero_add]
  rw [readVarint, writeVarint, hread, hsame, Nat.zero_add]
  show Except.ok (unZigZag (zigZag n), _) = _
  rw [unZigZag_zigZag]

variable {data : List UInt8}

theorem of_readUvarint_ok {u w : UInt64} {shift i j : ℕ}
    (h : readUvarint u shift i data = .ok (w, j)) : i < j ∧ j ≤ i + data.length := by
  induction data generalizing u shift i with
  | nil => cases h
  | cons b bs ih =>
    rw [readUvarint] at h
    split at h
    · cases h
    dsimp only at h
    rw [List.length_cons]
    split at h
    · cases h
      omega
    · have := ih h
      omega

theorem readUvarint_le_ten {u w : UInt64} {i j : ℕ} (h : readUvarint u (7 * i) i data = .ok (w, j)) :
    j ≤ 10 := by
  induction data generalizing u i with
  | nil => cases h
  | cons b bs ih =>
    rw [readUvarint] at h
    split at h
    · cases h
    dsimp only at h
    split at h
    · cases h
      omega
    · exact ih (i := i + 1) h

theorem of_readVarint_ok {n : Int64} {j : ℕ} (h : readVarint data = .ok (n, j)) :
    0 < j ∧ j ≤ data.length ∧ j ≤ 10 := by
  unfold readVarint at h
  cases hread : readUvarint 0 0 0 data with
  | error e =>
    rw [hread] at h
    cases h
  | ok r =>
    rw [hread] at h
    cases h
    obtain ⟨hpos, hlen⟩ := of_readUvarint_ok (w := r.1) (j := r.2) hread
    exact ⟨hpos, by simpa using hlen, readUvarint_le_ten (i := 0) (w := r.1) hread⟩

end HelixCluster
