import Mathlib

/-!
# Numbers as bytes

The fixed-width integers of `encoding/binary`, in either byte order, and the high bit of a byte.
-/

namespace HelixCluster

open List

/-- The low bytes of a number, the lowest first. -/
def littleEndian : ℕ → ℕ → List UInt8
  | 0, _ => []
  | k + 1, v => UInt8.ofNat v :: littleEndian k (v / 256)

/-- The number that the bytes are, the lowest first. -/
def ofLittleEndian : List UInt8 → ℕ
  | [] => 0
  | b :: bs => b.toNat + 256 * ofLittleEndian bs

@[simp] theorem length_littleEndian (k v : ℕ) : (littleEndian k v).length = k := by
  induction k generalizing v with
  | zero => rfl
  | succ k ih => rw [littleEndian, length_cons, ih]

theorem ofLittleEndian_littleEndian {k v : ℕ} (h : v < 256 ^ k) : ofLittleEndian (littleEndian k v) = v := by
  induction k generalizing v with
  | zero =>
    rw [pow_zero, Nat.lt_one_iff] at h
    rw [h]
    rfl
  | succ k ih =>
    have hdiv : v / 256 < 256 ^ k := by
      rw [Nat.div_lt_iff_lt_mul (by decide)]
      rwa [pow_succ] at h
    rw [littleEndian, ofLittleEndian, ih hdiv, UInt8.toNat_ofNat']
    omega

theorem ofLittleEndian_lt (bs : List UInt8) : ofLittleEndian bs < 256 ^ bs.length := by
  induction bs with
  | nil => exact Nat.one_pos
  | cons b bs ih =>
    have hb := b.toNat_lt
    rw [ofLittleEndian, length_cons, pow_succ]
    omega

theorem littleEndian_ofLittleEndian (bs : List UInt8) : littleEndian bs.length (ofLittleEndian bs) = bs := by
  induction bs with
  | nil => rfl
  | cons b bs ih =>
    have hb := b.toNat_lt
    have hdiv : (b.toNat + 256 * ofLittleEndian bs) / 256 = ofLittleEndian bs := by omega
    have hbyte : UInt8.ofNat (b.toNat + 256 * ofLittleEndian bs) = b := by
      rw [← UInt8.toNat_inj, UInt8.toNat_ofNat']
      omega
    rw [length_cons, ofLittleEndian, littleEndian, hdiv, hbyte, ih]

/-- The low bytes of a number, the highest first. -/
def bigEndian (k v : ℕ) : List UInt8 := (littleEndian k v).reverse

/-- The number that the bytes are, the highest first. -/
def ofBigEndian (bs : List UInt8) : ℕ := ofLittleEndian bs.reverse

@[simp] theorem length_bigEndian (k v : ℕ) : (bigEndian k v).length = k := by
  rw [bigEndian, length_reverse, length_littleEndian]

theorem ofBigEndian_bigEndian {k v : ℕ} (h : v < 256 ^ k) : ofBigEndian (bigEndian k v) = v := by
  rw [ofBigEndian, bigEndian, reverse_reverse, ofLittleEndian_littleEndian h]

theorem ofBigEndian_lt (bs : List UInt8) : ofBigEndian bs < 256 ^ bs.length := by
  rw [ofBigEndian, ← length_reverse]
  exact ofLittleEndian_lt bs.reverse

theorem bigEndian_ofBigEndian (bs : List UInt8) : bigEndian bs.length (ofBigEndian bs) = bs := by
  rw [bigEndian, ofBigEndian, ← length_reverse, littleEndian_ofLittleEndian, reverse_reverse]

theorem ofLittleEndian_append (xs ys : List UInt8) :
    ofLittleEndian (xs ++ ys) = ofLittleEndian xs + 256 ^ xs.length * ofLittleEndian ys := by
  induction xs with
  | nil => simp [ofLittleEndian]
  | cons x xs ih =>
    rw [cons_append, ofLittleEndian, ih, ofLittleEndian, length_cons]
    ring

theorem ofBigEndian_append (xs ys : List UInt8) :
    ofBigEndian (xs ++ ys) = ofBigEndian xs * 256 ^ ys.length + ofBigEndian ys := by
  rw [ofBigEndian, reverse_append, ofLittleEndian_append, length_reverse, ofBigEndian, ofBigEndian]
  ring

theorem ofBigEndian_cons (b : UInt8) (bs : List UInt8) :
    ofBigEndian (b :: bs) = b.toNat * 256 ^ bs.length + ofBigEndian bs := by
  rw [← singleton_append, ofBigEndian_append]
  simp [ofBigEndian, ofLittleEndian]

theorem lt_iff_ofBigEndian_lt {xs ys : List UInt8} (h : xs.length = ys.length) :
    xs < ys ↔ ofBigEndian xs < ofBigEndian ys := by
  induction xs generalizing ys with
  | nil =>
    obtain rfl : ys = [] := eq_nil_of_length_eq_zero h.symm
    exact iff_of_false (not_lt_nil []) (lt_irrefl _)
  | cons x xs ih =>
    cases ys with
    | nil => exact absurd h (Nat.succ_ne_zero _)
    | cons y ys =>
      have hlength : xs.length = ys.length := Nat.succ.inj h
      have hxs := ofBigEndian_lt xs
      have hys := ofBigEndian_lt ys
      rw [hlength] at hxs
      rw [cons_lt_cons_iff, ih hlength, ofBigEndian_cons, ofBigEndian_cons, hlength, UInt8.lt_iff_toNat_lt,
        ← UInt8.toNat_inj]
      generalize 256 ^ ys.length = width at hxs hys
      constructor
      · rintro (hlt | ⟨heq, hlt⟩)
        · nlinarith
        · rw [heq]
          omega
      intro hlt
      by_contra hnot
      push Not at hnot
      obtain heq | hgt := hnot.1.eq_or_lt
      · rw [heq] at hlt
        exact absurd hlt (by have := hnot.2 heq.symm; omega)
      · nlinarith

/-! ### The high bit of a byte -/

theorem toNat_and_low (b : UInt8) : (b &&& 0x7f).toNat = b.toNat % 128 := by
  rw [UInt8.toNat_and]
  exact Nat.and_two_pow_sub_one_eq_mod b.toNat 7

theorem and_high_eq_zero_iff (b : UInt8) : b &&& 0x80 = 0 ↔ b.toNat < 128 := by
  revert b
  decide +kernel

theorem toNat_or_high (b : UInt8) : (b ||| 0x80).toNat = b.toNat % 128 + 128 := by
  revert b
  decide +kernel

end HelixCluster
