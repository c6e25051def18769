import HelixCluster.Hlc.Clock
import HelixCluster.Lib.Bytes
import HelixCluster.Lib.GoString

/-!
# Timestamps on the wire

`Encode` and `Decode` of `pkg/hlc/package.go`.
-/

namespace HelixCluster.Hlc

namespace Timestamp

def encodedLen : ℕ := 12

def encode (t : Timestamp) : Str :=
  bigEndian 8 t.physical.toUInt64.toNat ++ bigEndian 4 t.logical.toNat

/-- `Decode`, without its error. -/
def decode (b : Str) : Option Timestamp :=
  if b.length ≠ encodedLen then none
  else some ⟨(UInt64.ofNat (ofBigEndian (b.take 8))).toInt64, UInt32.ofNat (ofBigEndian (b.drop 8))⟩

/-- `bytes.Compare`. -/
def bytesCompare (x y : Str) : Int := if x < y then -1 else if y < x then 1 else 0

theorem length_encode (t : Timestamp) : t.encode.length = encodedLen := by
  rw [encode, List.length_append, length_bigEndian, length_bigEndian]
  rfl

theorem toUInt64_lt (p : Int64) : p.toUInt64.toNat < 256 ^ 8 := p.toUInt64.toNat_lt

theorem logical_lt (l : UInt32) : l.toNat < 256 ^ 4 := l.toNat_lt

theorem toNat_toUInt64 (p : Int64) : (p.toUInt64.toNat : ℤ) = p.toInt + if p.toInt < 0 then 2 ^ 64 else 0 := by
  have hlt := p.toUInt64.toNat_lt
  have hcast : p.toInt = (p.toUInt64.toNat : ℤ).bmod (2 ^ 64) := by
    rw [← Int64.toInt_toBitVec, BitVec.toInt_eq_toNat_bmod]
    rfl
  rw [Int.bmod_def] at hcast
  split_ifs at hcast ⊢ <;> omega

theorem ofBigEndian_encode (t : Timestamp) :
    (ofBigEndian t.encode : ℤ) = t.rank + if t.physical.toInt < 0 then 2 ^ 96 else 0 := by
  rw [encode, ofBigEndian_append, length_bigEndian, ofBigEndian_bigEndian (toUInt64_lt _),
    ofBigEndian_bigEndian (logical_lt _), rank]
  push_cast
  rw [toNat_toUInt64]
  split_ifs <;> omega

theorem decode_encode (t : Timestamp) : decode t.encode = some t := by
  have hhigh : t.encode.take 8 = bigEndian 8 t.physical.toUInt64.toNat := List.take_left' (length_bigEndian 8 _)
  have hlow : t.encode.drop 8 = bigEndian 4 t.logical.toNat := List.drop_left' (length_bigEndian 8 _)
  rw [decode, if_neg (not_not.mpr t.length_encode), hhigh, hlow, ofBigEndian_bigEndian (toUInt64_lt _),
    ofBigEndian_bigEndian (logical_lt _), UInt64.ofNat_toNat, UInt32.ofNat_toNat]
  rfl

theorem encode_decode {b : Str} {t : Timestamp} (h : decode b = some t) : t.encode = b := by
  unfold decode at h
  split_ifs at h with hlength
  cases h
  have hhigh : (b.take 8).length = 8 := by rw [List.length_take, not_not.mp hlength]; rfl
  have hlow : (b.drop 8).length = 4 := by rw [List.length_drop, not_not.mp hlength]; rfl
  have hhighLt := ofBigEndian_lt (b.take 8)
  have hlowLt := ofBigEndian_lt (b.drop 8)
  rw [hhigh] at hhighLt
  rw [hlow] at hlowLt
  have hbytes := bigEndian_ofBigEndian (b.take 8)
  have hbytes' := bigEndian_ofBigEndian (b.drop 8)
  rw [hhigh] at hbytes
  rw [hlow] at hbytes'
  have hphysical : (UInt64.ofNat (ofBigEndian (b.take 8))).toInt64.toUInt64.toNat = ofBigEndian (b.take 8) :=
    UInt64.toNat_ofNat_of_lt hhighLt
  have hlogical : (UInt32.ofNat (ofBigEndian (b.drop 8))).toNat = ofBigEndian (b.drop 8) :=
    UInt32.toNat_ofNat_of_lt hlowLt
  rw [encode, hphysical, hlogical, hbytes, hbytes', List.take_append_drop]

theorem isSome_decode (b : Str) : (decode b).isSome = true ↔ b.length = encodedLen := by
  unfold decode
  split_ifs with h
  · exact iff_of_false Bool.false_ne_true h
  · exact iff_of_true rfl (not_not.mp h)

theorem bytesCompare_encode_iff (a b : Timestamp) :
    bytesCompare a.encode b.encode = a.compare b ↔ (a.physical.toInt < 0 ↔ b.physical.toInt < 0) := by
  have hlength : a.encode.length = b.encode.length := a.length_encode.trans b.length_encode.symm
  have hlogical := logical_lt a.logical
  have hlogical' := logical_lt b.logical
  have ha := ofBigEndian_encode a
  have hb := ofBigEndian_encode b
  have hbounds := And.intro a.physical.le_toInt a.physical.toInt_lt
  have hbounds' := And.intro b.physical.le_toInt b.physical.toInt_lt
  rw [bytesCompare, compare]
  simp only [lt_iff_ofBigEndian_lt hlength, lt_iff_ofBigEndian_lt hlength.symm, gt_iff_lt, Int64.lt_iff_toInt_lt,
    UInt32.lt_iff_toNat_lt]
  unfold rank at ha hb
  split_ifs at ha hb ⊢ <;> simp <;> omega

/-- The wire format is lossless, and keeps the order exactly of physical parts with one sign. -/
theorem wire_order_iff (a b : Timestamp) :
    (bytesCompare a.encode b.encode = a.compare b ∧ (∀ t : Timestamp, decode t.encode = some t) ∧
      (∀ s, (decode s).isSome = true ↔ s.length = encodedLen) ∧ ∀ s t, decode s = some t → t.encode = s) ↔
    (a.physical.toInt < 0 ↔ b.physical.toInt < 0) := by
  rw [and_iff_left ⟨decode_encode, isSome_decode, fun s t => encode_decode⟩]
  exact bytesCompare_encode_iff a b

/-- The bytes of a timestamp before 1970 are larger than those of a later one. -/
theorem wire_order_reversed :
    bytesCompare (encode ⟨-1, 0⟩) (encode ⟨0, 0⟩) = 1 ∧ compare ⟨-1, 0⟩ ⟨0, 0⟩ = -1 := by decide

end Timestamp

end HelixCluster.Hlc
