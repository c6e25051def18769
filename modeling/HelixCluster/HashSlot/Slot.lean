import HelixCluster.Lib.GoString

/-!
# Hash slots of keys

`CRC16`, `HashTag` and `Slot` of `pkg/hashslot`. A key is mapped to one of 16384 slots by the CRC of
its hash tag.
-/

namespace HelixCluster.HashSlot

def slotCount : ℕ := 16384

/-- One round of the loop over the bits of a table entry. -/
def crcBit (crc : UInt16) : UInt16 :=
  if crc &&& 0x8000 ≠ 0 then (crc <<< 1) ^^^ 0x1021 else crc <<< 1

def crc16Table (i : UInt8) : UInt16 := crcBit^[8] (i.toUInt16 <<< 8)

def crc16 (data : Str) : UInt16 :=
  data.foldl (fun crc b => (crc <<< 8) ^^^ crc16Table ((crc >>> 8).toUInt8 ^^^ b)) 0

/-- `HashTag`. The bytes of the braces are 123 and 125. -/
def hashTag (key : Str) : Str :=
  match key.findIdx? (· = 123) with
  | none => key
  | some opening =>
    let rest := key.drop (opening + 1)
    match rest.findIdx? (· = 125) with
    | none => key
    | some 0 => key
    | some length => rest.take length

def slot (key : Str) : UInt16 := crc16 (hashTag key) % 16384

theorem slot_lt (key : Str) : (slot key).toNat < slotCount := by
  have hmod : (slot key).toNat = (crc16 (hashTag key)).toNat % 16384 := UInt16.toNat_mod _ _
  rw [hmod]
  exact Nat.mod_lt _ (by decide)

/-! ### The CRC bit by bit -/

/-- The remainder by x^16 + x^12 + x^5 + 1 after one more bit of the message: the register moves up,
and the polynomial comes off when the bit that leaves it differs from the bit of the message. -/
def crcStep (crc : UInt16) (bit : Bool) : UInt16 :=
  (crc <<< 1) ^^^ if crc.toBitVec.getLsbD 15 = bit then 0 else 0x1021

/-- The bits of a byte, the highest first. -/
def bitsOf (b : UInt8) : List Bool := [7, 6, 5, 4, 3, 2, 1, 0].map b.toNat.testBit

/-- The CRC from start 0, one bit of the message after the other. -/
def crcBitwise (data : Str) : UInt16 := (data.flatMap bitsOf).foldl crcStep 0

variable (crc : UInt16)

theorem top_eq : crc &&& 0x8000 = if crc.toBitVec.getLsbD 15 then 0x8000 else 0 := by
  refine UInt16.toBitVec_inj.mp (Eq.trans (BitVec.and_twoPow crc.toBitVec 15) ?_)
  split <;> rfl

theorem crcBit_eq :
    crcBit crc = (crc <<< 1) ^^^ if crc.toBitVec.getLsbD 15 then 0x1021 else 0 := by
  rw [crcBit, top_eq]
  cases crc.toBitVec.getLsbD 15 <;> simp

theorem crcStep_eq (bit : Bool) :
    crcStep crc bit = crcBit (crc ^^^ if bit then 0x8000 else 0) := by
  have htop : (0x8000 : UInt16) <<< 1 = 0 := rfl
  rw [crcStep, crcBit_eq, UInt16.shiftLeft_xor, UInt16.toBitVec_xor, BitVec.getLsbD_xor]
  cases bit <;> cases crc.toBitVec.getLsbD 15 <;> simp [htop]

theorem crcBit_xor (a b : UInt16) : crcBit (a ^^^ b) = crcBit a ^^^ crcBit b := by
  simp only [crcBit_eq, UInt16.shiftLeft_xor, UInt16.toBitVec_xor, BitVec.getLsbD_xor]
  cases a.toBitVec.getLsbD 15 <;> cases b.toBitVec.getLsbD 15
  all_goals simp only [bne_self_eq_false, Bool.false_bne, Bool.bne_false, if_true, if_false, UInt16.xor_zero,
    Bool.false_eq_true]
  · ac_rfl
  · ac_rfl
  · rw [UInt16.xor_comm (b <<< 1), ← UInt16.xor_assoc, UInt16.xor_assoc (a <<< 1), UInt16.xor_self,
      UInt16.xor_zero]

theorem iterate_crcBit_xor (n : ℕ) (a b : UInt16) : crcBit^[n] (a ^^^ b) = crcBit^[n] a ^^^ crcBit^[n] b := by
  induction n generalizing a b with
  | zero => rfl
  | succ n ih => rw [Function.iterate_succ_apply, crcBit_xor, ih]; rfl

theorem foldl_crcStep (bits : List Bool) :
    bits.foldl crcStep crc = crcBit^[bits.length] crc ^^^ bits.foldl crcStep 0 := by
  induction bits generalizing crc with
  | nil => exact UInt16.xor_zero.symm
  | cons bit bits ih =>
    have hfirst : crcStep crc bit = crcBit crc ^^^ crcStep 0 bit := by
      rw [crcStep_eq, crcBit_xor, crcStep_eq, UInt16.zero_xor]
    rw [List.foldl_cons, ih, List.foldl_cons, ih (crcStep 0 bit), hfirst, iterate_crcBit_xor, UInt16.xor_assoc]
    rfl

theorem iterate_crcBit_low (low : UInt8) : crcBit^[8] low.toUInt16 = low.toUInt16 <<< 8 := by
  revert low
  decide +kernel

theorem foldl_bitsOf (b : UInt8) : (bitsOf b).foldl crcStep 0 = crc16Table b := by
  revert b
  decide +kernel

theorem split_bytes :
    crc = ((crc >>> 8).toUInt8.toUInt16 <<< 8) ^^^ crc.toUInt8.toUInt16 ∧
      crc <<< 8 = crc.toUInt8.toUInt16 <<< 8 := by
  have hbyte : ∀ (a : UInt16) (i : ℕ), a.toUInt8.toUInt16.toBitVec.getLsbD i =
      (decide (i < 8) && a.toBitVec.getLsbD i) := by
    intro a i
    rw [UInt8.toBitVec_toUInt16, UInt16.toBitVec_toUInt8, BitVec.getLsbD_setWidth, BitVec.getLsbD_setWidth]
    by_cases h : i < 8
    · simp [h, show i < 16 by omega]
    · simp [h]
  have hshift : ∀ (a : UInt16) (i : ℕ), (a <<< 8).toBitVec.getLsbD i =
      (decide (i < 16) && !decide (i < 8) && a.toBitVec.getLsbD (i - 8)) :=
    fun a i => BitVec.getLsbD_shiftLeft a.toBitVec 8
  have hdown : ∀ i, (crc >>> 8).toBitVec.getLsbD i = crc.toBitVec.getLsbD (8 + i) :=
    fun _ => BitVec.getLsbD_ushiftRight ..
  constructor <;> refine UInt16.toBitVec_inj.mp (BitVec.eq_of_getLsbD_eq fun i hi => ?_)
  · rw [UInt16.toBitVec_xor, BitVec.getLsbD_xor, hshift, hbyte, hbyte, hdown]
    by_cases h : i < 8
    · simp [h]
    · simp [h, hi, show i - 8 < 8 by omega, show 8 + (i - 8) = i by omega]
  rw [hshift, hshift, hbyte]
  by_cases h : i < 8
  · simp [h]
  · simp [h, show i - 8 < 8 by omega]

theorem crc16_step (b : UInt8) :
    (crc <<< 8) ^^^ crc16Table ((crc >>> 8).toUInt8 ^^^ b) = (bitsOf b).foldl crcStep crc := by
  obtain ⟨hsplit, hlow⟩ := split_bytes crc
  have hcrc : crcBit^[8] crc = crc16Table (crc >>> 8).toUInt8 ^^^ crc <<< 8 := by
    rw [hlow, ← iterate_crcBit_low, crc16Table, ← iterate_crcBit_xor, ← hsplit]
  rw [foldl_crcStep, foldl_bitsOf, show (bitsOf b).length = 8 from rfl, hcrc, crc16Table, UInt8.toUInt16_xor,
    UInt16.shiftLeft_xor, iterate_crcBit_xor, ← crc16Table, ← crc16Table]
  ac_rfl

theorem crc16_eq_crcBitwise (data : Str) : crc16 data = crcBitwise data := by
  rw [crcBitwise, List.foldl_flatMap, crc16]
  simp only [crc16_step]

/-! ### Hash tags -/

theorem hashTag_of_notMem {key : Str} (h : 125 ∉ key) : hashTag key = key := by
  unfold hashTag
  split
  · rfl
  · next opening _ =>
    have hnone : (key.drop (opening + 1)).findIdx? (· = 125) = none := by
      refine List.findIdx?_eq_none_iff.mpr fun ch hch => decide_eq_false ?_
      rintro rfl
      exact h (List.mem_of_mem_drop hch)
    simp only [hnone]

theorem hashTag_cases (key : Str) : hashTag key = key ∨ 125 ∉ hashTag key := by
  unfold hashTag
  split
  · exact .inl rfl
  dsimp only
  split
  · exact .inl rfl
  · exact .inl rfl
  · next length hclosing =>
    obtain ⟨_, _, hbefore⟩ := List.findIdx?_eq_some_iff_getElem.mp hclosing
    refine .inr fun hmem => ?_
    obtain ⟨i, hi, hget⟩ := List.mem_take_iff_getElem.mp hmem
    exact hbefore i (by omega) (by simpa using hget)

theorem hashTag_hashTag (key : Str) : hashTag (hashTag key) = hashTag key := by
  rcases hashTag_cases key with h | h
  · rw [h, h]
  · exact hashTag_of_notMem h

theorem findIdx?_middle {x : UInt8} {left : Str} (h : x ∉ left) (right : Str) :
    (left ++ x :: right).findIdx? (· = x) = some left.length := by
  refine List.findIdx?_eq_some_iff_getElem.mpr ⟨by simp, by simp, fun j hj => ?_⟩
  rw [List.getElem_append_left hj]
  intro heq
  exact h (of_decide_eq_true heq ▸ List.getElem_mem hj)

theorem hashTag_braces {before body after : Str} (hbefore : 123 ∉ before) (hbody : 125 ∉ body)
    (hne : body ≠ []) : hashTag (before ++ 123 :: (body ++ 125 :: after)) = body := by
  have hrest : (before ++ 123 :: (body ++ 125 :: after)).drop (before.length + 1) = body ++ 125 :: after := by
    simp
  unfold hashTag
  rw [findIdx?_middle hbefore]
  simp only [hrest, findIdx?_middle hbody]
  cases body with
  | nil => contradiction
  | cons ch body => simp

/-- The table computes the bitwise CRC, and keys with one tag have one slot. -/
theorem crc_bitwise_and_tags_colocate (data key : Str) :
    crc16 data = crcBitwise data ∧ slot (hashTag key) = slot key ∧
      ∀ before before' body after after' : Str, 123 ∉ before → 123 ∉ before' → 125 ∉ body → body ≠ [] →
        slot (before ++ 123 :: (body ++ 125 :: after)) = slot (before' ++ 123 :: (body ++ 125 :: after')) := by
  refine ⟨crc16_eq_crcBitwise data, ?_, fun before before' body after after' hbefore hbefore' hbody hne => ?_⟩
  · rw [slot, hashTag_hashTag, slot]
  · rw [slot, slot, hashTag_braces hbefore hbody hne, hashTag_braces hbefore' hbody hne]

theorem tags_colocate_sample : slot [123, 97, 125, 98] = slot [99, 123, 97, 125] :=
  (crc_bitwise_and_tags_colocate [] []).2.2 [] [99] [97] [98] [] (by decide) (by decide) (by decide) (by decide)

/-- The check vector of the source. -/
example : crc16 [49, 50, 51, 52, 53, 54, 55, 56, 57] = 0x31C3 := by decide

end HelixCluster.HashSlot
