import HelixCluster.Lib.FormatUint

/-!
# The memo key of the linearizability search

The memo is keyed by the set of operations linearized so far, written as a bit mask: one word in
base 36 up to 64 operations, and beyond that word after word, each closed by a dot.
-/

namespace HelixCluster.Porcupine

/-- `if used[i] { word |= 1 << bit }`. -/
def withBit (word : BitVec 64) (used : Bool) (bit : Nat) : BitVec 64 :=
  if used then word ||| (1#64 <<< bit) else word

/-- The loop that builds the mask of at most 64 operations, from index `i` on. -/
def usedMask : List Bool → Nat → BitVec 64 → BitVec 64
  | [], _, mask => mask
  | used :: rest, i, mask => usedMask rest (i + 1) (withBit mask used i)

/-- The loop that writes the words, each at its last bit or at the last operation, with a dot. -/
def usedWords (n : Nat) : List Bool → Nat → BitVec 64 → Str
  | [], _, _ => []
  | used :: rest, i, word =>
    let bit := i % 64
    let word := withBit word used bit
    if bit = 63 ∨ i = n - 1 then
      formatUint word.toNat 36 ++ 46 :: usedWords n rest (i + 1) 0
    else usedWords n rest (i + 1) word

/-- The key under which the memo files the dead ends of a used-set. -/
def usedKey {n : Nat} (used : Fin n → Bool) : Str :=
  if n ≤ 64 then formatUint (usedMask (List.ofFn used) 0 0).toNat 36
  else usedWords n (List.ofFn used) 0 0

/-- No bit from `bit` on is set. -/
def ClearFrom (word : BitVec 64) (bit : Nat) : Prop := ∀ j, bit ≤ j → word.getLsbD j = false

theorem clear_from_zero (bit : Nat) : ClearFrom 0 bit := by
  intro j _
  simp

theorem getLsbD_withBit (word : BitVec 64) (used : Bool) {bit : Nat} (hbit : bit < 64) (j : Nat) :
    (withBit word used bit).getLsbD j = (word.getLsbD j || (used && decide (j = bit))) := by
  unfold withBit
  cases used with
  | false => simp
  | true =>
    simp only [if_true, BitVec.getLsbD_or, BitVec.getLsbD_shiftLeft, BitVec.getLsbD_one]
    grind

theorem ClearFrom.withBit {word : BitVec 64} {bit : Nat} (h : ClearFrom word bit)
    (hbit : bit < 64) (used : Bool) : ClearFrom (withBit word used bit) (bit + 1) := by
  intro j hj
  rw [getLsbD_withBit word used hbit, h j (by omega)]
  simp
  omega

theorem withBit_inj {word other : BitVec 64} {bit : Nat} {used otherUsed : Bool}
    (hbit : bit < 64) (hword : ClearFrom word bit) (hother : ClearFrom other bit)
    (h : withBit word used bit = withBit other otherUsed bit) :
    used = otherUsed ∧ word = other := by
  have hbits : ∀ j, (word.getLsbD j || (used && decide (j = bit))) =
      (other.getLsbD j || (otherUsed && decide (j = bit))) := by
    intro j
    rw [← getLsbD_withBit word used hbit, ← getLsbD_withBit other otherUsed hbit, h]
  have hused : used = otherUsed := by
    simpa [hword bit le_rfl, hother bit le_rfl] using hbits bit
  refine ⟨hused, BitVec.eq_of_getLsbD_eq fun j _ => ?_⟩
  by_cases hj : j = bit
  · rw [hword j hj.ge, hother j hj.ge]
  · simpa [hj] using hbits j

theorem usedMask_inj {bits others : List Bool} {i : Nat} {mask other : BitVec 64}
    (hlength : bits.length = others.length) (hfit : i + bits.length ≤ 64)
    (hmask : ClearFrom mask i) (hother : ClearFrom other i)
    (h : usedMask bits i mask = usedMask others i other) : bits = others ∧ mask = other := by
  induction bits generalizing others i mask other with
  | nil =>
    obtain rfl : others = [] := by simpa using hlength.symm
    exact ⟨rfl, h⟩
  | cons b bits ih =>
    cases others with
    | nil => simp at hlength
    | cons c others =>
      simp only [List.length_cons] at hlength hfit
      have hi : i < 64 := by omega
      obtain ⟨hrest, hwords⟩ := ih (by omega) (by omega) (hmask.withBit hi b)
        (hother.withBit hi c) h
      obtain ⟨hbc, hwords⟩ := withBit_inj hi hmask hother hwords
      exact ⟨by rw [hbc, hrest], hwords⟩

theorem dot_notMem_formatUint (value : Nat) : (46 : UInt8) ∉ formatUint value 36 := by
  intro h
  have hbounds := formatUint_bytes (by decide) (by decide) h
  have hdot : (46 : UInt8).toNat = 46 := by decide
  omega

theorem usedWords_inj {n : Nat} {bits others : List Bool} {i : Nat} {word other : BitVec 64}
    (hlength : bits.length = others.length) (hend : i + bits.length = n)
    (hword : ClearFrom word (i % 64)) (hother : ClearFrom other (i % 64))
    (h : usedWords n bits i word = usedWords n others i other) :
    bits = others ∧ (bits ≠ [] → word = other) := by
  induction bits generalizing others i word other with
  | nil =>
    obtain rfl : others = [] := by simpa using hlength.symm
    exact ⟨rfl, fun hne => absurd rfl hne⟩
  | cons b bits ih =>
    cases others with
    | nil => simp at hlength
    | cons c others =>
      simp only [List.length_cons] at hlength hend
      have hbit : i % 64 < 64 := Nat.mod_lt _ (by decide)
      simp only [usedWords] at h
      by_cases hflush : i % 64 = 63 ∨ i = n - 1
      · -- both loops write their word out here
        rw [if_pos hflush, if_pos hflush] at h
        obtain ⟨htext, htail⟩ := append_separator_inj (dot_notMem_formatUint _)
          (dot_notMem_formatUint _) h
        have hword' := BitVec.eq_of_toNat_eq (formatUint_inj (by decide) (by decide) htext)
        obtain ⟨hbc, hsame⟩ := withBit_inj hbit hword hother hword'
        obtain ⟨hrest, -⟩ := ih (by omega) (by omega) (clear_from_zero _)
          (clear_from_zero _) htail
        exact ⟨by rw [hbc, hrest], fun _ => hsame⟩
      -- neither does, and since `i` is not the last index there are bits left
      rw [if_neg hflush, if_neg hflush] at h
      have hnext : (i + 1) % 64 = i % 64 + 1 := by omega
      have hmore : bits ≠ [] := by
        intro hnil
        simp only [hnil, List.length_nil] at hend
        omega
      obtain ⟨hrest, hwords⟩ := ih (by omega) (by omega)
        (hnext ▸ hword.withBit hbit b) (hnext ▸ hother.withBit hbit c) h
      obtain ⟨hbc, hsame⟩ := withBit_inj hbit hword hother (hwords hmore)
      exact ⟨by rw [hbc, hrest], fun _ => hsame⟩

theorem usedKey_inj {n : Nat} {used other : Fin n → Bool} (h : usedKey used = usedKey other) :
    used = other := by
  apply List.ofFn_injective
  unfold usedKey at h
  split at h
  · have hmask := BitVec.eq_of_toNat_eq (formatUint_inj (by decide) (by decide) h)
    exact (usedMask_inj (by simp) (by simpa) (clear_from_zero _) (clear_from_zero _) hmask).1
  · exact (usedWords_inj (by simp) (by simp) (clear_from_zero _) (clear_from_zero _) h).1

end HelixCluster.Porcupine
