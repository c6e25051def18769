import HelixCluster.Lib.GoString

/-!
# Unsigned integers in a positional base

`formatUint value base` is the text `strconv.FormatUint` returns: the digits of `value`, most
significant first, with `a` to `z` standing for ten and up.
-/

namespace HelixCluster

/-- The byte that stands for one digit: `0` to `9`, then `a` to `z`. -/
def digitByte (digit : Nat) : UInt8 := UInt8.ofNat (if digit < 10 then 48 + digit else 87 + digit)

def formatUint (value base : Nat) : Str :=
  if value = 0 then [48] else ((Nat.digits base value).map digitByte).reverse

theorem digitByte_inj {d e : Nat} (hd : d < 36) (he : e < 36)
    (h : digitByte d = digitByte e) : d = e := by
  have hnat := congrArg UInt8.toNat h
  simp only [digitByte, UInt8.toNat_ofNat'] at hnat
  split at hnat <;> split at hnat <;> omega

theorem digitByte_bounds {d : Nat} (hd : d < 36) :
    48 ≤ (digitByte d).toNat ∧ (digitByte d).toNat ≤ 122 := by
  simp only [digitByte, UInt8.toNat_ofNat']
  split <;> omega

theorem map_digitByte_inj {l k : List Nat} (hl : ∀ d ∈ l, d < 36) (hk : ∀ d ∈ k, d < 36)
    (h : l.map digitByte = k.map digitByte) : l = k := by
  induction l generalizing k with
  | nil => simpa using h.symm
  | cons d l ih =>
    cases k with
    | nil => simp at h
    | cons e k =>
      simp only [List.map_cons, List.cons.injEq] at h
      have hde := digitByte_inj (hl d (by simp)) (hk e (by simp)) h.1
      rw [hde, ih (fun x hx => hl x (by simp [hx])) (fun x hx => hk x (by simp [hx])) h.2]

variable {base value : Nat}

section

variable (hbase : 1 < base) (hle : base ≤ 36)

include hbase hle

theorem digits_lt_36 (value : Nat) : ∀ d ∈ Nat.digits base value, d < 36 :=
  fun _ hd => lt_of_lt_of_le (Nat.digits_lt_base hbase hd) hle

theorem formatUint_bytes {b : UInt8}
    (hb : b ∈ formatUint value base) : 48 ≤ b.toNat ∧ b.toNat ≤ 122 := by
  unfold formatUint at hb
  split at hb
  · obtain rfl : b = 48 := by simpa using hb
    decide
  rw [List.mem_reverse, List.mem_map] at hb
  obtain ⟨d, hd, rfl⟩ := hb
  exact digitByte_bounds (digits_lt_36 hbase hle value d hd)

theorem map_digits_ne_zero_text
    (hvalue : value ≠ 0) : ((Nat.digits base value).map digitByte).reverse ≠ [48] := by
  intro h
  have hrev : (Nat.digits base value).map digitByte = [0].map digitByte := by
    rw [← List.reverse_inj, h]
    decide
  have hdigits := map_digitByte_inj (digits_lt_36 hbase hle value) (by simp) hrev
  have hlast := Nat.getLast_digit_ne_zero base hvalue
  simp [hdigits] at hlast

theorem formatUint_inj {v w : Nat} (h : formatUint v base = formatUint w base) : v = w := by
  unfold formatUint at h
  split at h <;> split at h
  · omega
  · exact absurd h.symm (map_digits_ne_zero_text hbase hle ‹_›)
  · exact absurd h (map_digits_ne_zero_text hbase hle ‹_›)
  rw [List.reverse_inj] at h
  exact Nat.digits_inj_iff.mp
    (map_digitByte_inj (digits_lt_36 hbase hle v) (digits_lt_36 hbase hle w) h)

end

/-! ## Signed integers -/

/-- `strconv.FormatInt`, which `fmt` uses for `%d` of a signed integer in base ten. -/
def formatInt (value : Int) (base : Nat) : Str :=
  if value < 0 then 45 :: formatUint value.natAbs base else formatUint value.natAbs base

end HelixCluster
