import Mathlib

/-!
# Go strings

A Go `string` is an immutable sequence of bytes with no promise that the bytes are UTF-8.
-/

namespace HelixCluster

/-- Bytes are ordered by their numeric value. -/
instance byteLinearOrder : LinearOrder UInt8 where
  le_refl := UInt8.le_refl
  le_trans _ _ _ := UInt8.le_trans
  le_antisymm _ _ := UInt8.le_antisymm
  le_total := UInt8.le_total
  lt_iff_le_not_ge a b := by
    rw [UInt8.lt_iff_le_and_ne]
    grind
  toDecidableLE := inferInstance
  toDecidableLT := inferInstance
  toDecidableEq := inferInstance

/-- A Go `string`: its bytes in order. -/
abbrev Str := List UInt8

/-- The comparison of bytes that `∈` on a string runs decides equality. -/
instance byte_lawfulBEq : LawfulBEq UInt8 := inferInstance

/-- The comparison of strings that `∈` on a slice of strings runs decides equality. -/
instance goString_lawfulBEq : LawfulBEq Str := inferInstance

theorem append_separator_inj {α : Type} {separator : α} {left right rest tail : List α}
    (hleft : separator ∉ left) (hright : separator ∉ right)
    (h : left ++ separator :: rest = right ++ separator :: tail) : left = right ∧ rest = tail := by
  induction left generalizing right with
  | nil =>
    cases right with
    | nil => simpa using h
    | cons c right =>
      have hc : separator = c := (List.cons.inj h).1
      exact absurd (by simp [hc]) hright
  | cons b left ih =>
    cases right with
    | nil =>
      have hb : b = separator := (List.cons.inj h).1
      exact absurd (by simp [hb]) hleft
    | cons c right =>
      obtain ⟨hbc, htail⟩ := List.cons.inj h
      obtain ⟨hlr, hrest⟩ := ih (fun hm => hleft (by simp [hm]))
        (fun hm => hright (by simp [hm])) htail
      exact ⟨by rw [hbc, hlr], hrest⟩

end HelixCluster
