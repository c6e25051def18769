import HelixCluster.Lib.Quote

/-!
# Text that goes through JSON

`json.Marshal` writes a string as UTF-8 and replaces every byte that does not start a valid encoding
by U+FFFD, the replacement character.
-/

namespace HelixCluster

/-- A rune as it is, and the replacement character for an invalid byte. -/
def Piece.coerced : Piece → Char
  | .rune c => c
  | .byte _ => Char.ofNat 0xFFFD

/-- The loop over the runes of a string, with at most `fuel` passes. -/
def coercedRunes : ℕ → Str → List Char
  | 0, _ => []
  | _ + 1, [] => []
  | fuel + 1, first :: rest =>
    let next := nextPiece first rest
    next.1.coerced :: coercedRunes fuel ((first :: rest).drop next.2)

/-- The string that a JSON decoder reads for an encoded string. -/
def validText (s : Str) : Str := (coercedRunes s.length s).flatMap String.utf8EncodeChar

theorem nextPiece_encode {c : Char} {first : UInt8} {bytes : Str}
    (hencode : String.utf8EncodeChar c = first :: bytes) (rest : Str) :
    nextPiece first (bytes ++ rest) = (.rune c, c.utf8Size) := by
  have hdecode := decode_encode c rest
  rw [hencode, List.cons_append] at hdecode
  unfold nextPiece
  split_ifs with hascii
  · have hsame : first.toNat = c.toNat := by
      rcases byte_of_encode (c := c) (b := first) (by simp [hencode]) with h | h
      · exact h
      · omega
    have hsize : c.utf8Size = 1 := by
      rw [hsame, Char.toNat] at hascii
      rw [Char.utf8Size_eq_one_iff, UInt32.le_iff_toNat_le]
      exact Nat.le_of_lt_succ hascii
    rw [hsame, Char.ofNat_toNat, hsize]
  · rw [hdecode]

theorem coercedRunes_encoded (cs : List Char) {fuel : ℕ}
    (hfuel : (cs.flatMap String.utf8EncodeChar).length ≤ fuel) :
    coercedRunes fuel (cs.flatMap String.utf8EncodeChar) = cs := by
  induction cs generalizing fuel with
  | nil => cases fuel <;> rfl
  | cons c cs ih =>
    obtain ⟨first, bytes, hencode⟩ :=
      List.exists_cons_of_ne_nil (String.utf8EncodeChar_ne_nil (c := c))
    have hlength := String.length_utf8EncodeChar c
    rw [List.flatMap_cons, hencode, List.cons_append] at hfuel ⊢
    obtain ⟨fuel, rfl⟩ := Nat.exists_eq_add_one_of_ne_zero (n := fuel) (by
      simp at hfuel
      omega)
    rw [coercedRunes, nextPiece_encode hencode]
    have hdrop : (first :: (bytes ++ cs.flatMap String.utf8EncodeChar)).drop c.utf8Size =
        cs.flatMap String.utf8EncodeChar := by
      rw [← List.cons_append, ← hencode, ← hlength, List.drop_left]
    dsimp only
    rw [hdrop, ih]
    · rfl
    · simp at hfuel ⊢
      omega

theorem validText_idem (s : Str) : validText (validText s) = validText s := by
  rw [validText, validText, coercedRunes_encoded _ (le_refl _)]

end HelixCluster
