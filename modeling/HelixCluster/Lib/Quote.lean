import HelixCluster.Lib.FormatUint

/-!
# Quoted strings

`quote s` is the text of `strconv.Quote`.
-/

namespace HelixCluster

open List

/-- A piece of the source text: a rune, or a byte that starts no valid encoding of one. -/
inductive Piece where
  | rune (c : Char)
  | byte (b : UInt8)

/-- `strconv.IsPrint` for the runes up to `0xFF`. -/
def isPrintLatin1 (r : Nat) : Bool :=
  if 0x20 ≤ r ∧ r < 0x7F then true
  else if 0xA1 ≤ r ∧ r ≤ 0xFF then r ≠ 0xAD
  else false

/-- Lower-case hexadecimal digits of the value, most significant first. -/
def hexDigits : Nat → Nat → Str
  | 0, _ => []
  | width + 1, value => digitByte (value / 16 ^ width % 16) :: hexDigits width value

/-- The letter of the escape for a control character that has one. -/
def controlLetter : Nat → Option UInt8
  | 7 => some 97
  | 8 => some 98
  | 12 => some 102
  | 10 => some 110
  | 13 => some 114
  | 9 => some 116
  | 11 => some 118
  | _ => none

/-- The first byte, or the rune that starts there. -/
def nextPiece (first : UInt8) (rest : Str) : Piece × Nat :=
  if first.toNat < 0x80 then (.rune (Char.ofNat first.toNat), 1)
  else
    match (first :: rest).toByteArray.utf8DecodeChar? 0 with
    | some c => (.rune c, c.utf8Size)
    | none => (.byte first, 1)

section Quote

-- the Unicode tables of `strconv.IsPrint` beyond Latin-1
variable (isPrintWide : Char → Bool)

def isPrint (c : Char) : Bool := if c.toNat ≤ 0xFF then isPrintLatin1 c.toNat else isPrintWide c

/-- `appendEscapedRune` of `strconv`. -/
def escapedRune (c : Char) : Str :=
  if c.toNat = 34 ∨ c.toNat = 92 then [92, UInt8.ofNat c.toNat]
  else if isPrint isPrintWide c then String.utf8EncodeChar c
  else
    match controlLetter c.toNat with
    | some letter => [92, letter]
    | none =>
      if c.toNat < 0x20 ∨ c.toNat = 0x7F then 92 :: 120 :: hexDigits 2 c.toNat
      else if c.toNat < 0x10000 then 92 :: 117 :: hexDigits 4 c.toNat
      else 92 :: 85 :: hexDigits 8 c.toNat

/-- The text for one piece. -/
def quotePiece : Piece → Str
  | .rune c => escapedRune isPrintWide c
  | .byte b => 92 :: 120 :: hexDigits 2 b.toNat

/-- The loop of `appendQuotedWith`, with at most `fuel` passes. -/
def quoteBody : Nat → Str → Str
  | 0, _ => []
  | _ + 1, [] => []
  | fuel + 1, first :: rest =>
    let next := nextPiece first rest
    quotePiece isPrintWide next.1 ++ quoteBody fuel ((first :: rest).drop next.2)

def quote (s : Str) : Str := 34 :: (quoteBody isPrintWide s.length s ++ [34])

end Quote

/-! ## Reading a literal back -/

theorem decode_encode (c : Char) (rest : Str) :
    (String.utf8EncodeChar c ++ rest).toByteArray.utf8DecodeChar? 0 = some c := by
  have hrune := List.utf8DecodeChar?_utf8Encode_singleton (c := c)
  rw [utf8Encode_singleton] at hrune
  rw [toByteArray_append]
  exact ByteArray.utf8DecodeChar?_append_eq_some hrune _

variable {c : Char} {s t : Str}

theorem byte_of_encode {b : UInt8} (hb : b ∈ String.utf8EncodeChar c) :
    b.toNat = c.toNat ∨ 128 ≤ b.toNat := by
  simp only [String.utf8EncodeChar, Char.toNat] at hb ⊢
  split at hb
  · obtain rfl := mem_singleton.mp hb
    left
    simp only [UInt8.toNat_ofNat']
    omega
  right
  split at hb
  · simp only [mem_cons, not_mem_nil, or_false] at hb
    rcases hb with rfl | rfl <;> simp only [UInt8.toNat_ofNat'] <;> omega
  split at hb <;> simp only [mem_cons, not_mem_nil, or_false] at hb
  · rcases hb with rfl | rfl | rfl <;> simp only [UInt8.toNat_ofNat'] <;> omega
  · rcases hb with rfl | rfl | rfl | rfl <;> simp only [UInt8.toNat_ofNat'] <;> omega

section Injective

variable (isPrintWide : Char → Bool)

/-- The source text of a piece. -/
def Piece.bytes : Piece → Str
  | .rune c => String.utf8EncodeChar c
  | .byte b => [b]

end Injective

end HelixCluster
