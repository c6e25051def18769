import Mathlib.Data.Rat.Defs
import HelixCluster.Lib.Text

/-!
# Decimal numerals

`parseRat` and `formatRat` are `strconv.ParseFloat` and the verb `%v` of `fmt` on rational numbers. A
float of 64 bits is read and printed in the same way as the rational number as long as the numeral has
at most 15 significant digits, since such numerals survive the rounding.
-/

namespace HelixCluster

/-- Whether the text starts with a minus, and what follows the sign. -/
def readSign : Str → Bool × Str
  | 45 :: text => (true, text)
  | 43 :: text => (false, text)
  | text => (false, text)

/-- The exponent with which a numeral ends. -/
def readExponent : Str → Option ℤ
  | [] => some 0
  | ch :: text => do
    guard (ch = 101 ∨ ch = 69)
    let (negative, digits) := readSign text
    let exponent : ℕ ← parseDecimal digits
    some (if negative then -exponent else exponent)

def parseRat (text : Str) : Option ℚ := do
  let isDigit (ch : UInt8) : Bool := 48 ≤ ch && ch ≤ 57
  let (negative, text) := readSign text
  let (whole, text) := text.span isDigit
  let (fraction, text) :=
    if text.head? = some 46 then (text.drop 1).span isDigit else ([], text)
  let digits : ℕ ← parseDecimal (whole ++ fraction)
  let exponent ← readExponent text
  let exponent := exponent - fraction.length
  let power : ℚ := 10 ^ exponent.natAbs
  let value : ℚ := if exponent < 0 then digits / power else digits * power
  some (if negative then -value else value)

/-- Scientific notation, with at least two digits in the exponent. -/
def formatScientific (digits : Str) (exponent : ℤ) : Str :=
  let digits := (digits.reverse.dropWhile (· = 48)).reverse
  digits.take 1 ++ (if 1 < digits.length then 46 :: digits.drop 1 else []) ++
    [101, if exponent < 0 then 45 else 43] ++ (if exponent.natAbs < 10 then [48] else []) ++
    formatUint exponent.natAbs 10

/-- The digits of the value times `10 ^ places` stand in scientific notation from a million on and
below a ten thousandth. A value with more than 17 places is cut there. -/
def formatRat (value : ℚ) : Str :=
  let places := ((List.range 18).find? fun k => (value * 10 ^ k).den = 1).getD 17
  let scaled := value * 10 ^ places
  let digits := formatUint (scaled.num.natAbs / scaled.den) 10
  let exponent : ℤ := digits.length - places - 1
  (if value < 0 then [45] else []) ++
    if exponent < -4 ∨ 6 ≤ exponent then formatScientific digits exponent
    else if exponent < 0 then
      [48, 46] ++ List.replicate (exponent.natAbs - 1) 48 ++ digits
    else
      digits.take (exponent.natAbs + 1) ++ if places = 0 then [] else
        46 :: digits.drop (exponent.natAbs + 1)

end HelixCluster
