import HelixCluster.Lib.FormatUint

/-!
# Text

The literals, lines and decimal numbers of the texts that a program writes and reads.
-/

namespace HelixCluster

open List

/-- The bytes of a string literal. -/
def literal (s : String) : Str := s.toList.flatMap String.utf8EncodeChar

/-- The parts of a text between the line breaks. -/
def lines (text : Str) : List Str := text.splitOn 10

theorem lines_append (a b : Str) : lines (a ++ 10 :: b) = lines a ++ lines b :=
  splitOnP_append_cons a b (by decide)

theorem lines_of_notMem {text : Str} (h : 10 ∉ text) : lines text = [text] :=
  splitOn_eq_singleton h

theorem splitOn_append_separator (separator : UInt8) (a b : Str) :
    ∃ second rest, (a ++ separator :: b).splitOn separator =
      a.takeWhile (· ≠ separator) :: second :: rest := by
  have hsplit : ∀ first b : Str, separator ∉ first →
      ∃ second rest, (first ++ separator :: b).splitOn separator = first :: second :: rest := by
    intro first b hfirst
    obtain ⟨second, rest, hrest⟩ := exists_cons_of_ne_nil (splitOnP_ne_nil (· == separator) b)
    refine ⟨second, rest, ?_⟩
    rw [← hrest]
    refine splitOnP_append_cons_of_forall_mem (p := (· == separator)) (fun c hc => ?_) separator
      (beq_self_eq_true separator) b
    exact beq_false_of_ne fun h => hfirst (h ▸ hc)
  by_cases hmem : separator ∈ a
  · obtain ⟨first, rest, rfl, hfirst⟩ := eq_append_cons_of_mem hmem
    have htake : (first ++ separator :: rest).takeWhile (· ≠ separator) = first := by
      rw [takeWhile_append_of_pos fun c hc => by simpa using fun h : c = separator => hfirst (h ▸ hc)]
      simp
    rw [htake, append_assoc, cons_append]
    exact hsplit first _ hfirst
  have htake : a.takeWhile (· ≠ separator) = a :=
    takeWhile_eq_self_iff.mpr fun c hc => by simpa using fun h : c = separator => hmem (h ▸ hc)
  rw [htake]
  exact hsplit a b hmem

/-- What follows a text at the start of another one. -/
def after : Str → Str → Option Str
  | [], s => some s
  | _ :: _, [] => none
  | c :: t, d :: s => if c = d then after t s else none

theorem after_append (t s : Str) : after t (t ++ s) = some s := by
  induction t with
  | nil => rfl
  | cons c t ih => rw [cons_append, after, if_pos rfl, ih]

/-- `strings.Join` with a separator of one byte. -/
def join (separator : UInt8) (parts : List Str) : Str := [separator].intercalate parts

theorem mem_join {separator b : UInt8} {parts : List Str} (hb : b ∈ join separator parts) :
    b = separator ∨ ∃ part ∈ parts, b ∈ part := by
  induction parts with
  | nil => cases hb
  | cons part parts ih =>
    cases parts with
    | nil => exact .inr ⟨part, mem_singleton_self _, by simpa [join] using hb⟩
    | cons next parts =>
      rw [join, intercalate_cons_cons, mem_append, mem_append, mem_singleton] at hb
      rcases hb with (hpart | rfl) | hrest
      · exact .inr ⟨part, mem_cons_self, hpart⟩
      · exact .inl rfl
      · exact (ih hrest).imp_right fun ⟨p, hp, hmem⟩ => ⟨p, mem_cons_of_mem _ hp, hmem⟩

/-- Reads a decimal number. -/
def parseDecimal (s : Str) : Option ℕ :=
  if s ≠ [] ∧ ∀ b ∈ s, 48 ≤ b.toNat ∧ b.toNat ≤ 57 then
    some (Nat.ofDigits 10 (s.reverse.map fun b => b.toNat - 48))
  else none

theorem toNat_digitByte {d : ℕ} (hd : d < 10) : (digitByte d).toNat = 48 + d := by
  simp only [digitByte, if_pos hd, UInt8.toNat_ofNat']
  omega

theorem formatUint_decimal {value : ℕ} {b : UInt8} (hb : b ∈ formatUint value 10) :
    48 ≤ b.toNat ∧ b.toNat ≤ 57 := by
  unfold formatUint at hb
  split at hb
  · obtain rfl := mem_singleton.mp hb
    decide
  rw [mem_reverse, mem_map] at hb
  obtain ⟨d, hd, rfl⟩ := hb
  have hlt : d < 10 := Nat.digits_lt_base (by decide) hd
  rw [toNat_digitByte hlt]
  omega

theorem formatUint_ne_nil (value base : ℕ) : formatUint value base ≠ [] := by
  unfold formatUint
  split
  · simp
  · next hvalue => simpa using Nat.digits_ne_nil_iff_ne_zero.mpr hvalue

theorem parseDecimal_formatUint (value : ℕ) : parseDecimal (formatUint value 10) = some value := by
  rw [parseDecimal, if_pos ⟨formatUint_ne_nil value 10, fun b => formatUint_decimal⟩]
  unfold formatUint
  split
  · next hvalue =>
    rw [hvalue]
    rfl
  have hdigits : (Nat.digits 10 value).map ((fun b : UInt8 => b.toNat - 48) ∘ digitByte) =
      Nat.digits 10 value := by
    refine map_congr_left (fun d hd => ?_) |>.trans (map_id _)
    have hlt : d < 10 := Nat.digits_lt_base (by decide) hd
    rw [Function.comp_apply, toNat_digitByte hlt, id_eq]
    omega
  rw [reverse_reverse, map_map, hdigits, Nat.ofDigits_digits]

theorem mapM_parseDecimal_join {separator : UInt8} (hsep : separator.toNat < 48) {values : List ℕ}
    (h : values ≠ []) :
    ((join separator (values.map fun v => formatUint v 10)).splitOn separator).mapM parseDecimal =
      some values := by
  have hparts : ∀ part ∈ values.map fun v => formatUint v 10, separator ∉ part := by
    intro part hpart hmem
    obtain ⟨v, -, rfl⟩ := mem_map.mp hpart
    have := formatUint_decimal hmem
    omega
  rw [join, splitOn_intercalate _ hparts (by simpa using h)]
  clear h hparts
  induction values with
  | nil => rfl
  | cons v values ih => simp [parseDecimal_formatUint, ih]

end HelixCluster
