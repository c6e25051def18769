import HelixCluster.ClassAd.Depth

/-!
# Equality of attribute values

`valuesEqual` looks at the type of its left operand only: a float is compared by value with whatever
can be read as a number, an integer by its text with anything, and a string only with strings. So it
is an equivalence on the booleans together with one more type, and on no other choice of types
(`equality_equivalence_iff`).
-/

namespace HelixCluster.ClassAd

variable {F O : Type}

/-- The types of attribute values, with `int` and `int64` as one. -/
inductive Kind where
  | string
  | float
  | bool
  | int
  deriving DecidableEq

def Value.kind : Value F O → Option Kind
  | .string _ => some .string
  | .float _ => some .float
  | .bool _ => some .bool
  | .int _ => some .int
  | .other _ => none

variable (runtime : Runtime F O)

/-- What equality relies on in the library: how floats compare, and what `ParseFloat` and `%v` do
with these values. From a million on `%v` prints a float in scientific notation. -/
structure Documented : Prop where
  eq_symm : ∀ x y, runtime.eq x y = runtime.eq y x
  eq_trans : ∀ x y z, runtime.eq x y → runtime.eq y z → runtime.eq x z
  eq_ofInt : ∀ n, runtime.eq (runtime.ofInt n) (runtime.ofInt n)
  parse_one : runtime.parseFloat [49] = some (runtime.ofInt 1)
  sprint_string : ∀ s, runtime.sprint (.string s) = s
  sprint_bool : ∀ b, runtime.sprint (.bool b) = boolText b
  sprint_int : ∀ n, runtime.sprint (.int n) = formatInt n.toInt 10
  sprint_million : runtime.sprint (.float (runtime.ofInt 1000000)) = [49, 101, 43, 48, 54]

/-- On these values `valuesEqual` is an equivalence, up to the floats that differ from themselves. -/
structure EqualityOn (values : Set (Value F O)) : Prop where
  refl : ∀ a ∈ values, (∀ x, a = .float x → runtime.eq x x) → valuesEqual runtime a a
  symm : ∀ a ∈ values, ∀ b ∈ values, valuesEqual runtime a b = valuesEqual runtime b a
  trans : ∀ a ∈ values, ∀ b ∈ values, ∀ c ∈ values,
    valuesEqual runtime a b → valuesEqual runtime b c → valuesEqual runtime a c

variable {runtime} {a b c : Value F O}

/-! ### Values of one kind -/

theorem symm_of_kind (h : Documented runtime) {kind : Kind} (ha : a.kind = some kind)
    (hb : b.kind = some kind) : valuesEqual runtime a b = valuesEqual runtime b a := by
  cases a <;> cases ha <;> cases b <;> cases hb
  case float x y => exact h.eq_symm x y
  all_goals exact decide_eq_decide.mpr eq_comm

theorem trans_of_kind (h : Documented runtime) {kind : Kind} (ha : a.kind = some kind)
    (hb : b.kind = some kind) (hc : c.kind = some kind) (hab : valuesEqual runtime a b)
    (hbc : valuesEqual runtime b c) : valuesEqual runtime a c := by
  cases a <;> cases ha <;> cases b <;> cases hb <;> cases c <;> cases hc
  case float x y z => exact h.eq_trans x y z hab hbc
  all_goals exact decide_eq_true ((of_decide_eq_true hab).trans (of_decide_eq_true hbc))

/-! ### Booleans among other values -/

theorem bool_ne_left (value : Bool) (hb : b.kind ≠ some .bool) :
    valuesEqual runtime (.bool value) b = false := by
  cases b with
  | bool => exact absurd rfl hb
  | _ => rfl

theorem boolText_ne_formatInt (value : Bool) (n : ℤ) : formatInt n 10 ≠ boolText value := by
  have hdigit : ∀ k : ℕ, ∀ ch ∈ formatUint k 10, ch.toNat < 58 := by
    intro k ch hch
    exact Nat.lt_succ_of_le (formatUint_decimal hch).2
  have htext : ∀ ch ∈ formatInt n 10, ch.toNat < 58 := by
    unfold formatInt
    split
    · exact List.forall_mem_cons.mpr ⟨by decide, hdigit _⟩
    · exact hdigit _
  intro heq
  rw [heq] at htext
  cases value <;> exact absurd htext (by decide)

theorem bool_ne_right (h : Documented runtime) (value : Bool) {kind : Kind}
    (ha : a.kind = some kind) (hkind : kind ≠ .bool) :
    valuesEqual runtime a (.bool value) = false := by
  cases a with
  | bool => exact absurd (Option.some.inj ha).symm hkind
  | int n =>
    refine decide_eq_false ?_
    rw [h.sprint_int, h.sprint_bool]
    exact boolText_ne_formatInt value n.toInt
  | other => contradiction
  | _ => rfl

/-! ### Two kinds that clash -/

theorem float_string_clash (h : Documented runtime) :
    valuesEqual runtime (.float (runtime.ofInt 1)) (.string [49]) ≠
      valuesEqual runtime (.string [49]) (.float (runtime.ofInt 1)) := by
  simp [valuesEqual, toFloat, h.parse_one, h.eq_ofInt]

theorem int_string_clash (h : Documented runtime) :
    valuesEqual runtime (.int 1) (.string [49]) ≠ valuesEqual runtime (.string [49]) (.int 1) := by
  have htext : formatInt 1 10 = [49] := by decide
  simp [valuesEqual, h.sprint_int, h.sprint_string, htext]

theorem float_int_clash (h : Documented runtime) :
    valuesEqual runtime (.float (runtime.ofInt 1000000)) (.int 1000000) ≠
      valuesEqual runtime (.int 1000000) (.float (runtime.ofInt 1000000)) := by
  have htext : formatInt 1000000 10 ≠ [49, 101, 43, 48, 54] := by decide
  simp [valuesEqual, toFloat, h.eq_ofInt, h.sprint_int, h.sprint_million, htext]

theorem exists_clash (h : Documented runtime) {k l : Kind} (hk : k ≠ .bool) (hl : l ≠ .bool)
    (hkl : k ≠ l) : ∃ a b : Value F O, a.kind = some k ∧ b.kind = some l ∧
      valuesEqual runtime a b ≠ valuesEqual runtime b a := by
  cases k <;> cases l <;> try contradiction
  case float.string => exact ⟨_, _, rfl, rfl, float_string_clash h⟩
  case string.float => exact ⟨_, _, rfl, rfl, (float_string_clash h).symm⟩
  case int.string => exact ⟨_, _, rfl, rfl, int_string_clash h⟩
  case string.int => exact ⟨_, _, rfl, rfl, (int_string_clash h).symm⟩
  case float.int => exact ⟨_, _, rfl, rfl, float_int_clash h⟩
  case int.float => exact ⟨_, _, rfl, rfl, (float_int_clash h).symm⟩

/-- **When equality is an equivalence.** On the values of some types `valuesEqual` is reflexive but
for NaN, symmetric and transitive exactly if at most one of the types is not that of the booleans. -/
theorem equality_equivalence_iff (h : Documented runtime) (kinds : Set Kind) :
    EqualityOn runtime {a | ∃ kind ∈ kinds, a.kind = some kind} ↔
      (kinds \ {.bool}).Subsingleton := by
  constructor
  · intro hequality k hk l hl
    by_contra hkl
    obtain ⟨a, b, ha, hb, hclash⟩ := exists_clash h hk.2 hl.2 hkl
    exact hclash (hequality.symm a ⟨k, hk.1, ha⟩ b ⟨l, hl.1, hb⟩)
  intro hkinds
  -- Values of two kinds are not equal, since one of them is a boolean.
  have hne : ∀ {a b : Value F O} {k l : Kind}, k ∈ kinds → l ∈ kinds → a.kind = some k →
      b.kind = some l → k ≠ l → valuesEqual runtime a b = false := by
    intro a b k l hk hl ha hb hkl
    rcases eq_or_ne k .bool with rfl | hkbool
    · cases a <;> cases ha
      exact bool_ne_left _ (hb ▸ fun heq => hkl (Option.some.inj heq).symm)
    rcases eq_or_ne l .bool with rfl | hlbool
    · cases b <;> cases hb
      exact bool_ne_right h _ ha hkbool
    · exact absurd (hkinds ⟨hk, hkbool⟩ ⟨hl, hlbool⟩) hkl
  refine ⟨?_, ?_, ?_⟩
  · rintro a ⟨k, -, ha⟩ hnan
    cases a with
    | float x => exact hnan x rfl
    | other => contradiction
    | _ => exact decide_eq_true rfl
  · rintro a ⟨k, hk, ha⟩ b ⟨l, hl, hb⟩
    by_cases hkl : k = l
    · exact symm_of_kind h ha (hkl ▸ hb)
    · rw [hne hk hl ha hb hkl, hne hl hk hb ha (Ne.symm hkl)]
  · rintro a ⟨k, hk, ha⟩ b ⟨l, hl, hb⟩ c ⟨m, hm, hc⟩ hab hbc
    have hkl : k = l := by
      by_contra hkl
      rw [hne hk hl ha hb hkl] at hab
      contradiction
    have hlm : l = m := by
      by_contra hlm
      rw [hne hl hm hb hc hlm] at hbc
      contradiction
    subst hkl hlm
    exact trans_of_kind h ha hb hc hab hbc

theorem decimalRuntime_documented : Documented decimalRuntime where
  eq_symm x y := decide_eq_decide.mpr eq_comm
  eq_trans x y z hxy hyz := decide_eq_true ((of_decide_eq_true hxy).trans (of_decide_eq_true hyz))
  eq_ofInt n := decide_eq_true rfl
  parse_one := by decide +kernel
  sprint_string s := rfl
  sprint_bool b := rfl
  sprint_int n := rfl
  sprint_million := by decide +kernel

/-- Floats may be compared with booleans. -/
theorem floats_and_bools_equality : Documented decimalRuntime ∧
    EqualityOn decimalRuntime {a | ∃ kind ∈ ({.float, .bool} : Set Kind), a.kind = some kind} := by
  refine ⟨decimalRuntime_documented, (equality_equivalence_iff decimalRuntime_documented _).mpr ?_⟩
  rintro k ⟨rfl | rfl, hk⟩ l ⟨rfl | rfl, hl⟩
  · rfl
  all_goals exact absurd rfl (by assumption)

/-- `1 == "1"` and not `"1" == 1`, and `1e6 == 1000000` and not `1000000 == 1e6` for an integer. Also
`5 == 5.0` and `5.0 == "05"`, and not `5 == "05"`. -/
theorem sides_matter : valuesEqual decimalRuntime (.float 1) (.string [49]) = true ∧
    valuesEqual decimalRuntime (.string [49]) (.float 1) = false ∧
    valuesEqual decimalRuntime (.float 1000000) (.int 1000000) = true ∧
    valuesEqual decimalRuntime (.int 1000000) (.float 1000000) = false ∧
    valuesEqual decimalRuntime (.int 5) (.float 5) = true ∧
    valuesEqual decimalRuntime (.float 5) (.string [48, 53]) = true ∧
    valuesEqual decimalRuntime (.int 5) (.string [48, 53]) = false := by
  decide +kernel

end HelixCluster.ClassAd
