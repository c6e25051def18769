import HelixCluster.Lib.Decimal
import HelixCluster.ClassAd.Parser

/-!
# Parsing what was printed

`Expr.tokens` prints an expression with as few parentheses as the precedences allow, and `Spaced`
puts any white space between the tokens. `Parse` returns the expression from such a text
(`parse_inverts_printing`).
-/

namespace HelixCluster.ClassAd

open List

variable {F : Type}

/-! ### The text of an expression -/

/-- How tightly an operator binds. -/
def BinaryOperator.prec : BinaryOperator → ℕ
  | or => 1
  | and => 2
  | eq | ne => 3
  | le | ge | lt | gt => 4
  | add | sub => 5
  | mul | div => 6

theorem BinaryOperator.prec_bounds (op : BinaryOperator) : 1 ≤ op.prec ∧ op.prec ≤ 6 := by
  cases op <;> decide

def Expr.prec : Expr F → ℕ
  | .binaryOp op _ _ => op.prec
  | .unaryOp _ _ => 7
  | .literal _ | .identifier _ | .functionCall _ _ => 8

/-- Parentheses around an operand that does not bind as tightly as its place needs. -/
def parenthesize (paren : Bool) (tokens : List Str) : List Str :=
  if paren then [40] :: (tokens ++ [[41]]) else tokens

def boolText : Bool → Str
  | true => [116, 114, 117, 101]
  | false => [102, 97, 108, 115, 101]

section

variable (format : F → Str)

def Literal.text : Literal F → Str
  | .string value => 34 :: (value ++ [34])
  | .float value => format value
  | .bool value => boolText value

mutual

/-- The tokens of an expression. Operators are left-associative, so the right operand binds more
tightly. -/
def Expr.tokens : Expr F → List Str
  | .literal value => [value.text format]
  | .identifier name => [name]
  | .unaryOp op expr => op.text :: parenthesize (expr.prec < 7) (expr.tokens)
  | .binaryOp op left right =>
    parenthesize (left.prec < op.prec) left.tokens ++
      op.text :: parenthesize (right.prec < op.prec + 1) right.tokens
  | .functionCall name args => name :: [40] :: (argsTokens args ++ [[41]])

def argsTokens : List (Expr F) → List Str
  | [] => []
  | arg :: args => arg.tokens ++ moreTokens args

def moreTokens : List (Expr F) → List Str
  | [] => []
  | arg :: args => [44] :: (arg.tokens ++ moreTokens args)

end

end

/-- Parentheses count for the nesting: `parseOr` and `parseUnary` are called once more. -/
def parenDepth (paren : Bool) : ℕ := if paren then 2 else 0

mutual

/-- How deep the calls of `parseOr` and `parseUnary` nest when the tokens are read. -/
def Expr.nesting : Expr F → ℕ
  | .literal _ => 1
  | .identifier _ => 1
  | .unaryOp _ expr => expr.nesting + parenDepth (expr.prec < 7) + 1
  | .binaryOp op left right =>
    max (left.nesting + parenDepth (left.prec < op.prec))
      (right.nesting + parenDepth (right.prec < op.prec + 1))
  | .functionCall _ args => argsNesting args + 1

def argsNesting : List (Expr F) → ℕ
  | [] => 0
  | arg :: args => max (arg.nesting + 1) (argsNesting args)

end

/-- Letters, digits and underscores, not starting with a digit, and not a keyword. -/
structure IsName (name : Str) : Prop where
  start : ∃ ch tail, name = ch :: tail ∧ isIdentStart ch
  chars : ∀ ch ∈ name, isIdentChar ch
  keyword : ∀ value, name ≠ boolText value

/-- Digits, and possibly a dot with digits after it. -/
def IsDecimal (s : Str) : Prop :=
  ∃ whole fraction : Str, (∀ ch ∈ whole, isDigit ch) ∧ (∀ ch ∈ fraction, isDigit ch) ∧
    (s = whole ∧ whole ≠ [] ∨ s = whole ++ 46 :: fraction)

/-- The expressions whose tokens the parser can tell apart. -/
inductive Printable (parseFloat : Str → Option F) (format : F → Str) : Expr F → Prop where
  | string {value : Str} (h : ∀ ch ∈ value, ch ≠ 34 ∧ ch ≠ 92) :
      Printable parseFloat format (.literal (.string value))
  | float {value : F} (hdecimal : IsDecimal (format value))
      (hparse : parseFloat (format value) = some value) :
      Printable parseFloat format (.literal (.float value))
  | bool (value : Bool) : Printable parseFloat format (.literal (.bool value))
  | identifier {name : Str} (hname : IsName name) :
      Printable parseFloat format (.identifier name)
  | unaryOp (op : UnaryOperator) {expr : Expr F} (hexpr : Printable parseFloat format expr) :
      Printable parseFloat format (.unaryOp op expr)
  | binaryOp (op : BinaryOperator) {left right : Expr F} (hleft : Printable parseFloat format left)
      (hright : Printable parseFloat format right) :
      Printable parseFloat format (.binaryOp op left right)
  | functionCall {name : Str} {args : List (Expr F)} (hname : IsName name)
      (hargs : ∀ arg ∈ args, Printable parseFloat format arg) :
      Printable parseFloat format (.functionCall name args)

/-- Only white space. -/
def IsBlank (text : Str) : Prop := ∀ ch ∈ text, isSpace ch

instance decidableIsBlank (text : Str) : Decidable (IsBlank text) := List.decidableBAll _ _

/-- The text has these tokens, with any white space before each of them. -/
def Spaced : List Str → Str → Prop
  | [], text => text = []
  | token :: tokens, text =>
    ∃ blank rest, IsBlank blank ∧ text = blank ++ (token ++ rest) ∧ Spaced tokens rest

variable {text : Str}

theorem spaced_append {xs ys : List Str} :
    Spaced (xs ++ ys) text ↔ ∃ t u, text = t ++ u ∧ Spaced xs t ∧ Spaced ys u := by
  induction xs generalizing text with
  | nil => simp [Spaced]
  | cons token xs ih =>
    constructor
    · rintro ⟨blank, rest, hblank, rfl, hrest⟩
      obtain ⟨t, u, rfl, ht, hu⟩ := ih.mp hrest
      exact ⟨blank ++ (token ++ t), u, by simp, ⟨blank, t, hblank, rfl, ht⟩, hu⟩
    · rintro ⟨t, u, rfl, ⟨blank, rest, hblank, rfl, hrest⟩, hu⟩
      exact ⟨blank, rest ++ u, hblank, by simp, ih.mpr ⟨rest, u, rfl, hrest, hu⟩⟩

/-! ### White space and operators -/

variable {blank : Str}

theorem skipWhitespace_append (hblank : IsBlank blank) (text : Str) :
    skipWhitespace (blank ++ text) = skipWhitespace text :=
  dropWhile_append_of_pos hblank

variable {ch : UInt8}

theorem skipWhitespace_cons (hch : isSpace ch = false) (text : Str) :
    skipWhitespace (ch :: text) = ch :: text :=
  dropWhile_cons_of_neg (by simp [hch])

theorem skipWhitespace_blank (hblank : IsBlank blank) (hch : isSpace ch = false) (text : Str) :
    skipWhitespace (blank ++ ch :: text) = ch :: text := by
  rw [skipWhitespace_append hblank, skipWhitespace_cons hch]

theorem skipWhitespace_skipWhitespace (text : Str) :
    skipWhitespace (skipWhitespace text) = skipWhitespace text :=
  dropWhile_idempotent _ _

variable {s other : Str}

theorem consume_congr (h : skipWhitespace text = skipWhitespace other) :
    consume s text = consume s other := by
  unfold consume
  rw [h]

theorem consume_skipWhitespace (s text : Str) :
    consume s (skipWhitespace text) = consume s text :=
  consume_congr (skipWhitespace_skipWhitespace text)

theorem consume_cons (hch : isSpace ch = false) (s text : Str) :
    consume (ch :: s) (ch :: s ++ text) = (true, text) :=
  consume_of_append (skipWhitespace_cons hch _)

theorem mismatch_cons {other : UInt8} (h : ch ≠ other) (s text : Str) :
    ¬ ch :: s <+: other :: text :=
  fun hstart => h (cons_prefix_cons.mp hstart).1

/-- The operators of a precedence level, in the order in which the parser tries them. -/
def operatorsAt : ℕ → List BinaryOperator
  | 1 => [.or]
  | 2 => [.and]
  | 3 => [.eq, .ne]
  | 4 => [.le, .ge, .lt, .gt]
  | 5 => [.add, .sub]
  | 6 => [.mul, .div]
  | _ => []

variable {p : ℕ} {op : BinaryOperator}

theorem prec_of_mem_operatorsAt (h : op ∈ operatorsAt p) : op.prec = p := by
  unfold operatorsAt at h
  split at h
  all_goals first | contradiction | revert op; decide

theorem operatorsAt_ne_nil (hpos : 1 ≤ p) (hle : p ≤ 6) : operatorsAt p ≠ [] := by
  interval_cases p <;> simp [operatorsAt]

theorem operator_text (op : BinaryOperator) :
    ∃ ch s, op.text = ch :: s ∧ isSpace ch = false ∧ isIdentChar ch = false ∧ ch ≠ 46 ∧ ch ≠ 40 := by
  cases op <;> exact ⟨_, _, rfl, by decide⟩

theorem operator_mismatch {other : BinaryOperator} (h : op.prec ≠ other.prec) :
    ¬ op.text <+: other.text := by
  cases op <;> cases other <;> revert h <;> decide

variable {ops : List BinaryOperator}

theorem consumeOperator_congr (hops : ops ≠ [])
    (h : skipWhitespace text = skipWhitespace other) :
    consumeOperator ops text = consumeOperator ops other := by
  cases ops with
  | nil => contradiction
  | cons op ops => rw [consumeOperator, consumeOperator, consume_congr h]

theorem consumeOperator_none (hops : ops ≠ [])
    (h : ∀ op ∈ ops, ¬ op.text <+: skipWhitespace text) :
    consumeOperator ops text = (none, skipWhitespace text) := by
  induction ops generalizing text with
  | nil => contradiction
  | cons op ops ih =>
    obtain ⟨hop, hrest⟩ := forall_mem_cons.mp h
    rw [consumeOperator, consume_of_mismatch hop]
    cases ops with
    | nil => rfl
    | cons next ops =>
      have hskip := skipWhitespace_skipWhitespace text
      have hnone : consumeOperator (next :: ops) (skipWhitespace text) =
          (none, skipWhitespace (skipWhitespace text)) :=
        ih (cons_ne_nil _ _) (by rwa [hskip])
      rwa [hskip] at hnone

variable {rest : Str}

theorem consumeOperator_append (earlier : List BinaryOperator) (later : List BinaryOperator)
    (hop : skipWhitespace text = op.text ++ rest)
    (hearlier : ∀ other ∈ earlier, ¬ other.text <+: op.text ++ rest) :
    consumeOperator (earlier ++ op :: later) text = (some op, rest) := by
  induction earlier generalizing text with
  | nil => rw [nil_append, consumeOperator, consume_of_append hop]
  | cons other earlier ih =>
    obtain ⟨hother, hearlier⟩ := forall_mem_cons.mp hearlier
    rw [cons_append, consumeOperator, consume_of_mismatch (hop ▸ hother)]
    exact ih (by rw [skipWhitespace_skipWhitespace, hop]) hearlier

theorem consumeOperator_operatorsAt (hop : skipWhitespace text = op.text ++ rest)
    (hrest : ¬ [61] <+: rest) : consumeOperator (operatorsAt op.prec) text = (some op, rest) := by
  cases op with
  | or | and | eq | le | add | mul => exact consumeOperator_append [] _ hop (by simp)
  | ne => exact consumeOperator_append [.eq] _ hop (by simp [BinaryOperator.text])
  | ge => exact consumeOperator_append [.le] _ hop (by simp [BinaryOperator.text])
  | lt => exact consumeOperator_append [.le, .ge] _ hop (by simp [BinaryOperator.text, hrest])
  | gt => exact consumeOperator_append [.le, .ge, .lt] _ hop (by simp [BinaryOperator.text, hrest])
  | sub => exact consumeOperator_append [.add] _ hop (by simp [BinaryOperator.text])
  | div => exact consumeOperator_append [.mul] _ hop (by simp [BinaryOperator.text])

theorem skipWhitespace_operator (hblank : IsBlank blank) (op : BinaryOperator) (rest : Str) :
    skipWhitespace (blank ++ (op.text ++ rest)) = op.text ++ rest := by
  obtain ⟨ch, s, htext, hch, -⟩ := operator_text op
  rw [htext]
  exact skipWhitespace_blank hblank hch _

/-! ### Where an expression ends -/

/-- The text does not continue an expression at level `p`, a name as a call, or a word. -/
structure Stops (p : ℕ) (text : Str) : Prop where
  operator : ∀ op : BinaryOperator, p ≤ op.prec → ¬ op.text <+: skipWhitespace text
  paren : ¬ [40] <+: skipWhitespace text
  word : ∀ ch ∈ text.head?, isIdentChar ch = false ∧ ch ≠ 46

theorem Stops.mono {q : ℕ} (h : Stops p text) (hle : p ≤ q) : Stops q text :=
  ⟨fun op hop => h.operator op (hle.trans hop), h.paren, h.word⟩

theorem not_isIdentChar_of_isSpace : isSpace ch → isIdentChar ch = false ∧ ch ≠ 46 := by
  revert ch
  decide +kernel

section

variable (hblank : IsBlank blank)

include hblank

theorem word_end (hch : isIdentChar ch = false ∧ ch ≠ 46) (text : Str) :
    ∀ c ∈ (blank ++ ch :: text).head?, isIdentChar c = false ∧ c ≠ 46 := by
  cases blank with
  | nil => simpa using hch
  | cons b blank => simpa using not_isIdentChar_of_isSpace (hblank b mem_cons_self)

theorem stops_operator (hp : op.prec < p) (rest : Str) :
    Stops p (blank ++ (op.text ++ rest)) := by
  obtain ⟨ch, s, htext, hspace, hident, hdot, hparen⟩ := operator_text op
  refine ⟨?_, ?_, ?_⟩
  · intro other hother hstart
    rw [skipWhitespace_operator hblank] at hstart
    rcases prefix_or_prefix_of_prefix hstart (prefix_append op.text rest) with h | h
    · exact operator_mismatch (by omega) h
    · exact operator_mismatch (by omega) h
  · rw [skipWhitespace_operator hblank, htext]
    exact mismatch_cons hparen.symm _ _
  · rw [htext]
    exact word_end hblank ⟨hident, hdot⟩ _

theorem stops_delimiter (hch : ch = 41 ∨ ch = 44) (p : ℕ) (rest : Str) :
    Stops p (blank ++ ch :: rest) := by
  have hspace : isSpace ch = false := by rcases hch with rfl | rfl <;> decide
  have hskip := skipWhitespace_blank hblank hspace rest
  refine ⟨?_, ?_, ?_⟩
  · intro op _
    rw [hskip]
    rcases hch with rfl | rfl <;> cases op <;> exact mismatch_cons (by decide) _ _
  · rw [hskip]
    rcases hch with rfl | rfl <;> exact mismatch_cons (by decide) _ _
  · exact word_end hblank (by rcases hch with rfl | rfl <;> decide) rest

theorem stops_end (p : ℕ) : Stops p blank := by
  have hskip : skipWhitespace blank = [] := dropWhile_eq_nil_iff.mpr hblank
  refine ⟨?_, by simp [hskip], ?_⟩
  · intro op _
    rw [hskip]
    cases op <;> simp [BinaryOperator.text]
  · intro ch hch
    exact not_isIdentChar_of_isSpace (hblank ch (mem_of_mem_head? hch))

end

/-! ### Reading tokens -/

/-- The parser of a precedence level. The last one is `parseUnary`. -/
def level (unary : Parser (Expr F)) : ℕ → Parser (Expr F)
  | 1 => parseBinary [.or] (parseAnd unary)
  | 2 => parseAnd unary
  | 3 => parseEquality unary
  | 4 => parseRelational unary
  | 5 => parseAdditive unary
  | 6 => parseMultiplicative unary
  | _ => unary

theorem level_eq (unary : Parser (Expr F)) (hpos : 1 ≤ p) (hle : p ≤ 6) :
    level unary p = parseBinary (operatorsAt p) (level unary (p + 1)) := by
  interval_cases p <;> rfl

theorem Consumes.level {unary : Parser (Expr F)} (h : Consumes unary) (hpos : 1 ≤ p) :
    Consumes (level unary p) := by
  rcases lt_or_ge 6 p with hlt | hle
  · match p with
    | n + 7 => exact h
  revert hpos
  induction hle using Nat.decreasingInduction with
  | self => exact fun _ => h.parseBinary _
  | of_succ p hp ih =>
    intro hpos
    rw [level_eq unary hpos (by omega)]
    exact (ih (by omega)).parseBinary _

/-- The value with the text left, up to white space, if the condition holds, and else the error for
the depth. -/
def Yields {α : Type} (result : Except ParseError (α × Str)) (fits : Prop) (value : α)
    (rest : Str) : Prop :=
  (fits → ∃ left, result = .ok (value, left) ∧ skipWhitespace left = skipWhitespace rest) ∧
    (¬ fits → result = .error .tooDeep)

theorem yields_ok {α : Type} {value : α} {left : Str} {fits : Prop} (hfits : fits)
    (h : skipWhitespace left = skipWhitespace rest) : Yields (.ok (value, left)) fits value rest :=
  ⟨fun _ => ⟨left, rfl, h⟩, fun hnot => absurd hfits hnot⟩

theorem yields_tooDeep {α : Type} {value : α} {fits : Prop} (h : ¬ fits) :
    Yields (.error .tooDeep) fits value rest :=
  ⟨fun hfits => absurd hfits h, fun _ => rfl⟩

theorem Yields.bind {α β : Type} {first : Except ParseError (α × Str)}
    {next : α × Str → Except ParseError (β × Str)} {a : α} {b : β} {middle : Str}
    {fits fits' both : Prop} (h : Yields first fits a middle) (hboth : both ↔ fits ∧ fits')
    (hnext : ∀ left, skipWhitespace left = skipWhitespace middle →
      Yields (next (a, left)) fits' b rest) : Yields (first >>= next) both b rest := by
  by_cases hfits : fits
  · obtain ⟨left, rfl, hskip⟩ := h.1 hfits
    have hiff : both ↔ fits' := hboth.trans (and_iff_right hfits)
    rw [Yields, hiff]
    exact hnext left hskip
  · rw [h.2 hfits]
    exact yields_tooDeep fun hall => hfits (hboth.mp hall).1

section

variable (parseFloat : Str → Option F) (total : ℕ)

/-- The loop of a precedence level. -/
def levelLoop (room p : ℕ) (left : Expr F) : Parser (Expr F) :=
  sepFold (consumeOperator (operatorsAt p)) (level (parseUnary parseFloat total room) (p + 1))
    (fun left op right => .binaryOp op left right) left

/-- Level `p` reads the expression from its tokens, where it takes `n` of the room. -/
def Reads (p : ℕ) (tokens : List Str) (expr : Expr F) (n : ℕ) : Prop :=
  ∀ room text rest, Spaced tokens text → Stops p rest →
    Yields (level (parseUnary parseFloat total room) p (text ++ rest)) (n ≤ room) expr rest

/-- Level `p` reads the expression, and its loop then goes on with what follows. -/
def Continues (p : ℕ) (tokens : List Str) (expr : Expr F) (n : ℕ) : Prop :=
  ∀ room text rest, Spaced tokens text → Stops (p + 1) rest →
    level (parseUnary parseFloat total room) p (text ++ rest) =
      if n ≤ room then levelLoop parseFloat total room p expr rest else .error .tooDeep

end

variable {parseFloat : Str → Option F} {total : ℕ}

theorem level_progress (room p : ℕ) :
    Progress (consumeOperator (operatorsAt p)) (level (parseUnary parseFloat total room) (p + 1)) :=
  ((consumes parseFloat total room).2.level (Nat.le_add_left 1 p)).progress
    (consumeOperator_lt (operatorsAt p))

variable {text : Str}

theorem levelLoop_congr (hpos : 1 ≤ p) (hle : p ≤ 6) (room : ℕ) (expr : Expr F)
    (h : skipWhitespace text = skipWhitespace other) :
    levelLoop parseFloat total room p expr text = levelLoop parseFloat total room p expr other :=
  sepFold_congr (level_progress room p) (consumeOperator_congr (operatorsAt_ne_nil hpos hle) h) expr

variable {n : ℕ} {expr : Expr F}

variable {tokens : List Str}

theorem Reads.continues (hpos : 1 ≤ p) (hle : p ≤ 6)
    (h : Reads parseFloat total (p + 1) tokens expr n) :
    Continues parseFloat total p tokens expr n := by
  intro room text rest htext hrest
  obtain ⟨hok, herror⟩ := h room text rest htext hrest
  rw [level_eq _ hpos hle]
  show (level _ (p + 1) (text ++ rest) >>= fun read => levelLoop parseFloat total room p read.1 read.2) = _
  split_ifs with hfits
  · obtain ⟨left, hread, hskip⟩ := hok hfits
    rw [hread]
    exact levelLoop_congr hpos hle room expr hskip
  · rw [herror hfits]
    rfl

theorem Continues.reads (hpos : 1 ≤ p) (hle : p ≤ 6)
    (h : Continues parseFloat total p tokens expr n) : Reads parseFloat total p tokens expr n := by
  intro room text rest htext hrest
  rw [h room text rest htext (hrest.mono (Nat.le_succ p))]
  split_ifs with hfits
  · refine ⟨fun _ => ⟨skipWhitespace rest, ?_, skipWhitespace_skipWhitespace rest⟩,
      fun hnot => absurd hfits hnot⟩
    refine sepFold_of_none (consumeOperator_none (operatorsAt_ne_nil hpos hle) ?_) expr
    intro op hop
    exact hrest.operator op (prec_of_mem_operatorsAt hop).ge
  · exact ⟨fun hyes => absurd hyes hfits, fun _ => rfl⟩

theorem Reads.descend {q : ℕ} (h : Reads parseFloat total q tokens expr n) (hq : q ≤ 7)
    (hpos : 1 ≤ p) (hle : p ≤ q) : Reads parseFloat total p tokens expr n := by
  revert hpos
  induction hle using Nat.decreasingInduction with
  | self => exact fun _ => h
  | of_succ p hp ih =>
    intro hpos
    exact ((ih (by omega)).continues hpos (by omega)).reads hpos (by omega)

/-- The first token is not white space, does not turn `<` into `<=`, and closes no argument list. -/
def Opens (tokens : List Str) : Prop :=
  ∃ ch token rest, tokens = (ch :: token) :: rest ∧ isSpace ch = false ∧ ch ≠ 61 ∧ ch ≠ 41

theorem Opens.not_equalSign (h : Opens tokens) (htext : Spaced tokens text) (rest : Str) :
    ¬ [61] <+: text ++ rest := by
  obtain ⟨ch, token, tokens, rfl, hspace, hne, -⟩ := h
  obtain ⟨blank, text, hblank, rfl, -⟩ := htext
  cases blank with
  | nil => exact mismatch_cons hne.symm _ _
  | cons b blank =>
    refine mismatch_cons ?_ _ _
    rintro rfl
    exact absurd (hblank 61 mem_cons_self) (by decide)

theorem Continues.binaryOp {xs ys : List Str} {left right : Expr F} {m : ℕ}
    (hleft : Continues parseFloat total op.prec xs left n)
    (hright : Reads parseFloat total (op.prec + 1) ys right m) (hopens : Opens ys) :
    Continues parseFloat total op.prec (xs ++ op.text :: ys) (.binaryOp op left right)
      (max n m) := by
  obtain ⟨hpos, hle⟩ := op.prec_bounds
  intro room text rest htext hrest
  obtain ⟨t, u, rfl, ht, hu⟩ := spaced_append.mp htext
  obtain ⟨blank, v, hblank, rfl, hv⟩ := hu
  have hstops := stops_operator hblank (Nat.lt_succ_self op.prec) (v ++ rest)
  have hfound := consumeOperator_operatorsAt (skipWhitespace_operator hblank op (v ++ rest))
    (hopens.not_equalSign hv rest)
  have happend : t ++ (blank ++ (op.text ++ v)) ++ rest =
      t ++ (blank ++ (op.text ++ (v ++ rest))) := by
    simp only [append_assoc]
  rw [happend, hleft room t _ ht hstops]
  by_cases hn : n ≤ room
  · rw [if_pos hn, levelLoop, sepFold_of_some (level_progress room op.prec) hfound]
    obtain ⟨hok, herror⟩ := hright room v rest hv hrest
    by_cases hm : m ≤ room
    · obtain ⟨tail, hread, hskip⟩ := hok hm
      rw [if_pos (max_le hn hm), hread]
      exact levelLoop_congr hpos hle room _ hskip
    · rw [if_neg fun h => hm (le_of_max_le_right h), herror hm]
      rfl
  · rw [if_neg hn, if_neg fun h => hn (le_of_max_le_left h)]

/-! ### Operands -/

theorem parseUnary_primary (room : ℕ) (hblank : IsBlank blank) (hspace : isSpace ch = false)
    (hnot : ch ≠ 33) (hneg : ch ≠ 45) (text : Str) :
    parseUnary parseFloat total (room + 1) (blank ++ ch :: text) =
      parsePrimary parseFloat total (parseOr parseFloat total room) (ch :: text) := by
  have hskip := skipWhitespace_blank hblank hspace text
  have hchar := skipWhitespace_cons hspace text
  rw [parseUnary]
  dsimp only
  rw [hskip, consume_of_mismatch (hchar.symm ▸ mismatch_cons hnot.symm _ _)]
  dsimp only
  rw [hchar, consume_of_mismatch (hchar.symm ▸ mismatch_cons hneg.symm _ _)]
  dsimp only
  rw [hchar]

theorem reads_token (h : ∀ room blank text rest, IsBlank blank → Spaced tokens text → Stops 7 rest →
      Yields (parseUnary parseFloat total (room + 1) (blank ++ (s ++ (text ++ rest)))) (n ≤ room) expr
        rest) : Reads parseFloat total 7 (s :: tokens) expr (n + 1) := by
  intro room text rest htext hrest
  obtain ⟨blank, u, hblank, rfl, hu⟩ := htext
  show Yields (parseUnary parseFloat total room _) _ _ _
  cases room with
  | zero =>
    rw [parseUnary]
    exact yields_tooDeep (by omega)
  | succ room =>
    rw [append_assoc, append_assoc, Nat.succ_le_succ_iff]
    exact h room blank u rest hblank hu hrest

theorem reads_primary (hspace : isSpace ch = false) (hnot : ch ≠ 33) (hneg : ch ≠ 45)
    (h : ∀ room text rest, Spaced tokens text → Stops 7 rest → Yields (parsePrimary parseFloat total (parseOr parseFloat total room) (ch :: s ++ (text ++ rest))) (n ≤ room) expr rest) :
    Reads parseFloat total 7 ((ch :: s) :: tokens) expr (n + 1) := by
  refine reads_token fun room blank text rest hblank htext hrest => ?_
  rw [cons_append, parseUnary_primary room hblank hspace hnot hneg]
  exact h room text rest htext hrest

theorem reads_atom (hspace : isSpace ch = false) (hnot : ch ≠ 33) (hneg : ch ≠ 45)
    (h : ∀ parseOr rest, Stops 7 rest → ∃ left, parsePrimary parseFloat total parseOr (ch :: (s ++ rest)) =
      .ok (expr, left) ∧ skipWhitespace left = skipWhitespace rest) :
    Reads parseFloat total 7 [ch :: s] expr 1 := by
  refine reads_primary (n := 0) hspace hnot hneg fun room text rest htext hrest => ?_
  obtain rfl : text = [] := htext
  obtain ⟨left, hleft, hskip⟩ := h (parseOr parseFloat total room) rest hrest
  rw [nil_append, cons_append, hleft]
  exact yields_ok (Nat.zero_le room) hskip

theorem parseUnary_operand (room : ℕ) (hblank : IsBlank blank) (op : UnaryOperator)
    (text : Str) : parseUnary parseFloat total (room + 1) (blank ++ (op.text ++ text)) =
      parseOperand op (parseUnary parseFloat total room) text := by
  have hskip : skipWhitespace (blank ++ (op.text ++ text)) = op.text ++ text := by
    cases op <;> exact skipWhitespace_blank hblank (by decide) _
  rw [parseUnary]
  dsimp only
  rw [hskip]
  cases op with
  | not =>
    rw [UnaryOperator.text, consume_cons (by decide)]
  | neg =>
    have hminus : skipWhitespace (UnaryOperator.neg.text ++ text) = 45 :: text :=
      skipWhitespace_cons (by decide) text
    rw [consume_of_mismatch (hminus ▸ mismatch_cons (by decide) _ _)]
    dsimp only
    have hcons : consume [45] (45 :: text) = (true, text) := consume_cons (by decide) [] text
    rw [hminus, UnaryOperator.text, hcons]

theorem Reads.unaryOp (h : Reads parseFloat total 7 tokens expr n) (op : UnaryOperator) :
    Reads parseFloat total 7 (op.text :: tokens) (.unaryOp op expr) (n + 1) := by
  refine reads_token fun room blank text rest hblank htext hrest => ?_
  rw [parseUnary_operand room hblank]
  have hfits : n ≤ room ↔ n ≤ room ∧ True := by simp
  exact (h room text rest htext hrest).bind hfits fun left hskip => yields_ok trivial hskip

/-- `parseOr` reads the expression from its tokens. -/
def ReadsOr (parseFloat : Str → Option F) (total : ℕ) (tokens : List Str)
    (expr : Expr F) (n : ℕ) : Prop :=
  ∀ room text rest, Spaced tokens text → Stops 1 rest →
    Yields (parseOr parseFloat total room (text ++ rest)) (n ≤ room) expr rest

theorem Reads.readsOr (h : Reads parseFloat total 1 tokens expr n) :
    ReadsOr parseFloat total tokens expr (n + 1) := by
  intro room text rest htext hrest
  cases room with
  | zero =>
    rw [parseOr]
    exact yields_tooDeep (by omega)
  | succ room =>
    rw [parseOr, Nat.succ_le_succ_iff]
    exact h room text rest htext hrest

theorem parsePrimary_paren (parseOr : Parser (Expr F)) (text : Str) :
    parsePrimary parseFloat total parseOr (40 :: text) = parseParenthesized total parseOr text := by
  have hskip : skipWhitespace (40 :: text) = 40 :: text := skipWhitespace_cons (by decide) text
  have hopen : consume [40] (40 :: text) = (true, text) := consume_cons (by decide) [] text
  have htrue : ¬ [116, 114, 117, 101] <+: 40 :: text := mismatch_cons (by decide) _ _
  have hfalse : ¬ [102, 97, 108, 115, 101] <+: 40 :: text := mismatch_cons (by decide) _ _
  unfold parsePrimary
  simp only [hskip, hopen, startsWithWord, htrue, hfalse, List.head?_cons]
  rfl

theorem consume_closing {left : Str} (hblank : IsBlank blank)
    (h : skipWhitespace left = skipWhitespace (blank ++ 41 :: rest)) :
    consume [41] left = (true, rest) := by
  rw [consume_congr h]
  exact consume_of_append (skipWhitespace_blank hblank (by decide) rest)

theorem ReadsOr.paren (h : ReadsOr parseFloat total tokens expr n) :
    Reads parseFloat total 7 ([40] :: (tokens ++ [[41]])) expr (n + 1) := by
  refine reads_primary (by decide) (by decide) (by decide) ?_
  intro room text rest htext hrest
  obtain ⟨t, u, rfl, ht, hu⟩ := spaced_append.mp htext
  obtain ⟨blank, v, hblank, rfl, rfl⟩ := hu
  have happend : [40] ++ (t ++ (blank ++ ([41] ++ [])) ++ rest) = 40 :: (t ++ (blank ++ 41 :: rest)) := by
    simp
  rw [happend, parsePrimary_paren]
  have hfits : n ≤ room ↔ n ≤ room ∧ True := by simp
  refine (h room t _ ht (stops_delimiter hblank (.inl rfl) 1 rest)).bind hfits fun left hskip => ?_
  dsimp only
  rw [consume_closing hblank hskip]
  exact yields_ok trivial rfl

/-! ### Literals and names -/

theorem scanString_append {value : Str} (h : ∀ ch ∈ value, ch ≠ 34 ∧ ch ≠ 92)
    (rest : Str) : scanString (value ++ 34 :: rest) = some (value, rest) := by
  induction value with
  | nil => rw [nil_append, scanString]
  | cons ch value ih =>
    obtain ⟨⟨hquote, hbackslash⟩, h⟩ := forall_mem_cons.mp h
    rw [cons_append, scanString, ih h]
    · rfl
    · exact hquote
    · intro c text heq
      exact absurd heq hbackslash

theorem scanNumber_digits {digits : Str} (h : ∀ ch ∈ digits, isDigit ch) (hasDot : Bool)
    (text : Str) :
    scanNumber hasDot (digits ++ text) = (scanNumber hasDot text).map (digits ++ ·) id := by
  induction digits with
  | nil => rfl
  | cons ch digits ih =>
    obtain ⟨hch, h⟩ := forall_mem_cons.mp h
    rw [cons_append, scanNumber, if_pos hch, ih h]
    rfl

theorem isIdentChar_of_isDigit : isDigit ch → isIdentChar ch := by
  intro h
  simp [isIdentChar, h]

theorem scanNumber_stop (h : ∀ ch ∈ text.head?, isIdentChar ch = false ∧ ch ≠ 46) (hasDot : Bool) :
    scanNumber hasDot text = ([], text) := by
  cases text with
  | nil => rfl
  | cons ch text =>
    obtain ⟨hident, hdot⟩ := h ch rfl
    have hdigit : ¬ isDigit ch := fun hdigit => by simp [isIdentChar_of_isDigit hdigit] at hident
    rw [scanNumber, if_neg hdigit, if_neg (by simp [hdot])]

theorem scanNumber_decimal (h : IsDecimal s)
    (hrest : ∀ ch ∈ rest.head?, isIdentChar ch = false ∧ ch ≠ 46) :
    scanNumber false (s ++ rest) = (s, rest) := by
  obtain ⟨whole, fraction, hwhole, hfraction, ⟨rfl, -⟩ | rfl⟩ := h
  · rw [scanNumber_digits hwhole, scanNumber_stop hrest]
    simp
  rw [append_assoc, scanNumber_digits hwhole, cons_append, scanNumber,
    if_neg (by decide), if_pos (by decide), scanNumber_digits hfraction, scanNumber_stop hrest]
  simp

theorem IsDecimal.start (h : IsDecimal s) : ∃ ch tail, s = ch :: tail ∧ (ch = 46 ∨ isDigit ch) := by
  obtain ⟨whole, fraction, hwhole, -, ⟨rfl, hne⟩ | rfl⟩ := h
  · obtain ⟨ch, tail, rfl⟩ := exists_cons_of_ne_nil hne
    exact ⟨ch, tail, rfl, .inr (hwhole ch mem_cons_self)⟩
  cases whole with
  | nil => exact ⟨46, fraction, rfl, .inl rfl⟩
  | cons ch whole => exact ⟨ch, _, rfl, .inr (hwhole ch mem_cons_self)⟩

theorem number_start : (ch = 46 ∨ isDigit ch) →
    isSpace ch = false ∧ ch ≠ 33 ∧ ch ≠ 45 ∧ ch ≠ 34 ∧ ch ≠ 61 ∧ ch ≠ 41 := by
  revert ch
  decide +kernel

theorem name_start : isIdentStart ch →
    isSpace ch = false ∧ ch ≠ 33 ∧ ch ≠ 45 ∧ ch ≠ 34 ∧ ch ≠ 61 ∧ ch ≠ 41 ∧ ch ≠ 40 ∧ ch ≠ 46 ∧
      isDigit ch = false := by
  revert ch
  decide +kernel

theorem reads_string {value : Str} (h : ∀ ch ∈ value, ch ≠ 34 ∧ ch ≠ 92) :
    Reads parseFloat total 7 [34 :: (value ++ [34])] (.literal (.string value)) 1 := by
  refine reads_atom (by decide) (by decide) (by decide) fun parseOr rest hrest => ⟨rest, ?_, rfl⟩
  have hskip : skipWhitespace (34 :: (value ++ 34 :: rest)) = 34 :: (value ++ 34 :: rest) :=
    skipWhitespace_cons (by decide) _
  unfold parsePrimary
  rw [append_assoc, singleton_append, hskip]
  dsimp only [List.head?_cons]
  rw [if_pos rfl, parseString, drop_one, tail_cons, scanString_append h]

theorem reads_number {value : F} (hdecimal : IsDecimal s) (hparse : parseFloat s = some value) :
    Reads parseFloat total 7 [s] (.literal (.float value)) 1 := by
  obtain ⟨ch, tail, rfl, hch⟩ := hdecimal.start
  obtain ⟨hspace, hnot, hneg, hquote, -, -⟩ := number_start hch
  refine reads_atom hspace hnot hneg fun parseOr rest hrest => ⟨rest, ?_, rfl⟩
  unfold parsePrimary
  rw [skipWhitespace_cons hspace]
  dsimp only [List.head?_cons]
  rw [if_neg hquote, if_pos hch, parseNumber, ← cons_append, scanNumber_decimal hdecimal hrest.word]
  dsimp only
  rw [hparse]

theorem startsWithWord_append {word : Str}
    (h : ∀ ch ∈ rest.head?, isIdentChar ch = false ∧ ch ≠ 46) :
    startsWithWord word (word ++ rest) = true := by
  have hany : rest.head?.any isIdentChar = false := by
    cases rest with
    | nil => rfl
    | cons ch rest => exact (h ch rfl).1
  simp [startsWithWord, hany]

theorem parsePrimary_word (parseOr : Parser (Expr F)) (hch : isIdentStart ch) (text : Str) :
    parsePrimary parseFloat total parseOr (ch :: text) =
      if startsWithWord (boolText true) (ch :: text) then
        .ok (.literal (.bool true), (ch :: text).drop 4)
      else if startsWithWord (boolText false) (ch :: text) then
        .ok (.literal (.bool false), (ch :: text).drop 5)
      else parseNamed total parseOr (ch :: text) := by
  obtain ⟨hspace, -, -, hquote, -, -, hparen, hdot, hdigit⟩ := name_start hch
  have hskip : skipWhitespace (ch :: text) = ch :: text := skipWhitespace_cons hspace text
  have hopen : consume [40] (ch :: text) = (false, ch :: text) := by
    rw [consume_of_mismatch (hskip.symm ▸ mismatch_cons hparen.symm _ _), hskip]
  unfold parsePrimary
  dsimp only
  rw [hskip]
  dsimp only [List.head?_cons]
  rw [if_neg hquote, if_neg (by simp [hdot, hdigit]), hopen]
  dsimp only
  rw [if_pos hch]
  rfl

theorem reads_bool (value : Bool) :
    Reads parseFloat total 7 [boolText value] (.literal (.bool value)) 1 := by
  cases value with
  | true =>
    refine reads_atom (by decide) (by decide) (by decide) fun parseOr rest hrest => ⟨rest, ?_, rfl⟩
    have hword : startsWithWord (boolText true) (116 :: ([114, 117, 101] ++ rest)) = true :=
      startsWithWord_append hrest.word
    rw [parsePrimary_word _ (by decide), if_pos hword]
    rfl
  | false =>
    refine reads_atom (by decide) (by decide) (by decide) fun parseOr rest hrest => ⟨rest, ?_, rfl⟩
    have hword : startsWithWord (boolText false) (102 :: ([97, 108, 115, 101] ++ rest)) = true :=
      startsWithWord_append hrest.word
    have hother : ¬ startsWithWord (boolText true) (102 :: ([97, 108, 115, 101] ++ rest)) = true := by
      simp [startsWithWord, boolText]
    rw [parsePrimary_word _ (by decide), if_neg hother, if_pos hword]
    rfl

variable {name : Str}

theorem IsName.span (h : IsName name) (htext : ∀ ch ∈ text.head?, isIdentChar ch = false) :
    parseIdentifier (name ++ text) = (name, text) := by
  have hstop : text.takeWhile isIdentChar = [] ∧ text.dropWhile isIdentChar = text := by
    cases text with
    | nil => exact ⟨rfl, rfl⟩
    | cons ch text =>
      have hch : ¬ isIdentChar ch := by simp [htext ch rfl]
      exact ⟨takeWhile_cons_of_neg hch, dropWhile_cons_of_neg hch⟩
  rw [parseIdentifier, span_eq_takeWhile_dropWhile, takeWhile_append_of_pos h.chars,
    dropWhile_append_of_pos h.chars, hstop.1, hstop.2, append_nil]

theorem IsName.not_keyword (h : IsName name) (htext : ∀ ch ∈ text.head?, isIdentChar ch = false)
    (value : Bool) : startsWithWord (boolText value) (name ++ text) = false := by
  by_contra hword
  rw [Bool.not_eq_false, startsWithWord, Bool.and_eq_true, decide_eq_true_iff] at hword
  obtain ⟨hstart, hend⟩ := hword
  have hchars : ∀ ch ∈ boolText value, isIdentChar ch := by
    cases value <;> decide +kernel
  rcases prefix_or_prefix_of_prefix hstart (prefix_append name text) with hle | hle
  · obtain ⟨s, rfl⟩ := hle
    cases s with
    | nil => exact h.keyword value (append_nil _)
    | cons ch s =>
      have hch : isIdentChar ch := h.chars ch (by simp)
      simp [hch] at hend
  obtain ⟨s, hs⟩ := hle
  rw [← hs, prefix_append_right_inj] at hstart
  cases s with
  | nil => exact h.keyword value (by simpa using hs)
  | cons ch s =>
    obtain ⟨u, rfl⟩ := hstart
    have hch := hchars ch (by simp [← hs])
    simp [htext ch rfl] at hch

theorem parsePrimary_name (parseOr : Parser (Expr F)) (h : IsName name)
    (htext : ∀ ch ∈ text.head?, isIdentChar ch = false) :
    parsePrimary parseFloat total parseOr (name ++ text) =
      parseAfterName total parseOr name text := by
  have htrue := h.not_keyword htext true
  have hfalse := h.not_keyword htext false
  have hspan := h.span htext
  obtain ⟨ch, tail, rfl, hch⟩ := h.start
  rw [cons_append] at htrue hfalse hspan ⊢
  rw [parsePrimary_word _ hch, if_neg (by simp [htrue]), if_neg (by simp [hfalse]), parseNamed, hspan]

theorem reads_identifier (h : IsName name) :
    Reads parseFloat total 7 [name] (.identifier name) 1 := by
  obtain ⟨ch, tail, rfl, hch⟩ := h.start
  obtain ⟨hspace, hnot, hneg, -⟩ := name_start hch
  refine reads_atom hspace hnot hneg fun parseOr rest hrest =>
    ⟨skipWhitespace rest, ?_, skipWhitespace_skipWhitespace rest⟩
  rw [← cons_append, parsePrimary_name _ h fun ch hch => (hrest.word ch hch).1, parseAfterName,
    consume_skipWhitespace, consume_of_mismatch hrest.paren]

/-! ### Function calls -/

theorem consumeComma_congr (h : skipWhitespace text = skipWhitespace other) :
    consumeComma text = consumeComma other := by
  rw [consumeComma, consumeComma, h]

theorem parseOr_progress (room : ℕ) : Progress consumeComma (parseOr parseFloat total room) :=
  (consumes parseFloat total room).1.progress consumeComma_lt

variable {format : F → Str}

variable {args : List (Expr F)}

theorem stops_moreTokens (htext : Spaced (moreTokens format args) text) (hblank : IsBlank blank)
    (p : ℕ) (rest : Str) : Stops p (text ++ (blank ++ 41 :: rest)) := by
  cases args with
  | nil =>
    obtain rfl : text = [] := htext
    exact stops_delimiter hblank (.inl rfl) p rest
  | cons arg args =>
    obtain ⟨before, u, hbefore, rfl, -⟩ := htext
    rw [append_assoc]
    exact stops_delimiter hbefore (.inr rfl) p _

theorem reads_moreArgs
    (h : ∀ arg ∈ args, ReadsOr parseFloat total (arg.tokens format) arg (arg.nesting + 1))
    (room : ℕ) (acc : List (Expr F)) (htext : Spaced (moreTokens format args) text)
    (hblank : IsBlank blank) (rest : Str) :
    Yields (sepFold consumeComma (parseOr parseFloat total room) (fun args _ arg => args ++ [arg])
      acc (text ++ (blank ++ 41 :: rest))) (argsNesting args ≤ room) (acc ++ args)
      (blank ++ 41 :: rest) := by
  induction args generalizing acc text with
  | nil =>
    obtain rfl : text = [] := htext
    have hskip := skipWhitespace_blank hblank (show isSpace 41 = false by decide) rest
    have hnone : consumeComma (blank ++ 41 :: rest) = (none, 41 :: rest) := by
      rw [consumeComma, consume_skipWhitespace,
        consume_of_mismatch (hskip.symm ▸ mismatch_cons (by decide) _ _), hskip]
    rw [nil_append, sepFold_of_none hnone, append_nil]
    exact yields_ok (by simp [argsNesting]) (skipWhitespace_append hblank _).symm
  | cons arg args ih =>
    obtain ⟨harg, hargs⟩ := forall_mem_cons.mp h
    obtain ⟨before, u, hbefore, rfl, hu⟩ := htext
    obtain ⟨t, v, rfl, ht, hv⟩ := spaced_append.mp hu
    have happend : before ++ ([44] ++ (t ++ v)) ++ (blank ++ 41 :: rest) =
        before ++ 44 :: (t ++ (v ++ (blank ++ 41 :: rest))) := by simp
    have hsome : consumeComma (before ++ 44 :: (t ++ (v ++ (blank ++ 41 :: rest)))) =
        (some (), t ++ (v ++ (blank ++ 41 :: rest))) := by
      rw [consumeComma, consume_skipWhitespace,
        consume_of_append (skipWhitespace_blank hbefore (by decide) _)]
      rfl
    rw [happend, sepFold_of_some (parseOr_progress room) hsome]
    have hread := harg room t _ ht (stops_moreTokens hv hblank 1 rest)
    refine hread.bind (by rw [argsNesting, max_le_iff]) fun left hskip => ?_
    dsimp only
    rw [sepFold_congr (parseOr_progress room) (consumeComma_congr hskip)]
    simpa using ih hargs (acc ++ [arg]) hv

theorem Opens.skip (h : Opens tokens) (htext : Spaced tokens text) (rest : Str) :
    ∃ text', skipWhitespace (text ++ rest) = text' ++ rest ∧ Spaced tokens text' ∧
      (text' ++ rest).headD 0 ≠ 41 := by
  obtain ⟨ch, token, tokens, rfl, hspace, -, hclose⟩ := h
  obtain ⟨blank, u, hblank, rfl, hu⟩ := htext
  refine ⟨ch :: token ++ u, ?_, ⟨[], u, by simp [IsBlank], rfl, hu⟩, hclose⟩
  rw [append_assoc]
  exact skipWhitespace_blank hblank hspace _

theorem reads_args
    (h : ∀ arg ∈ args, ReadsOr parseFloat total (arg.tokens format) arg (arg.nesting + 1))
    (hopens : ∀ arg ∈ args, Opens (arg.tokens format)) (room : ℕ)
    (htext : Spaced (argsTokens format args) text) (hblank : IsBlank blank) (rest : Str) :
    Yields (parseArgs (parseOr parseFloat total room) (text ++ (blank ++ 41 :: rest)))
      (argsNesting args ≤ room) args (blank ++ 41 :: rest) := by
  unfold parseArgs
  dsimp only
  cases args with
  | nil =>
    obtain rfl : text = [] := htext
    have hskip := skipWhitespace_blank hblank (show isSpace 41 = false by decide) rest
    rw [nil_append, hskip, headD_cons, if_pos rfl]
    exact yields_ok (by simp [argsNesting]) (skipWhitespace_append hblank _).symm
  | cons arg args =>
    obtain ⟨harg, hargs⟩ := forall_mem_cons.mp h
    obtain ⟨t, u, rfl, ht, hu⟩ := spaced_append.mp htext
    obtain ⟨t', hskip, ht', hclose⟩ :=
      (hopens arg mem_cons_self).skip ht (u ++ (blank ++ 41 :: rest))
    rw [append_assoc, hskip, if_neg hclose]
    have hread := harg room t' _ ht' (stops_moreTokens hu hblank 1 rest)
    refine hread.bind (by rw [argsNesting, max_le_iff]) fun left hskip => ?_
    dsimp only
    rw [sepFold_congr (parseOr_progress room) (consumeComma_congr hskip)]
    exact reads_moreArgs hargs room [arg] hu hblank rest

theorem reads_functionCall (hname : IsName name)
    (h : ∀ arg ∈ args, ReadsOr parseFloat total (arg.tokens format) arg (arg.nesting + 1))
    (hopens : ∀ arg ∈ args, Opens (arg.tokens format)) :
    Reads parseFloat total 7 (name :: [40] :: (argsTokens format args ++ [[41]]))
      (.functionCall name args) (argsNesting args + 1) := by
  obtain ⟨ch, tail, hcons, hch⟩ := hname.start
  obtain ⟨hspace, hnot, hneg, -⟩ := name_start hch
  rw [hcons]
  refine reads_primary hspace hnot hneg ?_
  intro room text rest htext hrest
  obtain ⟨before, u, hbefore, rfl, hu⟩ := htext
  obtain ⟨t, v, rfl, ht, hv⟩ := spaced_append.mp hu
  obtain ⟨blank, w, hblank, rfl, rfl⟩ := hv
  have happend : before ++ ([40] ++ (t ++ (blank ++ ([41] ++ [])))) ++ rest =
      before ++ 40 :: (t ++ (blank ++ 41 :: rest)) := by simp
  have hopen : consume [40] (before ++ 40 :: (t ++ (blank ++ 41 :: rest))) =
      (true, t ++ (blank ++ 41 :: rest)) :=
    consume_of_append (skipWhitespace_blank hbefore (by decide) _)
  have hword := word_end hbefore (show isIdentChar 40 = false ∧ (40 : UInt8) ≠ 46 by decide)
    (t ++ (blank ++ 41 :: rest))
  rw [happend, ← hcons, parsePrimary_name _ hname fun c hc => (hword c hc).1, parseAfterName,
    consume_skipWhitespace, hopen]
  dsimp only
  have hfits : argsNesting args ≤ room ↔ argsNesting args ≤ room ∧ True := by simp
  refine (reads_args h hopens room ht hblank rest).bind hfits fun left hskip => ?_
  dsimp only
  rw [consume_closing hblank hskip]
  exact yields_ok trivial rfl

/-! ### Expressions -/

theorem Opens.append {xs : List Str} (h : Opens xs) (ys : List Str) :
    Opens (xs ++ ys) := by
  obtain ⟨ch, token, rest, rfl, hch⟩ := h
  exact ⟨ch, token, rest ++ ys, rfl, hch⟩

theorem Opens.parenthesize (h : Opens tokens) (paren : Bool) :
    Opens (parenthesize paren tokens) := by
  cases paren with
  | false => exact h
  | true => exact ⟨40, [], _, rfl, by decide⟩

theorem IsName.opens (h : IsName name) (tokens : List Str) : Opens (name :: tokens) := by
  obtain ⟨ch, tail, rfl, hch⟩ := h.start
  obtain ⟨hspace, -, -, -, hequal, hclose, -⟩ := name_start hch
  exact ⟨ch, tail, tokens, rfl, hspace, hequal, hclose⟩

theorem Printable.opens (h : Printable parseFloat format expr) : Opens (expr.tokens format) := by
  induction h with
  | string h => exact ⟨34, _, [], rfl, by decide⟩
  | float hdecimal hparse =>
    obtain ⟨ch, tail, hcons, hch⟩ := hdecimal.start
    obtain ⟨hspace, -, -, -, hequal, hclose⟩ := number_start hch
    exact ⟨ch, tail, [], congrArg (fun s => [s]) hcons, hspace, hequal, hclose⟩
  | bool value => cases value <;> exact ⟨_, _, [], rfl, by decide⟩
  | identifier hname => exact hname.opens []
  | unaryOp op hexpr ih => cases op <;> exact ⟨_, _, _, rfl, by decide⟩
  | binaryOp op hleft hright ihleft ihright => exact (ihleft.parenthesize _).append _
  | functionCall hname hargs ih => exact hname.opens _

theorem one_le_prec (expr : Expr F) : 1 ≤ expr.prec := by
  cases expr with
  | binaryOp op left right => exact op.prec_bounds.1
  | _ => simp [Expr.prec]

/-- Every level up to its own reads the expression, and goes on with its loop. -/
structure Readable (parseFloat : Str → Option F) (total : ℕ) (format : F → Str)
    (expr : Expr F) : Prop where
  continues : ∀ p, 1 ≤ p → p ≤ 6 → p ≤ expr.prec →
    Continues parseFloat total p (expr.tokens format) expr expr.nesting
  reads : ∀ p, 1 ≤ p → p ≤ 7 → p ≤ expr.prec →
    Reads parseFloat total p (expr.tokens format) expr expr.nesting

theorem readable_of_reads (h : Reads parseFloat total 7 (expr.tokens format) expr expr.nesting) :
    Readable parseFloat total format expr where
  continues p hpos hle _ := (h.descend le_rfl (Nat.le_add_left 1 p) (by omega)).continues hpos hle
  reads p hpos hle _ := h.descend le_rfl hpos hle

theorem readable_of_continues (hpos : 1 ≤ expr.prec) (hle : expr.prec ≤ 6)
    (h : Continues parseFloat total expr.prec (expr.tokens format) expr expr.nesting) :
    Readable parseFloat total format expr where
  continues p hp _ hprec := by
    rcases hprec.eq_or_lt with rfl | hlt
    · exact h
    · exact ((h.reads hpos hle).descend (by omega) (by omega) hlt).continues hp (by omega)
  reads p hp _ hprec := (h.reads hpos hle).descend (by omega) hp hprec

theorem Readable.operand (h : Readable parseFloat total format expr) (hpos : 1 ≤ p) :
    let tokens := parenthesize (expr.prec < p) (expr.tokens format)
    let n := expr.nesting + parenDepth (expr.prec < p)
    (p ≤ 7 → Reads parseFloat total p tokens expr n) ∧
      (p ≤ 6 → Continues parseFloat total p tokens expr n) := by
  by_cases hprec : expr.prec < p
  · have hparen := (h.reads 1 le_rfl (by decide) (one_le_prec expr)).readsOr.paren
    rw [decide_eq_true hprec]
    exact ⟨hparen.descend le_rfl hpos, fun hle =>
      (hparen.descend le_rfl (Nat.le_add_left 1 p) (by omega)).continues hpos hle⟩
  · rw [decide_eq_false hprec]
    exact ⟨fun hle => h.reads p hpos hle (by omega), fun hle => h.continues p hpos hle (by omega)⟩

theorem Printable.readable (h : Printable parseFloat format expr) (total : ℕ) :
    Readable parseFloat total format expr := by
  induction h with
  | string h => exact readable_of_reads (reads_string h)
  | float hdecimal hparse => exact readable_of_reads (reads_number hdecimal hparse)
  | bool value => exact readable_of_reads (reads_bool value)
  | identifier hname => exact readable_of_reads (reads_identifier hname)
  | unaryOp op hexpr ih => exact readable_of_reads (((ih.operand (by decide)).1 le_rfl).unaryOp op)
  | binaryOp op hleft hright ihleft ihright =>
    obtain ⟨hpos, hle⟩ := op.prec_bounds
    refine readable_of_continues hpos hle ?_
    exact ((ihleft.operand hpos).2 hle).binaryOp
      ((ihright.operand (Nat.le_add_left 1 _)).1 (by omega)) (hright.opens.parenthesize _)
  | functionCall hname hargs ih =>
    refine readable_of_reads (reads_functionCall hname (fun arg harg => ?_) fun arg harg =>
      (hargs arg harg).opens)
    exact ((ih arg harg).reads 1 le_rfl (by decide) (one_le_prec arg)).readsOr

theorem parse_spaced (h : Printable parseFloat format expr)
    (htext : Spaced (expr.tokens format) text) (hblank : IsBlank blank) :
    parse parseFloat (text ++ blank) =
      if expr.nesting < maxParseDepth then .ok expr else .error .tooDeep := by
  obtain ⟨text', hskip, htext', -⟩ := h.opens.skip htext blank
  have hread := ((h.readable (text ++ blank).length).reads 1 le_rfl (by decide)
    (one_le_prec expr)).readsOr maxParseDepth text' blank htext' (stops_end hblank 1)
  unfold parse
  rw [hskip]
  split_ifs with hfits
  · obtain ⟨left, hok, hleft⟩ := hread.1 hfits
    have hend : skipWhitespace left = [] := hleft.trans (dropWhile_eq_nil_iff.mpr hblank)
    simp only [hok, bind, Except.bind, hend]
  · rw [hread.2 hfits]
    rfl

theorem spaced_flatMap {parts : List (Str × Str)} (h : ∀ part ∈ parts, IsBlank part.1) :
    Spaced (parts.map Prod.snd) (parts.flatMap fun part => part.1 ++ part.2) := by
  induction parts with
  | nil => rfl
  | cons part parts ih =>
    obtain ⟨hpart, h⟩ := forall_mem_cons.mp h
    exact ⟨part.1, _, hpart, by simp, ih h⟩

/-- `Parse` returns an expression from its text, or fails because it nests too deeply. -/
theorem parse_inverts_printing (parseFloat : Str → Option F) (format : F → Str)
    {expr : Expr F} (hexpr : Printable parseFloat format expr) {text blank : Str}
    (htext : Spaced (expr.tokens format) text) (hblank : IsBlank blank) :
    (expr.nesting < maxParseDepth → parse parseFloat (text ++ blank) = .ok expr) ∧
      (maxParseDepth ≤ expr.nesting → parse parseFloat (text ++ blank) = .error .tooDeep) := by
  rw [parse_spaced hexpr htext hblank]
  exact ⟨fun h => if_pos h, fun h => if_neg (Nat.not_lt.mpr h)⟩

/-- The expression `-(1 + x) * f(true) < 2.5`. -/
def sampleExpr : Expr ℚ :=
  .binaryOp .lt
    (.binaryOp .mul
      (.unaryOp .neg (.binaryOp .add (.literal (.float 1)) (.identifier [120])))
      (.functionCall [102] [.literal (.bool true)]))
    (.literal (.float (5 / 2)))

/-- The tokens of the example, and a blank before some of them. -/
def sampleParts : List (Str × Str) :=
  [([], [45]), ([], [40]), ([], [49]), ([32], [43]), ([32, 32], [120]), ([], [41]), ([], [42]),
    ([], [102]), ([32], [40]), ([], [116, 114, 117, 101]), ([], [41]), ([9], [60]),
    ([], [50, 46, 53])]

theorem isName_singleton (h : isIdentStart ch) : IsName [ch] where
  start := ⟨ch, [], rfl, h⟩
  chars := by
    simp only [isIdentStart, Bool.or_eq_true] at h
    simp only [forall_mem_singleton, isIdentChar, Bool.or_eq_true]
    tauto
  keyword value := by cases value <;> simp [boolText]

theorem formatRat_one : formatRat 1 = [49] := by decide +kernel

theorem formatRat_five_halves : formatRat (5 / 2) = [50, 46, 53] := by decide +kernel

theorem sampleExpr_printable : Printable parseRat formatRat sampleExpr := by
  refine .binaryOp _ (.binaryOp _ (.unaryOp _ (.binaryOp _ (.float ?_ (by decide +kernel))
    (.identifier ?_))) (.functionCall ?_ ?_)) (.float ?_ (by decide +kernel))
  · rw [formatRat_one]
    exact ⟨[49], [], by simp [isDigit], by simp, .inl ⟨rfl, by decide⟩⟩
  · exact isName_singleton (by decide)
  · exact isName_singleton (by decide)
  · exact forall_mem_singleton.mpr (.bool true)
  · rw [formatRat_five_halves]
    exact ⟨[50], [53], by simp [isDigit], by simp [isDigit], .inr rfl⟩

theorem sampleExpr_parsed :
    sampleExpr.nesting < maxParseDepth ∧
      parse parseRat (sampleParts.flatMap (fun part => part.1 ++ part.2) ++ [10]) = .ok sampleExpr :=
  have htokens : sampleExpr.tokens formatRat = sampleParts.map Prod.snd := by decide +kernel
  have hnesting : sampleExpr.nesting < maxParseDepth := by decide
  ⟨hnesting, (parse_inverts_printing _ _ sampleExpr_printable
    (htokens ▸ spaced_flatMap (by decide)) (by decide)).1 hnesting⟩

end HelixCluster.ClassAd
