import HelixCluster.Lib.GoString
import HelixCluster.Lib.SepLoop

/-!
# The ClassAd parser

The syntax trees of `pkg/classads/ast.go` and the recursive-descent parser of
`pkg/classads/parser.go`.
-/

namespace HelixCluster.ClassAd

/-! ### Syntax trees -/

inductive UnaryOperator where
  | not
  | neg
  deriving DecidableEq

inductive BinaryOperator where
  | or
  | and
  | eq
  | ne
  | le
  | ge
  | lt
  | gt
  | add
  | sub
  | mul
  | div
  deriving DecidableEq

/-- The constants the parser produces. -/
inductive Literal (F : Type) where
  | string (value : Str)
  | float (value : F)
  | bool (value : Bool)
  deriving DecidableEq

inductive Expr (F : Type) where
  | literal (value : Literal F)
  | identifier (name : Str)
  | unaryOp (op : UnaryOperator) (expr : Expr F)
  | binaryOp (op : BinaryOperator) (left right : Expr F)
  | functionCall (name : Str) (args : List (Expr F))

/-- The text of an operator: `!` and `-`. -/
def UnaryOperator.text : UnaryOperator → Str
  | not => [33]
  | neg => [45]

/-- The text of an operator. -/
def BinaryOperator.text : BinaryOperator → Str
  | or => [124, 124]
  | and => [38, 38]
  | eq => [61, 61]
  | ne => [33, 61]
  | le => [60, 61]
  | ge => [62, 61]
  | lt => [60]
  | gt => [62]
  | add => [43]
  | sub => [45]
  | mul => [42]
  | div => [47]

variable {F : Type}

mutual

/-- The number of operators and calls around the innermost subexpression. -/
def Expr.depth : Expr F → ℕ
  | .literal _ => 0
  | .identifier _ => 0
  | .unaryOp _ expr => expr.depth + 1
  | .binaryOp _ left right => max left.depth right.depth + 1
  | .functionCall _ args => argsDepth args

/-- The depth of a call with these arguments. -/
def argsDepth : List (Expr F) → ℕ
  | [] => 0
  | arg :: args => max (arg.depth + 1) (argsDepth args)

end

def maxParseDepth : ℕ := 10000

/-- The errors of the parser, with the values they print. -/
inductive ParseError where
  | unexpectedToken (pos : ℕ) (ch : UInt8)
  | tooDeep
  | unexpectedEnd
  | expectedParen (pos : ℕ)
  | expectedParenAfterArgs (pos : ℕ)
  | unexpectedCharacter (ch : UInt8) (pos : ℕ)
  | unterminatedString
  | invalidNumber (s : Str)
  deriving DecidableEq

/-- A parser returns a value and the text that is left. -/
abbrev Parser (α : Type) := TextParser UInt8 ParseError α

/-- `unicode.IsSpace` on the code points up to 255. -/
def isSpace (ch : UInt8) : Bool := (9 ≤ ch && ch ≤ 13) || ch == 32 || ch == 133 || ch == 160

/-- `unicode.IsLetter` on the code points up to 255. -/
def isLetter (ch : UInt8) : Bool :=
  (65 ≤ ch && ch ≤ 90) || (97 ≤ ch && ch ≤ 122) || ch == 170 || ch == 181 || ch == 186 ||
    (192 ≤ ch && ch != 215 && ch != 247)

/-- `unicode.IsDigit` on the code points up to 255. -/
def isDigit (ch : UInt8) : Bool := 48 ≤ ch && ch ≤ 57

def isIdentStart (ch : UInt8) : Bool := isLetter ch || ch == 95

def isIdentChar (ch : UInt8) : Bool := isLetter ch || isDigit ch || ch == 95

def skipWhitespace (text : Str) : Str := text.dropWhile isSpace

/-- Blanks are skipped also when the text does not go on with `s`. -/
def consume (s text : Str) : Bool × Str :=
  let text := skipWhitespace text
  if s <+: text then (true, text.drop s.length) else (false, text)

/-- The first of these operators with which the text goes on. -/
def consumeOperator : List BinaryOperator → Str → Option BinaryOperator × Str
  | [], text => (none, text)
  | op :: ops, text =>
    match consume op.text text with
    | (true, text) => (some op, text)
    | (false, text) => consumeOperator ops text

/-- One level of left-associative operators. -/
def parseBinary (ops : List BinaryOperator) (operand : Parser (Expr F)) : Parser (Expr F) :=
  fun text => do
    let (left, text) ← operand text
    sepFold (consumeOperator ops) operand (fun left op right => .binaryOp op left right) left text

section

variable (unary : Parser (Expr F))

def parseMultiplicative : Parser (Expr F) := parseBinary [.mul, .div] unary

def parseAdditive : Parser (Expr F) := parseBinary [.add, .sub] (parseMultiplicative unary)

def parseRelational : Parser (Expr F) := parseBinary [.le, .ge, .lt, .gt] (parseAdditive unary)

def parseEquality : Parser (Expr F) := parseBinary [.eq, .ne] (parseRelational unary)

def parseAnd : Parser (Expr F) := parseBinary [.and] (parseEquality unary)

end

/-- The raw text up to the closing quote, with the escaped bytes, and the text after it. -/
def scanString : Str → Option (Str × Str)
  | [] => none
  | 34 :: text => some ([], text)
  | 92 :: ch :: text => (scanString text).map fun (value, text) => (92 :: ch :: value, text)
  | ch :: text => (scanString text).map fun (value, text) => (ch :: value, text)

/-- From the opening quote on. -/
def parseString : Parser (Expr F) := fun text =>
  match scanString (text.drop 1) with
  | none => .error .unterminatedString
  | some (value, text) => .ok (.literal (.string value), text)

/-- Digits with at most one dot. -/
def scanNumber (hasDot : Bool) : Str → Str × Str
  | [] => ([], [])
  | ch :: text =>
    if isDigit ch then ((scanNumber hasDot text).map (ch :: ·) id)
    else if ch == 46 && !hasDot then ((scanNumber true text).map (ch :: ·) id)
    else ([], ch :: text)

def parseNumber (parseFloat : Str → Option F) : Parser (Expr F) := fun text =>
  let (s, text) := scanNumber false text
  match parseFloat s with
  | none => .error (.invalidNumber s)
  | some v => .ok (.literal (.float v), text)

def parseIdentifier (text : Str) : Str × Str := text.span isIdentChar

/-- The text goes on with the word, and the word ends there. -/
def startsWithWord (word text : Str) : Bool :=
  decide (word <+: text) && !(text.drop word.length).head?.any isIdentChar

def consumeComma (text : Str) : Option Unit × Str :=
  match consume [44] (skipWhitespace text) with
  | (true, text) => (some (), text)
  | (false, text) => (none, text)

/-- The operand of a unary operator, after the operator. -/
def parseOperand (op : UnaryOperator) (unary : Parser (Expr F)) : Parser (Expr F) := fun text => do
  let (expr, text) ← unary text
  .ok (.unaryOp op expr, text)

section

variable (parseFloat : Str → Option F) (total : ℕ)

/-- The first argument is read before the loop, which the source enters without a test. -/
def parseArgs (parseOr : Parser (Expr F)) : Parser (List (Expr F)) := fun text =>
  let text := skipWhitespace text
  if text.headD 0 = 41 then .ok ([], text)
  else do
    let (arg, text) ← parseOr text
    sepFold consumeComma parseOr (fun args _ arg => args ++ [arg]) [arg] text

/-- The rest of a parenthesized expression. The positions in errors depend on `total`, the length of
the input. -/
def parseParenthesized (parseOr : Parser (Expr F)) : Parser (Expr F) := fun text => do
  let (expr, text) ← parseOr text
  match consume [41] text with
  | (true, text) => .ok (expr, text)
  | (false, text) => .error (.expectedParen (total - text.length))

/-- An identifier or a function call, after the name. -/
def parseAfterName (parseOr : Parser (Expr F)) (name : Str) : Parser (Expr F) := fun text =>
  match consume [40] (skipWhitespace text) with
  | (true, text) => do
    let (args, text) ← parseArgs parseOr text
    match consume [41] text with
    | (true, text) => .ok (.functionCall name args, text)
    | (false, text) => .error (.expectedParenAfterArgs (total - text.length))
  | (false, text) => .ok (.identifier name, text)

def parseNamed (parseOr : Parser (Expr F)) : Parser (Expr F) := fun text =>
  let (name, text) := parseIdentifier text
  parseAfterName total parseOr name text

def parsePrimary (parseOr : Parser (Expr F)) : Parser (Expr F) := fun text =>
  let text := skipWhitespace text
  match text.head? with
  | none => .error .unexpectedEnd
  | some ch =>
    if ch = 34 then parseString text
    else if ch = 46 ∨ isDigit ch then parseNumber parseFloat text
    else if startsWithWord [116, 114, 117, 101] text then
      .ok (.literal (.bool true), text.drop 4)
    else if startsWithWord [102, 97, 108, 115, 101] text then
      .ok (.literal (.bool false), text.drop 5)
    else
      match consume [40] text with
      | (true, text) => parseParenthesized total parseOr text
      | (false, text) =>
        if isIdentStart ch then parseNamed total parseOr text
        else .error (.unexpectedCharacter ch (total - text.length))

mutual

/-- `room` is `maxParseDepth` minus the depth. -/
def parseOr : ℕ → Parser (Expr F)
  | 0 => fun _ => .error .tooDeep
  | room + 1 => parseBinary [.or] (parseAnd (parseUnary room))

def parseUnary : ℕ → Parser (Expr F)
  | 0 => fun _ => .error .tooDeep
  | room + 1 => fun text =>
    match consume UnaryOperator.not.text (skipWhitespace text) with
    | (true, text) => parseOperand .not (parseUnary room) text
    | (false, text) =>
      match consume UnaryOperator.neg.text text with
      | (true, text) => parseOperand .neg (parseUnary room) text
      | (false, text) => parsePrimary parseFloat total (parseOr room) text

end

end

def parse (parseFloat : Str → Option F) (input : Str) : Except ParseError (Expr F) := do
  let (expr, text) ← parseOr parseFloat input.length maxParseDepth (skipWhitespace input)
  match skipWhitespace text with
  | [] => .ok expr
  | ch :: rest => .error (.unexpectedToken (input.length - (ch :: rest).length) ch)

/-! ### What a parser takes from the text -/

/-- The operators and opening parentheses of a text, in halves: of `&&`, `||` and `==` each character
is half an operator. -/
def operatorHalves (text : Str) : ℕ :=
  (text.map fun ch =>
    if ch ∈ [33, 40, 42, 43, 45, 47, 60, 62] then 2 else if ch ∈ [38, 61, 124] then 1 else 0).sum

/-- What is read up to the rest has at least `n` halves of operators. -/
def Takes (n : ℕ) (text rest : Str) : Prop :=
  ∃ read, text = read ++ rest ∧ n ≤ operatorHalves read

variable {s text rest left : Str} {m n : ℕ}

theorem takes_of_suffix (h : rest <:+ text) : Takes 0 text rest := by
  obtain ⟨read, rfl⟩ := h
  exact ⟨read, rfl, Nat.zero_le _⟩

theorem Takes.mono (h : Takes m text rest) (hle : n ≤ m) : Takes n text rest := by
  obtain ⟨read, heq, hread⟩ := h
  exact ⟨read, heq, hle.trans hread⟩

theorem Takes.trans (h : Takes m text rest) (hleft : Takes n rest left) :
    Takes (m + n) text left := by
  obtain ⟨read, rfl, hread⟩ := h
  obtain ⟨more, rfl, hmore⟩ := hleft
  refine ⟨read ++ more, (List.append_assoc ..).symm, ?_⟩
  have hsum : operatorHalves (read ++ more) = operatorHalves read + operatorHalves more := by
    simp [operatorHalves]
  omega

theorem Takes.length_le (h : Takes n text rest) : rest.length ≤ text.length := by
  obtain ⟨read, rfl, _⟩ := h
  simp

theorem takes_skipWhitespace (text : Str) : Takes 0 text (skipWhitespace text) :=
  takes_of_suffix (text.dropWhile_suffix isSpace)

theorem consume_of_append (h : skipWhitespace text = s ++ rest) :
    consume s text = (true, rest) := by
  unfold consume
  rw [h]
  simp

theorem consume_of_mismatch (h : ¬ s <+: skipWhitespace text) :
    consume s text = (false, skipWhitespace text) := by
  unfold consume
  simp [h]

theorem append_of_consume (h : consume s text = (true, rest)) : skipWhitespace text = s ++ rest := by
  unfold consume at h
  dsimp only at h
  split_ifs at h with hstart
  · obtain ⟨rest', hrest⟩ := hstart
    rw [← hrest, List.drop_left] at h
    rw [← hrest, (Prod.mk.inj h).2]
  · exact absurd (Prod.mk.inj h).1 (by decide)

theorem skip_of_not_consume (h : consume s text = (false, rest)) : rest = skipWhitespace text := by
  unfold consume at h
  dsimp only at h
  split at h
  · exact absurd (Prod.mk.inj h).1 (by decide)
  · exact (Prod.mk.inj h).2.symm

theorem takes_of_consume (h : consume s text = (true, rest)) :
    Takes (operatorHalves s) text rest := by
  have hread : Takes (operatorHalves s) (skipWhitespace text) rest :=
    ⟨s, append_of_consume h, le_rfl⟩
  exact ((takes_skipWhitespace text).trans hread).mono (Nat.zero_add _).ge

theorem takes_of_not_consume (h : consume s text = (false, rest)) : Takes 0 text rest :=
  skip_of_not_consume h ▸ takes_skipWhitespace text

theorem length_of_consume (h : consume s text = (true, rest)) :
    rest.length + s.length ≤ text.length := by
  have hle := (takes_skipWhitespace text).length_le
  rw [append_of_consume h, List.length_append] at hle
  omega

theorem takes_consumeOperator (ops : List BinaryOperator) (text : Str) :
    Takes (if (consumeOperator ops text).1.isSome then 2 else 0) text
      (consumeOperator ops text).2 := by
  induction ops generalizing text with
  | nil => exact takes_of_suffix text.suffix_refl
  | cons op ops ih =>
    have htext : 2 ≤ operatorHalves op.text := by cases op <;> decide
    unfold consumeOperator
    generalize hfound : consume op.text text = found
    obtain ⟨_ | _, rest⟩ := found
    · exact ((takes_of_not_consume hfound).trans (ih rest)).mono (Nat.zero_add _).ge
    · exact (takes_of_consume hfound).mono htext

theorem consumeOperator_lt (ops : List BinaryOperator) (text : Str) (op : BinaryOperator)
    (rest : Str) (h : consumeOperator ops text = (some op, rest)) :
    rest.length < text.length := by
  have htakes : Takes 2 text rest := by simpa [h] using takes_consumeOperator ops text
  obtain ⟨read, rfl, hread⟩ := htakes
  cases read with
  | nil => contradiction
  | cons ch read =>
    rw [List.length_append, List.length_cons]
    omega

theorem takes_consumeComma (text : Str) : Takes 0 text (consumeComma text).2 := by
  refine ((takes_skipWhitespace text).trans (n := 0) ?_)
  unfold consumeComma
  generalize hfound : consume [44] (skipWhitespace text) = found
  obtain ⟨_ | _, rest⟩ := found
  · exact takes_of_not_consume hfound
  · exact takes_of_consume hfound

theorem consumeComma_lt (text : Str) (comma : Unit) (rest : Str)
    (h : consumeComma text = (some comma, rest)) : rest.length < text.length := by
  have hskip := (takes_skipWhitespace text).length_le
  unfold consumeComma at h
  generalize hfound : consume [44] (skipWhitespace text) = found at h
  obtain ⟨_ | _, rest'⟩ := found
  · exact absurd (Prod.mk.inj h).1 (by simp)
  obtain rfl : rest' = rest := (Prod.mk.inj h).2
  exact lt_of_lt_of_le (length_of_consume hfound) hskip

theorem suffix_scanString {value : Str} (h : scanString text = some (value, rest)) :
    rest <:+ text := by
  fun_induction scanString text generalizing value with
  | case1 => contradiction
  | case2 text =>
    obtain ⟨-, rfl⟩ := Prod.mk.inj (Option.some.inj h)
    exact List.suffix_cons _ _
  | case3 ch text ih =>
    obtain ⟨⟨v, r⟩, hscan, heq⟩ := Option.map_eq_some_iff.mp h
    obtain ⟨-, rfl⟩ := Prod.mk.inj heq
    exact (ih hscan).trans ((List.suffix_cons _ _).trans (List.suffix_cons _ _))
  | case4 ch text _ _ ih =>
    obtain ⟨⟨v, r⟩, hscan, heq⟩ := Option.map_eq_some_iff.mp h
    obtain ⟨-, rfl⟩ := Prod.mk.inj heq
    exact (ih hscan).trans (List.suffix_cons _ _)

theorem suffix_scanNumber (hasDot : Bool) (text : Str) : (scanNumber hasDot text).2 <:+ text := by
  induction text generalizing hasDot with
  | nil => exact List.suffix_refl _
  | cons ch text ih =>
    unfold scanNumber
    split_ifs
    · exact (ih hasDot).trans (List.suffix_cons _ _)
    · exact (ih true).trans (List.suffix_cons _ _)
    · exact List.suffix_refl _

/-- For every level of what is returned, an operator or an opening parenthesis is read. -/
def Consumes (parser : Parser (Expr F)) : Prop :=
  ∀ text expr rest, parser text = .ok (expr, rest) → Takes (2 * expr.depth) text rest

theorem Consumes.progress {parser : Parser (Expr F)} (h : Consumes parser)
    {σ : Type} {separator : Str → Option σ × Str}
    (hseparator : ∀ text s rest, separator text = (some s, rest) → rest.length < text.length) :
    Progress separator parser where
  separator_lt := hseparator
  item_le text expr rest hok := (h text expr rest hok).length_le

theorem Consumes.parseBinary {operand : Parser (Expr F)} (h : Consumes operand)
    (ops : List BinaryOperator) : Consumes (parseBinary ops operand) := by
  intro text expr rest hok
  obtain ⟨⟨left, text'⟩, hleft, hloop⟩ := bind_eq_ok_iff.mp hok
  have hround : ∀ (acc : Expr F) t op r right s, Takes (2 * acc.depth) text t →
      consumeOperator ops t = (some op, r) → operand r = .ok (right, s) →
      Takes (2 * (Expr.binaryOp op acc right).depth) text s := by
    intro acc t op r right s hacc hfound hright
    have hop := takes_consumeOperator ops t
    rw [hfound] at hop
    refine ((hacc.trans hop).trans (h r right s hright)).mono ?_
    show 2 * (max acc.depth right.depth + 1) ≤ 2 * acc.depth + 2 + 2 * right.depth
    omega
  obtain ⟨text'', hinv, rfl⟩ := sepLoop_invariant hround (h text left text' hleft) hloop
  exact (hinv.trans (takes_consumeOperator ops text'')).mono (Nat.le_add_right _ _)

theorem argsDepth_append (args : List (Expr F)) (arg : Expr F) :
    argsDepth (args ++ [arg]) = max (argsDepth args) (arg.depth + 1) := by
  induction args with
  | nil => simp [argsDepth]
  | cons a args ih => simp [argsDepth, ih, max_assoc]

/-- The opening parenthesis of the call is read before. -/
theorem takes_parseArgs {parseOr : Parser (Expr F)} (h : Consumes parseOr) {args : List (Expr F)}
    (hok : parseArgs parseOr text = .ok (args, rest)) : Takes (2 * argsDepth args - 2) text rest := by
  have hskip := takes_skipWhitespace text
  unfold parseArgs at hok
  dsimp only at hok
  split at hok
  · cases hok
    exact hskip
  obtain ⟨⟨arg, text'⟩, harg, hloop⟩ := bind_eq_ok_iff.mp hok
  have hround : ∀ (acc : List (Expr F)) t (s : Unit) r a left,
      Takes (2 * argsDepth acc - 2) text t → consumeComma t = (some s, r) →
      parseOr r = .ok (a, left) → Takes (2 * argsDepth (acc ++ [a]) - 2) text left := by
    intro acc t s r a left hacc hfound ha
    have hcomma := takes_consumeComma t
    rw [hfound] at hcomma
    refine ((hacc.trans hcomma).trans (h r a left ha)).mono ?_
    rw [argsDepth_append]
    omega
  have hfirst : Takes (2 * argsDepth [arg] - 2) text text' := by
    refine (hskip.trans (h _ _ _ harg)).mono ?_
    simp only [argsDepth]
    omega
  obtain ⟨text'', hinv, rfl⟩ := sepLoop_invariant hround hfirst hloop
  exact hinv.trans (takes_consumeComma text'')

variable {expr : Expr F}

theorem takes_parseString (h : parseString text = .ok (expr, rest)) :
    Takes (2 * expr.depth) text rest := by
  unfold parseString at h
  split at h
  · contradiction
  · next value left hscan =>
    cases h
    exact takes_of_suffix ((suffix_scanString hscan).trans (List.drop_suffix 1 text))

theorem takes_parseNumber {parseFloat : Str → Option F}
    (h : parseNumber parseFloat text = .ok (expr, rest)) : Takes (2 * expr.depth) text rest := by
  unfold parseNumber at h
  dsimp only at h
  split at h
  · contradiction
  · cases h
    exact takes_of_suffix (suffix_scanNumber false text)

theorem takes_parseParenthesized {parseOr : Parser (Expr F)} (h : Consumes parseOr) {total : ℕ}
    (hok : parseParenthesized total parseOr text = .ok (expr, rest)) :
    Takes (2 * expr.depth) text rest := by
  obtain ⟨⟨e, text'⟩, he, hok⟩ := bind_eq_ok_iff.mp hok
  dsimp only at hok
  generalize hclose : consume [41] text' = found at hok
  obtain ⟨_ | _, left⟩ := found
  · contradiction
  cases hok
  exact (h _ _ _ he).trans (takes_of_consume hclose)

theorem takes_parseNamed {parseOr : Parser (Expr F)} (h : Consumes parseOr) {total : ℕ}
    (hok : parseNamed total parseOr text = .ok (expr, rest)) : Takes (2 * expr.depth) text rest := by
  have hname : Takes 0 text (parseIdentifier text).2 := by
    rw [parseIdentifier, List.span_eq_takeWhile_dropWhile]
    exact takes_of_suffix (text.dropWhile_suffix _)
  refine (hname.trans (n := 2 * expr.depth) ?_).mono (Nat.zero_add _).ge
  unfold parseNamed parseAfterName at hok
  dsimp only at hok
  generalize (parseIdentifier text).2 = text at hok ⊢
  have hskip := takes_skipWhitespace text
  generalize hopen : consume [40] (skipWhitespace text) = found at hok
  obtain ⟨_ | _, text'⟩ := found
  · cases hok
    exact hskip.trans (takes_of_not_consume hopen)
  obtain ⟨⟨args, left⟩, hargs, hok⟩ := bind_eq_ok_iff.mp hok
  dsimp only at hok
  generalize hclose : consume [41] left = found at hok
  obtain ⟨_ | _, left⟩ := found
  · contradiction
  cases hok
  have hparens := (hskip.trans (takes_of_consume hopen)).trans
    ((takes_parseArgs h hargs).trans (takes_of_consume hclose))
  refine hparens.mono ?_
  show 2 * argsDepth args ≤ 0 + 2 + (2 * argsDepth args - 2 + 0)
  omega

theorem Consumes.parsePrimary {parseOr : Parser (Expr F)} (h : Consumes parseOr)
    (parseFloat : Str → Option F) (total : ℕ) :
    Consumes (parsePrimary parseFloat total parseOr) := by
  intro input expr rest hok
  refine ((takes_skipWhitespace input).trans (n := 2 * expr.depth) ?_).mono (Nat.zero_add _).ge
  unfold ClassAd.parsePrimary at hok
  dsimp only at hok
  generalize skipWhitespace input = text at hok ⊢
  split at hok
  · contradiction
  split at hok
  · exact takes_parseString hok
  split at hok
  · exact takes_parseNumber hok
  split at hok
  · cases hok
    exact takes_of_suffix (List.drop_suffix 4 text)
  split at hok
  · cases hok
    exact takes_of_suffix (List.drop_suffix 5 text)
  split at hok
  · next hopen =>
    exact ((takes_of_consume hopen).trans (takes_parseParenthesized h hok)).mono (Nat.le_add_left _ _)
  · next hopen =>
    split at hok
    · exact ((takes_of_not_consume hopen).trans (takes_parseNamed h hok)).mono (Nat.zero_add _).ge
    · contradiction

theorem Consumes.parseAnd {unary : Parser (Expr F)} (h : Consumes unary) :
    Consumes (parseAnd unary) := by
  unfold ClassAd.parseAnd parseEquality parseRelational parseAdditive parseMultiplicative
  exact ((((h.parseBinary _).parseBinary _).parseBinary _).parseBinary _).parseBinary _

theorem takes_parseOperand {unary : Parser (Expr F)} (h : Consumes unary) {op : UnaryOperator}
    {input : Str} (hop : consume op.text input = (true, text))
    (hok : parseOperand op unary text = .ok (expr, rest)) : Takes (2 * expr.depth) input rest := by
  obtain ⟨⟨e, left⟩, he, hok⟩ := bind_eq_ok_iff.mp hok
  cases hok
  have hhalves : operatorHalves op.text = 2 := by cases op <;> rfl
  refine ((takes_of_consume hop).trans (h _ _ _ he)).mono ?_
  rw [hhalves, Expr.depth]
  omega

theorem consumes (parseFloat : Str → Option F) (total room : ℕ) :
    Consumes (parseOr parseFloat total room) ∧ Consumes (parseUnary parseFloat total room) := by
  induction room with
  | zero =>
    constructor
    · intro text expr rest h
      rw [parseOr] at h
      contradiction
    intro text expr rest h
    rw [parseUnary] at h
    contradiction
  | succ room ih =>
    obtain ⟨hor, hunary⟩ := ih
    constructor
    · rw [parseOr]
      exact hunary.parseAnd.parseBinary _
    intro text expr rest h
    refine ((takes_skipWhitespace text).trans (n := 2 * expr.depth) ?_).mono (Nat.zero_add _).ge
    rw [parseUnary] at h
    dsimp only at h
    split at h
    · next hnot => exact takes_parseOperand hunary hnot h
    · next hnot =>
      refine ((takes_of_not_consume hnot).trans (n := 2 * expr.depth) ?_).mono (Nat.zero_add _).ge
      split at h
      · next hneg => exact takes_parseOperand hunary hneg h
      · next hneg =>
        refine ((takes_of_not_consume hneg).trans (n := 2 * expr.depth) ?_).mono (Nat.zero_add _).ge
        exact hor.parsePrimary parseFloat total _ _ _ h

end HelixCluster.ClassAd
