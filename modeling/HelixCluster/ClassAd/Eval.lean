import HelixCluster.ClassAd.Printing
import HelixCluster.Lib.GoMap

/-!
# The ClassAd evaluator

`evalExpr` of `pkg/classads/eval.go`. An attribute may have any Go value: `O` has those that are
neither strings, numbers nor booleans.
-/

namespace HelixCluster.ClassAd

/-- A Go value. `int` and `int64` are one case, since the evaluator treats them alike. -/
inductive Value (F O : Type) where
  | string (value : Str)
  | float (value : F)
  | bool (value : Bool)
  | int (value : Int64)
  | other (value : O)

variable {F O : Type}

def Literal.value : Literal F → Value F O
  | .string value => .string value
  | .float value => .float value
  | .bool value => .bool value

/-- The library functions that the evaluator calls, with `none` for an error. -/
structure Runtime (F O : Type) where
  parseFloat : Str → Option F
  ofInt : Int64 → F
  zero : F
  neg : F → F
  add : F → F → F
  sub : F → F → F
  mul : F → F → F
  div : F → F → F
  eq : F → F → Bool
  lt : F → F → Bool
  le : F → F → Bool
  sprint : Value F O → Str
  matchString : Str → Str → Option Bool

inductive EvalError where
  | tooDeep
  | undefinedAttribute (name : Str)
  | requiresBool (op : Str)
  | requiresNumber
  | requiresNumbers (op : Str)
  | divisionByZero
  | unknownBinaryOp (op : Str)
  | regexpArgs (count : ℕ)
  | regexpStrings
  | invalidRegexp
  | unknownFunction (name : Str)
  deriving DecidableEq

def maxEvalDepth : ℕ := 10000

section

variable (runtime : Runtime F O)

def toBool : Value F O → Option Bool
  | .bool value => some value
  | .float value => some (!runtime.eq value runtime.zero)
  | .string value => some (value ≠ [])
  | .int _ | .other _ => none

def toFloat : Value F O → Option F
  | .float value => some value
  | .int value => some (runtime.ofInt value)
  | .string value => runtime.parseFloat value
  | .bool _ | .other _ => none

def valuesEqual : Value F O → Value F O → Bool
  | .float a, b => (toFloat runtime b).any (runtime.eq a)
  | .string a, .string b => a = b
  | .string _, _ => false
  | .bool a, .bool b => a = b
  | .bool _, _ => false
  | a, b => runtime.sprint a = runtime.sprint b

/-- The numbers that an arithmetic operator or a comparison is applied to. -/
def numbers (op : BinaryOperator) (left right : Value F O) : Except EvalError (F × F) :=
  match toFloat runtime left, toFloat runtime right with
  | some l, some r => .ok (l, r)
  | _, _ => .error (.requiresNumbers op.text)

def evalBinary (op : BinaryOperator) (left right : Value F O) : Except EvalError (Value F O) :=
  match op with
  | .add => do
    let (l, r) ← numbers runtime op left right
    .ok (.float (runtime.add l r))
  | .sub => do
    let (l, r) ← numbers runtime op left right
    .ok (.float (runtime.sub l r))
  | .mul => do
    let (l, r) ← numbers runtime op left right
    .ok (.float (runtime.mul l r))
  | .div => do
    let (l, r) ← numbers runtime op left right
    if runtime.eq r runtime.zero then .error .divisionByZero
    else .ok (.float (runtime.div l r))
  | .eq => .ok (.bool (valuesEqual runtime left right))
  | .ne => .ok (.bool (!valuesEqual runtime left right))
  | .lt => do
    let (l, r) ← numbers runtime op left right
    .ok (.bool (runtime.lt l r))
  | .le => do
    let (l, r) ← numbers runtime op left right
    .ok (.bool (runtime.le l r))
  | .gt => do
    let (l, r) ← numbers runtime op left right
    .ok (.bool (runtime.lt r l))
  | .ge => do
    let (l, r) ← numbers runtime op left right
    .ok (.bool (runtime.le r l))
  | .and | .or => .error (.unknownBinaryOp op.text)

def evalUnary (op : UnaryOperator) (value : Value F O) : Except EvalError (Value F O) :=
  match op with
  | .not =>
    match toBool runtime value with
    | some b => .ok (.bool !b)
    | none => .error (.requiresBool op.text)
  | .neg =>
    match toFloat runtime value with
    | some f => .ok (.float (runtime.neg f))
    | none => .error .requiresNumber

/-- A function applied to its evaluated arguments. -/
def callFunction (name : Str) (args : List (Value F O)) : Except EvalError (Value F O) :=
  if name = [114, 101, 103, 101, 120, 112] then
    match args with
    | [.string pattern, .string target] =>
      match runtime.matchString pattern target with
      | some matched => .ok (.bool matched)
      | none => .error .invalidRegexp
    | [_, _] => .error .regexpStrings
    | _ => .error (.regexpArgs args.length)
  else .error (.unknownFunction name)

/-- An operand of `&&` or `||`. -/
def operandBool (op : BinaryOperator) (value : Value F O) : Except EvalError Bool :=
  match toBool runtime value with
  | some b => .ok b
  | none => .error (.requiresBool op.text)

variable (attrs : GoMap Str (Value F O))

mutual

def evalExprD (expr : Expr F) (depth : ℕ) : Except EvalError (Value F O) :=
  if depth > maxEvalDepth then .error .tooDeep
  else
    match expr with
    | .literal value => .ok value.value
    | .identifier name =>
      match attrs.lookup name with
      | none => .error (.undefinedAttribute name)
      | some value => .ok value
    | .unaryOp op expr => do
      let value ← evalExprD expr (depth + 1)
      evalUnary runtime op value
    | .binaryOp op left right => do
      let l ← evalExprD left (depth + 1)
      match op with
      | .and => do
        let lb ← operandBool runtime .and l
        if !lb then .ok (.bool false)
        else do
          let r ← evalExprD right (depth + 1)
          let rb ← operandBool runtime .and r
          .ok (.bool rb)
      | .or => do
        let lb ← operandBool runtime .or l
        if lb then .ok (.bool true)
        else do
          let r ← evalExprD right (depth + 1)
          let rb ← operandBool runtime .or r
          .ok (.bool rb)
      | op => do
        let r ← evalExprD right (depth + 1)
        evalBinary runtime op l r
    | .functionCall name args => do
      let values ← evalArgs args (depth + 1)
      callFunction runtime name values

def evalArgs : List (Expr F) → ℕ → Except EvalError (List (Value F O))
  | [], _ => .ok []
  | arg :: args, depth => do
    let value ← evalExprD arg depth
    let values ← evalArgs args depth
    .ok (value :: values)

end

end

/-- Rational numbers in decimal notation, and regular expressions without special characters. -/
def decimalRuntime : Runtime ℚ Unit where
  parseFloat := parseRat
  ofInt n := n.toInt
  zero := 0
  neg a := -a
  add a b := a + b
  sub a b := a - b
  mul a b := a * b
  div a b := a / b
  eq a b := a = b
  lt a b := a < b
  le a b := a ≤ b
  sprint
    | .string s => s
    | .float x => formatRat x
    | .bool b => boolText b
    | .int n => formatInt n.toInt 10
    | .other _ => []
  matchString pattern target := some (pattern <:+: target)

end HelixCluster.ClassAd
