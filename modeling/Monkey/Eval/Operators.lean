import Monkey.Value.Equality

/-!
# `Monkey.Eval.Operators`: what operators and indexing give

The operators on values that are no signals. Integers wrap around at 64
bits, and division drops the fraction. A binary operator wants two values
of one kind; strings can only be joined, and what is neither integer nor
string can only be compared for being the same.
-/

set_option autoImplicit false

namespace Monkey

/-- What a unary operator gives. -/
def UnaryOp.apply (op : UnaryOp) (v : Value) : Value :=
  match op, v with
  | .not, v => .boolean (!v.isTruthy)
  | .negate, .integer n => .integer (-n)
  | .negate, v => .error (.unknownUnary .negate v.kind)

namespace BinaryOp

/-- What a binary operator gives on two integers. -/
def onIntegers (op : BinaryOp) (a b : Int64) : Value :=
  match op with
  | add => .integer (a + b)
  | subtract => .integer (a - b)
  | multiply => .integer (a * b)
  | divide => if b = 0 then .error .divisionByZero else .integer (a / b)
  | less => .boolean (a < b)
  | greater => .boolean (a > b)
  | equal => .boolean (a == b)
  | notEqual => .boolean (a != b)

/-- What a binary operator gives on two values of one kind that are neither integers nor strings. -/
def onOthers (op : BinaryOp) (a b : Value) : Value :=
  match op with
  | equal => .boolean (a.identical b)
  | notEqual => .boolean (!a.identical b)
  | op => .error (.unknownBinary a.kind op b.kind)

/-- What a binary operator gives. -/
def apply (op : BinaryOp) (a b : Value) : Value :=
  match a, b with
  | .integer m, .integer n => op.onIntegers m n
  | .string s, .string t =>
    if op = .add then .string (s ++ t) else .error (.unknownBinary .string op .string)
  | a, b => if a.kind = b.kind then op.onOthers a b else .error (.typeMismatch a.kind op b.kind)

end BinaryOp

/-- The element at a place of a list, null if the place lies outside it. -/
def elementAt (elements : List Value) (i : Int64) : Value :=
  if i < 0 then .null else (elements[i.toInt.toNat]?).getD .null

/-- What indexing gives: an element of an array, or the value a hash has for a key. -/
def Value.index (indexed position : Value) : Value :=
  match indexed, position with
  | .array _ elements, .integer i => elementAt elements i
  | .hash _ table, key =>
    match key.hashKey? with
    | some k => ((table.get? k).map Prod.snd).getD .null
    | none => .error (.unusableKey key.kind)
  | indexed, _ => .error (.notIndexable indexed.kind)

end Monkey
