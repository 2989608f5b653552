import Monkey.Value.Table

/-!
# `Monkey.Value`: what expressions evaluate to

Besides the data of the language there are two *signals* among the
values: a value on its way out of a function or a program, and an error.
Evaluation hands a signal on instead of going on with it.

Arrays, hashes and functions carry an identity, a number that no other
of them has. The language's own `==` compares identities; copies share
theirs. A function also carries the number of the scope it was made in.

* `Value.kind`, `Value.isSignal`, `Value.isTruthy`, `Value.hashKey?`.
* `Value.settle` is what a caller gets of what a body ends with.
-/

set_option autoImplicit false

namespace Monkey

/-- Scopes are numbered in the order in which they are made. -/
abbrev ScopeId := Nat

/-- Arrays, hashes and functions are numbered in the order in which they are made. -/
abbrev Identity := Nat

/-- A function of the language: its parameters, its body, and the scope it was made in. -/
structure Closure where
  parameters : List String
  body : Block
  scope : ScopeId

/-- What an expression evaluates to. -/
inductive Value where
  | integer (n : Int64)
  | boolean (b : Bool)
  | string (content : String)
  | null
  | array (identity : Identity) (elements : List Value)
  | hash (identity : Identity) (table : Table Value)
  | function (identity : Identity) (closure : Closure)
  | builtin (b : Builtin)
  /-- A value on its way to the caller of the enclosing function. -/
  | returned (value : Value)
  | error (fault : Fault)

namespace Value

/-- The kind of a value. -/
def kind : Value → Kind
  | integer _ => .integer
  | boolean _ => .boolean
  | string _ => .string
  | null => .null
  | array _ _ => .array
  | hash _ _ => .hash
  | function _ _ => .function
  | builtin _ => .builtin
  | returned _ => .returnValue
  | error _ => .error

/-- Whether evaluation hands the value on instead of going on with it. -/
def isSignal : Value → Bool
  | returned _ => true
  | error _ => true
  | _ => false

/-- Whether the value is an error. -/
def isError : Value → Bool
  | error _ => true
  | _ => false

/-- Whether a conditional takes its first branch: everything but `false` and `null` is true. -/
def isTruthy : Value → Bool
  | boolean b => b
  | null => false
  | _ => true

/-- What a value is filed under as a key. Integers, booleans and strings are the keys. -/
def hashKey? : Value → Option HashKey
  | integer n => some (.word .integer n.toUInt64)
  | boolean b => some (.word .boolean b.toUInt64)
  | string content => some (.text content)
  | _ => none

/-- What a caller gets of what a body ends with: a value on its way to the caller arrives. -/
def settle : Value → Value
  | returned v => v
  | v => v

end Value

end Monkey
