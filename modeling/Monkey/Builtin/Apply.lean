import Monkey.Store
import Monkey.Value.Inspect

/-!
# `Monkey.Builtin.Apply`: what the native functions do

* `len` counts the characters of a string or the elements of an array;
* `puts` prints each argument on a line of its own;
* `first`, `last` give an end of an array, `rest` a new array without the
  first element, each of them null if there is none;
* `push` gives a new array with one more element.

All but `puts` take a fixed number of arguments, which is looked at
before their kinds.
-/

set_option autoImplicit false

namespace Monkey

/-- What an evaluation does: it changes the store and gives a result, or does not finish within
the depth it was allowed. -/
abbrev Eval (α : Type) : Type := StateT Store Option α

namespace Eval

/-- A new array. -/
def newArray (elements : List Value) : Eval Value := fun σ =>
  let (identity, σ) := σ.addIdentity
  some (.array identity elements, σ)

/-- A new hash. -/
def newHash (table : Table Value) : Eval Value := fun σ =>
  let (identity, σ) := σ.addIdentity
  some (.hash identity table, σ)

/-- A new function. -/
def newFunction (closure : Closure) : Eval Value := fun σ =>
  let (identity, σ) := σ.addIdentity
  some (.function identity closure, σ)

/-- A new scope. -/
def newScope (outer : Option ScopeId) : Eval ScopeId := fun σ => some (σ.addScope outer)

end Eval

namespace Builtin

/-- What `puts` prints for its arguments. -/
def lines (args : List Value) : String := String.join (args.map fun v => v.inspect ++ "\n")

/-- The length of a string or an array. -/
def length : Value → Value
  | .string content => .integer (Int64.ofNat content.length)
  | .array _ elements => .integer (Int64.ofNat elements.length)
  | v => .error (.noLength v.kind)

/-- Goes on with the elements of an array. -/
def withElements (b : Builtin) (v : Value) (next : List Value → Eval Value) : Eval Value :=
  match v with
  | .array _ elements => next elements
  | v => pure (.error (.notAnArray b v.kind))

/-- Calls a native function. -/
def apply (b : Builtin) (args : List Value) : Eval Value :=
  match b, args with
  | puts, args => do
    modify (·.print (lines args))
    pure .null
  | len, [v] => pure (length v)
  | first, [v] => withElements first v fun vs => pure (vs.head?.getD .null)
  | last, [v] => withElements last v fun vs => pure (vs.getLast?.getD .null)
  | rest, [v] =>
    withElements rest v fun vs =>
      match vs with
      | [] => pure .null
      | _ :: tail => Eval.newArray tail
  | push, [v, w] => withElements push v fun vs => Eval.newArray (vs ++ [w])
  | push, args => pure (.error (.builtinArgumentCount 2 args.length))
  | _, args => pure (.error (.builtinArgumentCount 1 args.length))

end Builtin

end Monkey
