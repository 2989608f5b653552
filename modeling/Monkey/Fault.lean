import Monkey.Builtin
import Monkey.Expr

/-!
# `Monkey.Fault`: why an evaluation fails

A fault is the cause for which an evaluation stops. Its message is what a
program's user sees, and two faults with one message are the same to
everyone who looks at values from outside.
-/

set_option autoImplicit false

namespace Monkey

/-- The kinds of values, by which messages name them. -/
inductive Kind where
  | integer
  | boolean
  | string
  | null
  | array
  | hash
  | function
  | builtin
  | returnValue
  | error
  deriving DecidableEq

namespace Kind

/-- The name of a kind. -/
def name : Kind → String
  | integer => "INTEGER"
  | boolean => "BOOLEAN"
  | string => "STRING"
  | null => "NULL"
  | array => "ARRAY"
  | hash => "HASH"
  | function => "FUNCTION"
  | builtin => "BUILTIN"
  | returnValue => "RETURN_VALUE"
  | error => "ERROR"

end Kind

/-- Why an evaluation stops. -/
inductive Fault where
  /-- More statements and expressions were entered than the limit allows. -/
  | budgetExceeded (limit : Nat)
  | unknownIdentifier (name : String)
  | unknownUnary (op : UnaryOp) (operand : Kind)
  | unknownBinary (left : Kind) (op : BinaryOp) (right : Kind)
  | typeMismatch (left : Kind) (op : BinaryOp) (right : Kind)
  | divisionByZero
  | unusableKey (key : Kind)
  | notIndexable (indexed : Kind)
  | notAFunction (callee : Kind)
  /-- A function of `want` parameters was called with `got` arguments. -/
  | argumentCount (want got : Nat)
  /-- A native function that takes `want` arguments was called with `got`. -/
  | builtinArgumentCount (want got : Nat)
  /-- A native function that works on arrays was called on something else. -/
  | notAnArray (builtin : Builtin) (argument : Kind)
  /-- The length of something that has none was asked for. -/
  | noLength (argument : Kind)
  /-- A failure that a host describes in its own words. -/
  | reported (message : String)
  deriving DecidableEq

/-- What a user is told. -/
def Fault.message : Fault → String
  | budgetExceeded limit => "evaluation budget exceeded: " ++ toString limit ++ " steps"
  | unknownIdentifier name => "identifier not found: " ++ name
  | unknownUnary op operand => "unknown operator: " ++ op.text ++ operand.name
  | unknownBinary left op right =>
      "unknown operator: " ++ left.name ++ " " ++ op.text ++ " " ++ right.name
  | typeMismatch left op right =>
      "type mismatch: " ++ left.name ++ " " ++ op.text ++ " " ++ right.name
  | divisionByZero => "division by zero"
  | unusableKey key => "unusable as hash key: " ++ key.name
  | notIndexable indexed => "index operator not supported: " ++ indexed.name
  | notAFunction callee => "not a function: " ++ callee.name
  | argumentCount want got =>
      "wrong number of arguments: want=" ++ toString want ++ ", got=" ++ toString got
  | builtinArgumentCount want got =>
      "wrong number of arguments. got=" ++ toString got ++ ", want=" ++ toString want
  | notAnArray builtin argument =>
      "argument to `" ++ builtin.name ++ "` must be ARRAY, got " ++ argument.name
  | noLength argument => "argument to `len` not supported, got " ++ argument.name
  | reported message => message

end Monkey
