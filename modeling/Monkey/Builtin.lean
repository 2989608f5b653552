/-!
# `Monkey.Builtin`: the names of the native functions

A name that no scope binds may still name a native function. What each
does is in `Monkey.Builtin.Apply`.
-/

set_option autoImplicit false

namespace Monkey

/-- The native functions. -/
inductive Builtin where
  | len
  | puts
  | first
  | last
  | rest
  | push
  deriving DecidableEq

namespace Builtin

/-- The name a program calls the function by. -/
def name : Builtin → String
  | len => "len"
  | puts => "puts"
  | first => "first"
  | last => "last"
  | rest => "rest"
  | push => "push"

/-- Every native function. -/
def all : List Builtin := [len, puts, first, last, rest, push]

/-- The native function of this name, if there is one. -/
def ofName? (name : String) : Option Builtin :=
  all.find? fun b => b.name == name

/-- How a native function is shown to a host. -/
def describe (b : Builtin) : String := "<built-in " ++ b.name ++ ">"

/-- A native function is found by its own name: `Builtin.ofName?` undoes `Builtin.name`, so none of
the natives is hidden behind another one's name. -/
@[simp] theorem ofName?_name (b : Builtin) : ofName? b.name = some b := by
  cases b <;> decide

end Builtin

end Monkey
