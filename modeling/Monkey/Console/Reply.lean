import Monkey.Session
import Monkey.Value.Inspect

/-!
# `Monkey.Console.Reply`: what an entry is answered with

An entry that ends in a binding is answered with nothing, and so is one
without statements; an error is always shown.
-/

set_option autoImplicit false

namespace Monkey.Console

/-- Whether a program is run for its effect and not for its value. -/
def isSilent (p : Program) : Bool :=
  match p.statements.getLast? with
  | none => true
  | some (.binding _ _) => true
  | some _ => false

/-- The line that a program's value is answered with, if any. -/
def reply? (p : Program) (v : Value) : Option String :=
  if v.isError || !isSilent p then some v.inspect else none

end Monkey.Console
