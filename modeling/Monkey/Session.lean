import Monkey.Eval
import Monkey.Failure
import Monkey.Program.Parser

/-!
# `Monkey.Session`: running texts one after another

A session runs texts in one scope, so that each sees what the earlier
ones have bound. An error that ends a text is a value to a session that
only evaluates, and a failure to one that interprets.
-/

set_option autoImplicit false

namespace Monkey

/-- A depth for runs without a limit on their steps, more than a program comes to that is meant
to end. -/
def ampleDepth : Nat := 1000000

/-- A value that is no error, or the failure that an error stands for. -/
def Value.toResult : Value → Except Failure Value
  | .error fault => .error (.evaluation fault)
  | v => .ok v

/-- Parses a text and evaluates it in a scope without a limit on its steps. A malformed text is not
evaluated at all. -/
def interpret (depth : Nat) (scope : ScopeId) (text : String) : Eval (Except Failure Value) :=
  match Program.parse text with
  | .error diagnostics => pure (.error (.malformed diagnostics))
  | .ok program => do
    let v ← program.run none depth scope
    pure v.toResult

end Monkey
