import Monkey.Diagnostic
import Monkey.Fault

/-!
# `Monkey.Failure`: why running a text fails

A text may be malformed, its evaluation may stop with a fault, or there
may be no text to run because a file could not be read.
-/

set_option autoImplicit false

namespace Monkey

/-- Why a file could not be read. -/
inductive FileFault where
  | notFound
  /-- The bytes of the file are no UTF-8. -/
  | notText
  | other (message : String)
  deriving DecidableEq

/-- What a user is told about a file. -/
def FileFault.message : FileFault → String
  | notFound => "No such file or directory (os error 2)"
  | notText => "stream did not contain valid UTF-8"
  | other message => message

/-- Why running a text fails. -/
inductive Failure where
  | malformed (diagnostics : List Diagnostic)
  | evaluation (fault : Fault)
  | unreadable (fault : FileFault)
  deriving DecidableEq

/-- What a user is told, a malformed text giving a line for each diagnostic. -/
def Failure.message : Failure → String
  | malformed diagnostics =>
      "parser error:\n" ++ "\n".intercalate (diagnostics.map fun d => "  " ++ d.render)
  | evaluation fault => "runtime error: " ++ fault.message
  | unreadable fault => "io error: " ++ fault.message

end Monkey
