import Monkey.Expr.Printer
import Monkey.Session
import Monkey.Value.Inspect

/-!
# `Monkey.CommandLine.Execute`: what the commands on files answer

Both commands read a file and parse it. `check` shows the program in
canonical form, `run` evaluates it in a new scope and shows its value. A
failure is shown apart from the output and gives the exit code one; what
had been put out before it stands.
-/

set_option autoImplicit false

namespace Monkey.CommandLine

/-- What a command leaves behind: its output, its complaints, and its exit code. -/
structure Report where
  output : String
  complaints : String
  code : Nat
  deriving DecidableEq

namespace Report

/-- The report of a command that succeeds. -/
def success (output : String) : Report := ⟨output, "", 0⟩

/-- The report of a command that fails after some output. -/
def failure (output : String) (f : Failure) : Report := ⟨output, f.message ++ "\n", 1⟩

end Report

/-- A number with blanks in front of it up to a width of four. -/
def lineNumber (n : Nat) : String :=
  let digits := toString n
  String.ofList (List.replicate (4 - digits.length) ' ') ++ digits

/-- The tokens of a text, one a line, the end of the text included. -/
def tokenListing (text : String) : String :=
  String.join <| (tokenize text).found.map fun f =>
    lineNumber f.line ++ " " ++ f.describe ++ "\n"

/-- Checks the content of a file. The tokens are listed whether or not the text is malformed. -/
def Report.ofCheck (content : Except FileFault String) (tokens : Bool) : Report :=
  match content with
  | .error fault => .failure "" (.unreadable fault)
  | .ok text =>
    let listing := if tokens then tokenListing text else ""
    match Program.parse text with
    | .error diagnostics => .failure listing (.malformed diagnostics)
    | .ok program => .success (listing ++ program.render ++ "\n")

/-- Evaluates a program in a new scope of an empty store. -/
def evaluate (p : Program) (maxSteps : Option Nat) (depth : Nat) : Option (Value × Store) :=
  let (scope, σ) := Store.empty.addScope none
  p.run maxSteps (depthFor maxSteps depth) scope σ

/-- Runs the content of a file. There is no report if evaluation nests deeper than `depth`, which
counts only where the steps are not limited. -/
def Report.ofRun (content : Except FileFault String) (maxSteps : Option Nat) (depth : Nat) :
    Option Report :=
  match content with
  | .error fault => some (.failure "" (.unreadable fault))
  | .ok text =>
    match Program.parse text with
    | .error diagnostics => some (.failure "" (.malformed diagnostics))
    | .ok program => do
      let (v, σ) ← evaluate program maxSteps depth
      match v.toResult with
      | .ok v => some (.success (σ.printed ++ v.inspect ++ "\n"))
      | .error f => some (.failure σ.printed f)

end Monkey.CommandLine
