import Monkey.CommandLine.Arguments
import Monkey.CommandLine.Execute
import Monkey.Console.Completeness
import Monkey.Console.Prompt
import Monkey.Console.Reply

/-!
# `Monkey.Main`: the command line

The program itself: it reads its arguments and the files they name, and
shows what the commands answer. Entries are read from the standard input
line by line, until one is finished.
-/

set_option autoImplicit false

namespace Monkey.CommandLine

/-- The content of a file. -/
def readText (file : String) : IO (Except FileFault String) := do
  try
    match String.fromUTF8? (← IO.FS.readBinFile file) with
    | some text => return .ok text
    | none => return .error .notText
  catch
    | .noFileOrDirectory .. => return .error .notFound
    | e => return .error (.other (toString e))

/-- Shows a report and gives its exit code. -/
def Report.emit (r : Report) : IO UInt32 := do
  IO.print r.output
  IO.eprint r.complaints
  return UInt32.ofNat r.code

/-- How to use the program. -/
def usage : String :=
  "Usage: rmonkey <COMMAND>\n\nCommands:\n"
    ++ "  run <FILE> [--max-steps <N>]  Evaluate a source file and print its result\n"
    ++ "  check <FILE> [--tokens]       Check a source file for errors\n"
    ++ "  repl [--max-steps <N>]        Evaluate entries one after another\n"

/-- Answers an argument list that asks for nothing that can be done. -/
def ArgumentFault.emit (f : ArgumentFault) : IO UInt32 := do
  match f with
  | .helpAsked => IO.print usage; return 0
  | .versionAsked => IO.println "rmonkey"; return 0
  | _ => IO.eprint usage; return 2

/-- Reads an entry, which is none at the end of the input. -/
partial def readEntry (input : IO.FS.Stream) (entry : String) : IO (Option String) := do
  IO.print <|
    if entry.isEmpty then Console.Prompt.left ++ Console.Prompt.indicator
    else Console.Prompt.continuation
  (← IO.getStdout).flush
  let line ← input.getLine
  if line.isEmpty then return if entry.isEmpty then none else some entry
  let entry := entry ++ line
  if Console.awaitsMore entry then readEntry input entry else return some entry

/-- Evaluates entries in a scope until the input ends. -/
partial def converse (input : IO.FS.Stream) (maxSteps : Option Nat) (scope : ScopeId)
    (σ : Store) : IO Unit := do
  match ← readEntry input "" with
  | none => return
  | some entry =>
    match Program.parse entry with
    | .error diagnostics =>
      IO.eprintln (Failure.malformed diagnostics).message
      converse input maxSteps scope σ
    | .ok program =>
      match program.run maxSteps (depthFor maxSteps ampleDepth) scope { σ with printed := "" } with
      | none =>
        IO.eprintln "evaluation nests too deeply"
        converse input maxSteps scope σ
      | some (v, σ) =>
        IO.print σ.printed
        if let some line := Console.reply? program v then IO.println line
        converse input maxSteps scope σ

/-- Does what a command asks for. -/
def Command.execute : Command → IO UInt32
  | .run file maxSteps => do
    match Report.ofRun (← readText file) maxSteps ampleDepth with
    | some report => report.emit
    | none => IO.eprintln "evaluation nests too deeply"; return 1
  | .check file tokens => do (Report.ofCheck (← readText file) tokens).emit
  | .repl maxSteps => do
    let (scope, σ) := Store.empty.addScope none
    converse (← IO.getStdin) maxSteps scope σ
    return 0

end Monkey.CommandLine

open Monkey.CommandLine in
/-- The program. -/
def main (args : List String) : IO UInt32 :=
  match Command.parse args with
  | .ok command => command.execute
  | .error fault => fault.emit
