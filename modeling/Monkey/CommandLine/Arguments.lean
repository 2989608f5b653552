import Monkey.Numeral

/-!
# `Monkey.CommandLine.Arguments`: what the program is asked to do

The first argument names a command. Behind it stand options, in any
order, and for some commands a file. An option that takes a value has it
behind an equals sign or as the next argument; behind two dashes alone
nothing is an option.

An argument is *held* when it has been read and is *accepted* only when
the next one is known to be an argument of the command, or when there is
none: an argument the command does not have is an error before anything
that may be wrong with the one in front of it.

* `Command.parse` reads an argument list.
* `Command` is what it may ask for, `ArgumentFault` what may be wrong.
-/

set_option autoImplicit false

namespace Monkey.CommandLine

/-- What the program may be asked to do. -/
inductive Command where
  /-- Evaluates a file and shows the result, within a number of steps if one is given. -/
  | run (file : String) (maxSteps : Option Nat)
  /-- Shows a file in canonical form, with its tokens if they are asked for. -/
  | check (file : String) (tokens : Bool)
  /-- Evaluates entries one after another. -/
  | repl (maxSteps : Option Nat)
  deriving DecidableEq

/-- Why an argument list asks for nothing that can be done. -/
inductive ArgumentFault where
  /-- There are no arguments. -/
  | nothingAsked
  | helpAsked
  | versionAsked
  | unknownCommand
  | unknownArgument
  | missingFile
  /-- An option without its value, or an empty file name. -/
  | emptyValue
  /-- A value for an option that takes none. -/
  | unwantedValue
  | malformedNumber
  | repeatedOption
  deriving DecidableEq

/-! ### Words -/

/-- How an argument reads where options may stand. -/
inductive Word where
  /-- Two dashes alone. -/
  | separator
  | long (name : String) (value : Option String)
  /-- A dash and characters, of which the first decides. -/
  | short (letter : Char)
  | plain (text : String)

/-- How an argument reads. A dash alone is no option. -/
def Word.ofArgument (argument : String) : Word :=
  match argument.toList with
  | ['-', '-'] => .separator
  | '-' :: '-' :: rest =>
    let name := String.ofList (rest.takeWhile (· != '='))
    match rest.dropWhile (· != '=') with
    | [] => .long name none
    | _ :: value => .long name (some (String.ofList value))
  | '-' :: letter :: _ => .short letter
  | _ => .plain argument

/-- The least natural number that is too large for a number of steps, two to the power of 64. -/
def stepBound : Nat := 18446744073709551616

/-- A number of steps: decimal digits, with a plus sign or without, below `stepBound`. -/
def stepCount? (text : String) : Option Nat :=
  let digits := match text.toList with
    | '+' :: rest => rest
    | cs => cs
  let n := Numeral.value digits
  if !digits.isEmpty && digits.all Char.isDigit && n < stepBound then some n else none

/-! ### Options of a command -/

/-- The commands by name. -/
inductive Verb where
  | run
  | check
  | repl
  deriving DecidableEq

/-- The command of this name. -/
def Verb.ofName? : String → Option Verb
  | "run" => some run
  | "check" => some check
  | "repl" => some repl
  | _ => none

/-- Whether the command works on a file. -/
def Verb.takesFile : Verb → Bool
  | repl => false
  | _ => true

/-- The options of commands. -/
inductive Switch where
  | maxSteps
  | tokens
  | help
  deriving DecidableEq

/-- The option of this name that a command has. -/
def Verb.switch? (verb : Verb) (name : String) : Option Switch :=
  match verb, name with
  | _, "help" => some .help
  | run, "max-steps" => some .maxSteps
  | repl, "max-steps" => some .maxSteps
  | check, "tokens" => some .tokens
  | _, _ => none

/-! ### Reading the arguments of a command -/

/-- An argument that has been read and not yet accepted. -/
inductive Held where
  | nothing
  | file (name : String)
  /-- The option for the number of steps, and the argument that is its value if it has been read. -/
  | maxSteps (value : Option String)

/-- What has been read of a command's arguments. -/
structure Reading where
  held : Held
  file : Option String
  maxSteps : Option Nat
  tokens : Bool

namespace Reading

/-- Nothing has been read. -/
def start : Reading := ⟨.nothing, none, none, false⟩

/-- Whether a file has been named. -/
def hasFile (r : Reading) : Bool :=
  match r.held with
  | .file _ => true
  | _ => r.file.isSome

/-- Accepts the argument that is held. An option given twice is looked at before its value. -/
def accept (r : Reading) : Except ArgumentFault Reading :=
  match r.held with
  | .nothing => .ok r
  | .file name =>
    if name.isEmpty then .error .emptyValue
    else .ok { r with held := .nothing, file := some name }
  | .maxSteps none => .error .emptyValue
  | .maxSteps (some value) =>
    if r.maxSteps.isSome then .error .repeatedOption
    else
      match stepCount? value with
      | some n => .ok { r with held := .nothing, maxSteps := some n }
      | none => .error .malformedNumber

/-- Accepts what is held and holds another argument. -/
def hold (r : Reading) (next : Held) : Except ArgumentFault Reading := do
  return { ← r.accept with held := next }

/-- Holds the name of a file, if the command wants one. -/
def holdFile (r : Reading) (verb : Verb) (name : String) : Except ArgumentFault Reading :=
  if verb.takesFile && !r.hasFile then r.hold (.file name) else .error .unknownArgument

/-- Reads arguments none of which is an option. -/
def files (verb : Verb) (r : Reading) : List String → Except ArgumentFault Reading
  | [] => r.accept
  | argument :: rest => do files verb (← r.holdFile verb argument) rest

/-- Reads the arguments of a command. -/
def arguments (verb : Verb) (r : Reading) : List String → Except ArgumentFault Reading
  | [] => r.accept
  | argument :: rest =>
    match Word.ofArgument argument with
    | .separator => files verb r rest
    | .plain text =>
      match r.held with
      | .maxSteps none => arguments verb { r with held := .maxSteps (some text) } rest
      | _ => do arguments verb (← r.holdFile verb text) rest
    | .short letter => do
      if letter = 'h' then
        let _ ← r.accept
        throw .helpAsked
      else throw .unknownArgument
    | .long name value =>
      match verb.switch? name, value with
      | none, _ => .error .unknownArgument
      | some .maxSteps, none => do arguments verb (← r.hold (.maxSteps none)) rest
      | some .maxSteps, some value => do
        arguments verb (← (← r.hold (.maxSteps (some value))).accept) rest
      | some .tokens, none => do
        let r ← r.accept
        if r.tokens then throw .repeatedOption
        arguments verb { r with tokens := true } rest
      | some .help, none => do
        let _ ← r.accept
        throw .helpAsked
      | some _, some _ => .error .unwantedValue

/-- The command that the arguments of a verb make. -/
def command (verb : Verb) (r : Reading) : Except ArgumentFault Command :=
  match verb, r.file with
  | .run, some file => .ok (.run file r.maxSteps)
  | .check, some file => .ok (.check file r.tokens)
  | .repl, _ => .ok (.repl r.maxSteps)
  | _, none => .error .missingFile

end Reading

/-! ### Reading an argument list -/

/-- Whether a word names a command, the one for help included. -/
def isCommand (word : String) : Bool := (Verb.ofName? word).isSome || word == "help"

/-- What is wrong with an argument list that asks for help about commands. Commands have no
commands of their own. -/
def helpFault : List String → ArgumentFault
  | [] => .helpAsked
  | [word] => if isCommand word then .helpAsked else .unknownCommand
  | _ => .unknownCommand

/-- Reads an argument list. -/
def Command.parse : List String → Except ArgumentFault Command
  | [] => .error .nothingAsked
  | argument :: rest =>
    match Word.ofArgument argument with
    | .separator =>
      match rest with
      | [] => .error .nothingAsked
      | word :: _ => .error (if isCommand word then .unknownArgument else .unknownCommand)
    | .long "help" value => .error (if value.isSome then .unwantedValue else .helpAsked)
    | .long "version" value => .error (if value.isSome then .unwantedValue else .versionAsked)
    | .long _ _ => .error .unknownArgument
    | .short 'h' => .error .helpAsked
    | .short 'V' => .error .versionAsked
    | .short _ => .error .unknownArgument
    | .plain word =>
      match Verb.ofName? word with
      | some verb => do (← Reading.start.arguments verb rest).command verb
      | none => .error (if word == "help" then helpFault rest else .unknownCommand)

end Monkey.CommandLine
