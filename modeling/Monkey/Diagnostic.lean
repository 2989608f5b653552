import Monkey.Token

/-!
# `Monkey.Diagnostic`: what is wrong with a malformed text

A diagnostic says what would have been accepted at a place of a text and
what was found there instead.
-/

set_option autoImplicit false

namespace Monkey

/-- What a parser would have accepted. -/
inductive Expectation where
  | identifier
  | expression
  /-- A literal whose value is an integer of the language. -/
  | integer
  | symbol (mark : Symbol)
  deriving DecidableEq

/-- How a message names what would have been accepted. -/
def Expectation.describe : Expectation → String
  | identifier => "identifier"
  | expression => "expression"
  | integer => "64-bit integer"
  | symbol mark => "'" ++ mark.text ++ "'"

/-- What would have been accepted at a place, and what stands there. -/
structure Diagnostic where
  expected : Expectation
  found : Found
  deriving DecidableEq

/-- The diagnostic as one line of text. -/
def Diagnostic.render (d : Diagnostic) : String :=
  "line " ++ toString d.found.line ++ ": expected " ++ d.expected.describe ++ ", found "
    ++ d.found.describe

end Monkey
