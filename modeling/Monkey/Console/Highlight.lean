import Monkey.Token.Lexer

/-!
# `Monkey.Console.Highlight`: an entry in colors

An entry is cut into segments of one color each: its tokens, each in the
color of its class, and what lies between them. A token is looked for in
what is left of the entry by the characters it is written with.
-/

set_option autoImplicit false

namespace Monkey.Console

/-- The colors of segments. -/
inductive Color where
  | lightBlue
  | yellow
  | white
  | darkGray
  | red
  deriving DecidableEq

/-- The color of what is no token. -/
def Color.plain : Color := .white

/-- The color of a lexeme. -/
def Color.ofLexeme : Lexeme → Color
  | .keyword _ => .lightBlue
  | .integer _ => .yellow
  | .string _ => .yellow
  | .identifier _ => .white
  | .symbol _ => .darkGray
  | .illegal _ => .red

/-- A piece of an entry in one color. -/
structure Segment where
  color : Color
  text : List Char
  deriving DecidableEq

/-- What lies before and behind the first place where `word` occurs. -/
def cutAt? (word : List Char) : List Char → Option (List Char × List Char)
  | [] => if word.isEmpty then some ([], []) else none
  | c :: rest =>
    if word.isPrefixOf (c :: rest) then some ([], (c :: rest).drop word.length)
    else (cutAt? word rest).map fun cut => (c :: cut.1, cut.2)

/-- A segment of what is no token, unless there is nothing. -/
def gap (text : List Char) : List Segment := if text.isEmpty then [] else [⟨.plain, text⟩]

/-- The segments of a text in which the given lexemes occur in order. -/
def segments : List Lexeme → List Char → List Segment
  | [], text => gap text
  | lexeme :: lexemes, text =>
    let word := lexeme.source.toList
    match cutAt? word text with
    | some (before, after) => gap before ++ ⟨.ofLexeme lexeme, word⟩ :: segments lexemes after
    | none => segments lexemes text

/-- An entry cut into its colored segments. -/
def highlight (entry : String) : List Segment := segments (tokenize entry).lexemes entry.toList

end Monkey.Console
