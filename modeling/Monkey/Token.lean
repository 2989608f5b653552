/-!
# `Monkey.Token`: the words of the language

A source text is read as a sequence of tokens: a lexeme and the line it
starts on. This file defines the lexemes and the three texts that
belong to each: its *literal* (the characters that were read, a
string's quotes left out), its *source* (the characters as they stand in
a text), and its *description* (how a message names it).

* `Keyword` and `Symbol` are the fixed words, each with one text;
  `Keyword.ofText?` and `Symbol.ofChar?` find a word by its text.
* `Lexeme` adds the words that carry text of their own.
* `Token` is a lexeme with its line, and `Found` what stands at a place
  of a text: a lexeme there, or the end of the text.
-/

set_option autoImplicit false

namespace Monkey

/-! ### Reserved words -/

/-- The reserved words. -/
inductive Keyword where
  | fnKw
  | letKw
  | trueKw
  | falseKw
  | ifKw
  | elseKw
  | returnKw
  deriving DecidableEq

namespace Keyword

/-- The word itself. -/
def text : Keyword → String
  | fnKw => "fn"
  | letKw => "let"
  | trueKw => "true"
  | falseKw => "false"
  | ifKw => "if"
  | elseKw => "else"
  | returnKw => "return"

/-- Every reserved word. -/
def all : List Keyword := [fnKw, letKw, trueKw, falseKw, ifKw, elseKw, returnKw]

/-- The reserved word with this text, if there is one. -/
def ofText? (word : String) : Option Keyword :=
  all.find? fun k => k.text == word

/-- A reserved word is found by its own text, so `Keyword.ofText?` loses none of the words of
`Keyword.text`. It is why a printed keyword is never read back as an identifier. -/
@[simp] theorem ofText?_text (k : Keyword) : ofText? k.text = some k := by
  cases k <;> decide

end Keyword

/-! ### Punctuation and operators -/

/-- The lexemes written with punctuation characters. -/
inductive Symbol where
  | leftParen
  | rightParen
  | leftBrace
  | rightBrace
  | leftBracket
  | rightBracket
  | comma
  | colon
  | semicolon
  | assign
  | plus
  | minus
  | star
  | slash
  | bang
  | greater
  | less
  | equal
  | notEqual
  deriving DecidableEq

namespace Symbol

/-- The symbol as it is written. -/
def text : Symbol → String
  | leftParen => "("
  | rightParen => ")"
  | leftBrace => "\x7b"
  | rightBrace => "\x7d"
  | leftBracket => "["
  | rightBracket => "]"
  | comma => ","
  | colon => ":"
  | semicolon => ";"
  | assign => "="
  | plus => "+"
  | minus => "-"
  | star => "*"
  | slash => "/"
  | bang => "!"
  | greater => ">"
  | less => "<"
  | equal => "=="
  | notEqual => "!="

/-- The symbol written with this one character, if there is one. -/
def ofChar? : Char → Option Symbol
  | '(' => some leftParen
  | ')' => some rightParen
  | '{' => some leftBrace
  | '}' => some rightBrace
  | '[' => some leftBracket
  | ']' => some rightBracket
  | ',' => some comma
  | ':' => some colon
  | ';' => some semicolon
  | '=' => some assign
  | '+' => some plus
  | '-' => some minus
  | '*' => some star
  | '/' => some slash
  | '!' => some bang
  | '>' => some greater
  | '<' => some less
  | _ => none

end Symbol

/-! ### Lexemes -/

/-- One word of a source text. -/
inductive Lexeme where
  /-- Characters that start no other lexeme, or a string that its line does not close. -/
  | illegal (text : String)
  | identifier (name : String)
  /-- A run of decimal digits, as written. -/
  | integer (digits : String)
  /-- A string literal, without its quotes. -/
  | string (content : String)
  | keyword (word : Keyword)
  | symbol (mark : Symbol)
  deriving DecidableEq

namespace Lexeme

/-- A word of letters, digits and underscores: a reserved word, or else an identifier. -/
def ofWord (word : String) : Lexeme :=
  match Keyword.ofText? word with
  | some k => .keyword k
  | none => .identifier word

/-- The name of the lexeme's class. A fixed word is a class of its own, named by its text. -/
def className : Lexeme → String
  | illegal _ => "ILLEGAL"
  | identifier _ => "IDENT"
  | integer _ => "INT"
  | string _ => "STRING"
  | keyword k => k.text
  | symbol s => s.text

/-- The characters that were read, a string's quotes left out. -/
def literal : Lexeme → String
  | illegal text => text
  | identifier name => name
  | integer digits => digits
  | string content => content
  | keyword k => k.text
  | symbol s => s.text

/-- The characters of the lexeme as they stand in a source text. -/
def source : Lexeme → String
  | string content => "\"" ++ content ++ "\""
  | lexeme => lexeme.literal

/-- How a message names the lexeme. -/
def describe : Lexeme → String
  | string content => "STRING \"" ++ content ++ "\""
  | keyword k => "'" ++ k.text ++ "'"
  | symbol s => "'" ++ s.text ++ "'"
  | lexeme => lexeme.className ++ " '" ++ lexeme.literal ++ "'"

end Lexeme

/-! ### Tokens -/

/-- A lexeme and the line it starts on, counted from one. -/
structure Token where
  lexeme : Lexeme
  line : Nat
  deriving DecidableEq

/-- What stands at a place of a text: a lexeme, or nothing but the end of the text. -/
structure Found where
  lexeme : Option Lexeme
  line : Nat
  deriving DecidableEq

/-- A token is found where it stands. -/
def Token.found (t : Token) : Found := ⟨some t.lexeme, t.line⟩

namespace Found

/-- The class of what was found; the end of a text is a class of its own. -/
def className (f : Found) : String := f.lexeme.elim "EOF" Lexeme.className

/-- The characters that were read, none at the end of a text. -/
def literal (f : Found) : String := f.lexeme.elim "" Lexeme.literal

/-- How a message names what was found. -/
def describe (f : Found) : String := f.lexeme.elim "end of input" Lexeme.describe

end Found

end Monkey
