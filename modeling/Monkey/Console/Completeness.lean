/-!
# `Monkey.Console.Completeness`: when an entry is finished

An entry that leaves a parenthesis, bracket or brace open awaits more
lines. What stands in a string does not count, and a string ends with its
closing quote or with its line. A closing delimiter that does not fit
will never be balanced, so an entry with one is finished as it is. So is
an entry of white space, which is told without looking for delimiters.
-/

set_option autoImplicit false

namespace Monkey.Console

/-- The characters that Unicode counts as white space. -/
def isWhitespace (c : Char) : Bool :=
  let code := c.toNat
  (9 ≤ code && code ≤ 13) || code == 0x20 || code == 0x85 || code == 0xA0 || code == 0x1680
    || (0x2000 ≤ code && code ≤ 0x200A) || code == 0x2028 || code == 0x2029 || code == 0x202F
    || code == 0x205F || code == 0x3000

/-- The opening delimiter that a closing one belongs to. -/
def opener? : Char → Option Char
  | ')' => some '('
  | ']' => some '['
  | '}' => some '{'
  | _ => none

/-- Whether a character opens a delimited part. -/
def isOpener (c : Char) : Bool := c == '(' || c == '[' || c == '{'

/-- Whether a text awaits more, with the delimiters open so far, the innermost first, and whether
it starts in a string. -/
def awaitsFrom (opened : List Char) (inString : Bool) : List Char → Bool
  | [] => !opened.isEmpty
  | c :: rest =>
    if c = '"' then awaitsFrom opened (!inString) rest
    else if c = '\n' then awaitsFrom opened false rest
    else if inString then awaitsFrom opened true rest
    else if isOpener c then awaitsFrom (c :: opened) false rest
    else
      match opener? c with
      | none => awaitsFrom opened false rest
      | some o => if opened.head? = some o then awaitsFrom opened.tail false rest else false

/-- Whether an entry awaits more lines. -/
def awaitsMore (entry : String) : Bool :=
  if entry.toList.all isWhitespace then false else awaitsFrom [] false entry.toList

end Monkey.Console
