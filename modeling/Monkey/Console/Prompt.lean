/-!
# `Monkey.Console.Prompt`: what stands before an entry
-/

set_option autoImplicit false

namespace Monkey.Console.Prompt

/-- The left end of the line. -/
def left : String := "rmonkey"

/-- The right end of the line. -/
def right : String := ""

/-- What stands between the left end and the entry. -/
def indicator : String := " >> "

/-- What stands before the further lines of an entry. -/
def continuation : String := "  ... "

/-- What is shown during a search through earlier entries, which is failing if none of them holds
the term. -/
def search (failing : Bool) (term : String) : String :=
  "(" ++ (if failing then "failing " else "") ++ "reverse-search: " ++ term ++ ") "

end Monkey.Console.Prompt
