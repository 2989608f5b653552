import Monkey.Expr
import Monkey.Numeral

/-!
# `Monkey.Expr.Printer`: canonical text of a tree

Every tree has one canonical text. Operators and indexing are put in
parentheses, so the text says the shape of the tree without any
precedence; a call is not, its callee standing before the arguments as it
is. Items of a list are separated by a comma and a space, statements by a
space, and an expression that is followed by another statement is closed
with a semicolon, without which the two would run together.

* `Expr.render`, `Statement.render`, `Block.render`, `Program.render`.
-/

set_option autoImplicit false

namespace Monkey

/-- What closes a statement that is followed by another. A binding or a
return is closed as it stands. -/
def Statement.closer : Statement → String
  | .expression _ => ";"
  | _ => ""

mutual

/-- The canonical text of an expression. -/
def Expr.render : Expr → String
  | .identifier name => name
  | .integer value => Numeral.write value
  | .boolean value => if value then "true" else "false"
  | .string content => "\"" ++ content ++ "\""
  | .array elements => "[" ++ ", ".intercalate (Expr.renderList elements) ++ "]"
  | .hash pairs => "\x7b" ++ ", ".intercalate (Expr.renderPairs pairs) ++ "\x7d"
  | .unary op operand => "(" ++ op.text ++ Expr.render operand ++ ")"
  | .binary op left right =>
      "(" ++ Expr.render left ++ " " ++ op.text ++ " " ++ Expr.render right ++ ")"
  | .conditional condition consequence alternative =>
      "if (" ++ Expr.render condition ++ ") " ++ Statement.renderBlock consequence
        ++ Statement.renderBranch alternative
  | .function parameters body =>
      "fn(" ++ ", ".intercalate parameters ++ ") " ++ Statement.renderBlock body
  | .call callee arguments =>
      Expr.render callee ++ "(" ++ ", ".intercalate (Expr.renderList arguments) ++ ")"
  | .index indexed position => "(" ++ Expr.render indexed ++ "[" ++ Expr.render position ++ "])"

/-- The text of each expression of a list. -/
def Expr.renderList : List Expr → List String
  | [] => []
  | e :: es => Expr.render e :: Expr.renderList es

/-- The text of each pair of a hash literal. -/
def Expr.renderPairs : List (Expr × Expr) → List String
  | [] => []
  | (key, value) :: pairs =>
      (Expr.render key ++ ": " ++ Expr.render value) :: Expr.renderPairs pairs

/-- The canonical text of a statement standing last. -/
def Statement.render : Statement → String
  | .binding name value => "let " ++ name ++ " = " ++ Expr.render value ++ ";"
  | .returning value => "return " ++ Expr.render value ++ ";"
  | .expression value => Expr.render value

/-- The text of each statement of a sequence, closed if another follows. -/
def Statement.renderList : List Statement → List String
  | [] => []
  | s :: [] => [Statement.render s]
  | s :: t :: rest =>
      (Statement.render s ++ s.closer) :: Statement.renderList (t :: rest)

/-- The canonical text of a block with its braces. -/
def Statement.renderBlock : List Statement → String
  | [] => "\x7b\x7d"
  | s :: rest => "\x7b " ++ " ".intercalate (Statement.renderList (s :: rest)) ++ " \x7d"

/-- The text of an alternative, nothing if there is none. -/
def Statement.renderBranch : Option (List Statement) → String
  | none => ""
  | some block => " else " ++ Statement.renderBlock block

end

/-- The canonical text of a block with its braces. -/
def Block.render (b : Block) : String := Statement.renderBlock b

/-- The canonical text of a program. -/
def Program.render (p : Program) : String := " ".intercalate (Statement.renderList p.statements)

/-- The text of a pair is its key's and its value's, with a colon between them, so `renderPairs` is
a map over the pairs. Scanning a printed hash literal (`scan_renderPairs`) goes by this form. -/
theorem Expr.renderPairs_eq_map (ps : List (Expr × Expr)) :
    Expr.renderPairs ps = ps.map fun p => p.1.render ++ ": " ++ p.2.render := by
  induction ps with
  | nil => simp [Expr.renderPairs]
  | cons p ps ih => cases p; simp [Expr.renderPairs, ih]

end Monkey
