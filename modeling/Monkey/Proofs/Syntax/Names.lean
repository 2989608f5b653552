import Monkey.Value

/-!
# `Monkey.Proofs.Syntax.Names`: the names that stand in a tree

A name stands in a tree as an identifier, as what a `let` binds, or as the
parameter of a function. The bodies of functions are part of the tree.
-/

set_option autoImplicit false

namespace Monkey

mutual

/-- The names that stand in an expression. -/
def Expr.names : Expr → List String
  | .identifier name => [name]
  | .integer _ => []
  | .boolean _ => []
  | .string _ => []
  | .array elements => Expr.namesList elements
  | .hash pairs => Expr.namesPairs pairs
  | .unary _ operand => Expr.names operand
  | .binary _ left right => Expr.names left ++ Expr.names right
  | .conditional condition consequence alternative =>
      Expr.names condition ++ (Statement.namesList consequence ++ Statement.namesBranch alternative)
  | .function parameters body => parameters ++ Statement.namesList body
  | .call callee arguments => Expr.names callee ++ Expr.namesList arguments
  | .index indexed position => Expr.names indexed ++ Expr.names position

/-- The names in the expressions of a list. -/
def Expr.namesList : List Expr → List String
  | [] => []
  | e :: es => Expr.names e ++ Expr.namesList es

/-- The names in the keys and values of a hash literal. -/
def Expr.namesPairs : List (Expr × Expr) → List String
  | [] => []
  | (key, value) :: pairs => (Expr.names key ++ Expr.names value) ++ Expr.namesPairs pairs

/-- The names that stand in a statement. -/
def Statement.names : Statement → List String
  | .binding name value => name :: Expr.names value
  | .returning value => Expr.names value
  | .expression value => Expr.names value

/-- The names in the statements of a block. -/
def Statement.namesList : List Statement → List String
  | [] => []
  | s :: rest => Statement.names s ++ Statement.namesList rest

/-- The names in a second branch, none if there is none. -/
def Statement.namesBranch : Option (List Statement) → List String
  | none => []
  | some block => Statement.namesList block

end

/-- The names that stand in a program. -/
def Program.names (p : Program) : List String := Statement.namesList p.statements

/-- The parameters of a function, and the names in its body. -/
def Closure.names (f : Closure) : List String := f.parameters ++ Statement.namesList f.body

end Monkey
