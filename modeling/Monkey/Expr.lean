import Monkey.Token

/-!
# `Monkey.Expr`: programs as trees

An expression is what a program computes with, a statement what it is a
sequence of. Blocks, the branches of a conditional and the bodies of
functions, are sequences of statements too, so the two types are defined
together. Parentheses leave no trace in a tree: its shape says what they
said.

* `UnaryOp`, `BinaryOp` are the operators, each written as one `Symbol`.
* `Expr`, `Statement`, `Block` are the trees, `Program` a whole text.
-/

set_option autoImplicit false

namespace Monkey

/-! ### Operators -/

/-- The operators with one operand, written before it. -/
inductive UnaryOp where
  | negate
  | not
  deriving DecidableEq

/-- The operators written between two operands. -/
inductive BinaryOp where
  | add
  | subtract
  | multiply
  | divide
  | equal
  | notEqual
  | less
  | greater
  deriving DecidableEq

namespace UnaryOp

/-- The symbol an operator is written with. -/
def symbol : UnaryOp → Symbol
  | negate => .minus
  | not => .bang

/-- The operator as it is written. -/
def text (op : UnaryOp) : String := op.symbol.text

end UnaryOp

namespace BinaryOp

/-- The symbol an operator is written with. -/
def symbol : BinaryOp → Symbol
  | add => .plus
  | subtract => .minus
  | multiply => .star
  | divide => .slash
  | equal => .equal
  | notEqual => .notEqual
  | less => .less
  | greater => .greater

/-- The operator as it is written. -/
def text (op : BinaryOp) : String := op.symbol.text

end BinaryOp

/-! ### Trees -/

mutual

/-- An expression. -/
inductive Expr where
  | identifier (name : String)
  | integer (value : Int64)
  | boolean (value : Bool)
  | string (content : String)
  | array (elements : List Expr)
  /-- Keys and values in the order written, a repeated key included. -/
  | hash (pairs : List (Expr × Expr))
  | unary (op : UnaryOp) (operand : Expr)
  | binary (op : BinaryOp) (left right : Expr)
  | conditional (condition : Expr) (consequence : List Statement)
      (alternative : Option (List Statement))
  | function (parameters : List String) (body : List Statement)
  | call (callee : Expr) (arguments : List Expr)
  | index (indexed position : Expr)

/-- A statement. -/
inductive Statement where
  | binding (name : String) (value : Expr)
  | returning (value : Expr)
  | expression (value : Expr)

end

/-- The statements of a branch or of a function's body. -/
abbrev Block := List Statement

/-- The statements of a whole text. -/
structure Program where
  statements : Block

end Monkey
