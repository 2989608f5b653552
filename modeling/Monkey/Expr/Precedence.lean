import Monkey.Expr

/-!
# `Monkey.Expr.Precedence`: how tightly operators bind

What stands behind an operand may continue it: a binary operator, the
opening parenthesis of a call, or the opening bracket of an index. Each
`Continuation` binds with a certain strength, and a parse that runs at
some strength takes in exactly the continuations that bind tighter.
-/

set_option autoImplicit false

namespace Monkey

/-- Binding strengths, the weakest first. -/
inductive Precedence where
  | lowest
  | equality
  | comparison
  | sum
  | product
  | unary
  | call
  | index
  deriving DecidableEq

namespace Precedence

/-- The place of a strength in the ladder. -/
def rank : Precedence → Nat
  | lowest => 0
  | equality => 1
  | comparison => 2
  | sum => 3
  | product => 4
  | unary => 5
  | call => 6
  | index => 7

instance : LT Precedence := ⟨fun p q => p.rank < q.rank⟩

instance : LE Precedence := ⟨fun p q => p.rank ≤ q.rank⟩

instance (p q : Precedence) : Decidable (p < q) := inferInstanceAs (Decidable (p.rank < q.rank))

instance (p q : Precedence) : Decidable (p ≤ q) := inferInstanceAs (Decidable (p.rank ≤ q.rank))

end Precedence

/-- The strength of a binary operator. -/
def BinaryOp.precedence : BinaryOp → Precedence
  | .equal => .equality
  | .notEqual => .equality
  | .less => .comparison
  | .greater => .comparison
  | .add => .sum
  | .subtract => .sum
  | .multiply => .product
  | .divide => .product

/-- What may stand behind an operand and take it in. -/
inductive Continuation where
  | binary (op : BinaryOp)
  | call
  | index
  deriving DecidableEq

namespace Continuation

/-- The strength of a continuation. -/
def precedence : Continuation → Precedence
  | binary op => op.precedence
  | call => .call
  | index => .index

/-- The continuation that a symbol starts, if it starts one. -/
def ofSymbol? : Symbol → Option Continuation
  | .equal => some (binary .equal)
  | .notEqual => some (binary .notEqual)
  | .less => some (binary .less)
  | .greater => some (binary .greater)
  | .plus => some (binary .add)
  | .minus => some (binary .subtract)
  | .star => some (binary .multiply)
  | .slash => some (binary .divide)
  | .leftParen => some call
  | .leftBracket => some index
  | _ => none

/-- The continuation that a lexeme starts, if it starts one. -/
def ofLexeme? : Lexeme → Option Continuation
  | .symbol mark => ofSymbol? mark
  | _ => none

/-- The symbol of a binary operator starts that operator: `Continuation.ofSymbol?` undoes
`BinaryOp.symbol`. The step by which a printed operator is found again where the parser looks for a
continuation. -/
@[simp] theorem ofSymbol?_symbol (op : BinaryOp) : ofSymbol? op.symbol = some (binary op) := by
  cases op <;> rfl

end Continuation

end Monkey
