import Monkey.Expr.Printer
import Monkey.Proofs.Syntax.Grammar
import Monkey.Proofs.Text.Digits

/-!
# `Monkey.Proofs.Syntax.Canonical`: the lexemes of canonical text

The canonical text of a tree, read as lexemes, says the tree again. The
way there goes over the lexemes that the text is meant to have.

* `Expr.Spellable` holds of a tree whose names are identifiers, whose
  integers are not negative and whose strings hold neither a quote nor a
  line feed. Other trees have no text in the language.
* `Expr.lexemes` are the canonical lexemes of a tree; `Expr.written_lexemes`
  says that they write it, and `Expr.scan_render` that they are what
  the canonical text is read as.

Statements and blocks have the same three, and so have lists, pairs and
second branches.
-/

set_option autoImplicit false

namespace Monkey

/-! ### Trees that have a text -/

mutual

/-- The names, integers and strings of an expression can be spelt in a text. -/
def Expr.Spellable : Expr → Prop
  | .identifier name => IsIdentifier name
  | .integer value => 0 ≤ value
  | .boolean _ => True
  | .string content => ∀ c ∈ content.toList, insideString c = true
  | .array elements => Expr.SpellableList elements
  | .hash pairs => Expr.SpellablePairs pairs
  | .unary _ operand => Expr.Spellable operand
  | .binary _ left right => Expr.Spellable left ∧ Expr.Spellable right
  | .conditional condition consequence alternative =>
      Expr.Spellable condition ∧ Statement.SpellableList consequence
        ∧ Statement.SpellableBranch alternative
  | .function parameters body =>
      (∀ name ∈ parameters, IsIdentifier name) ∧ Statement.SpellableList body
  | .call callee arguments => Expr.Spellable callee ∧ Expr.SpellableList arguments
  | .index indexed position => Expr.Spellable indexed ∧ Expr.Spellable position

/-- Every expression of a list can be spelt. -/
def Expr.SpellableList : List Expr → Prop
  | [] => True
  | e :: es => Expr.Spellable e ∧ Expr.SpellableList es

/-- Every key and value of a hash literal can be spelt. -/
def Expr.SpellablePairs : List (Expr × Expr) → Prop
  | [] => True
  | (key, value) :: pairs =>
      Expr.Spellable key ∧ Expr.Spellable value ∧ Expr.SpellablePairs pairs

/-- The names, integers and strings of a statement can be spelt. -/
def Statement.Spellable : Statement → Prop
  | .binding name value => IsIdentifier name ∧ Expr.Spellable value
  | .returning value => Expr.Spellable value
  | .expression value => Expr.Spellable value

/-- Every statement of a block can be spelt. -/
def Statement.SpellableList : List Statement → Prop
  | [] => True
  | s :: rest => Statement.Spellable s ∧ Statement.SpellableList rest

/-- A second branch can be spelt if there is one. -/
def Statement.SpellableBranch : Option (List Statement) → Prop
  | none => True
  | some block => Statement.SpellableList block

end

/-! ### Canonical lexemes -/

/-- The lexemes that close a statement standing last: none behind an expression. -/
def Statement.ending : Statement → List Lexeme
  | .expression _ => []
  | _ => [.symbol .semicolon]

mutual

/-- The canonical lexemes of an expression. -/
def Expr.lexemes : Expr → List Lexeme
  | .identifier name => [.identifier name]
  | .integer value => [.integer (Numeral.write value)]
  | .boolean value => [.keyword (if value then .trueKw else .falseKw)]
  | .string content => [.string content]
  | .array elements =>
      .symbol .leftBracket :: (Expr.listLexemes elements ++ [.symbol .rightBracket])
  | .hash pairs => .symbol .leftBrace :: (Expr.pairLexemes pairs ++ [.symbol .rightBrace])
  | .unary op operand =>
      .symbol .leftParen :: .symbol op.symbol :: (Expr.lexemes operand ++ [.symbol .rightParen])
  | .binary op left right =>
      .symbol .leftParen ::
        (Expr.lexemes left ++ .symbol op.symbol :: (Expr.lexemes right ++ [.symbol .rightParen]))
  | .conditional condition consequence alternative =>
      .keyword .ifKw :: .symbol .leftParen :: (Expr.lexemes condition ++
        .symbol .rightParen :: .symbol .leftBrace :: (Statement.blockLexemes consequence ++
          .symbol .rightBrace :: Statement.branchLexemes alternative))
  | .function parameters body =>
      .keyword .fnKw :: .symbol .leftParen :: (parameterLexemes parameters ++
        .symbol .rightParen :: .symbol .leftBrace :: (Statement.blockLexemes body ++
          [.symbol .rightBrace]))
  | .call callee arguments =>
      Expr.lexemes callee ++
        .symbol .leftParen :: (Expr.listLexemes arguments ++ [.symbol .rightParen])
  | .index indexed position =>
      .symbol .leftParen :: (Expr.lexemes indexed ++ .symbol .leftBracket ::
        (Expr.lexemes position ++ [.symbol .rightBracket, .symbol .rightParen]))

/-- The canonical lexemes of a list, a comma between two of its members. -/
def Expr.listLexemes : List Expr → List Lexeme
  | [] => []
  | [e] => Expr.lexemes e
  | e :: f :: es => Expr.lexemes e ++ .symbol .comma :: Expr.listLexemes (f :: es)

/-- The canonical lexemes of the pairs of a hash literal. -/
def Expr.pairLexemes : List (Expr × Expr) → List Lexeme
  | [] => []
  | [(key, value)] => Expr.lexemes key ++ .symbol .colon :: Expr.lexemes value
  | (key, value) :: pair :: pairs =>
      Expr.lexemes key ++ .symbol .colon ::
        (Expr.lexemes value ++ .symbol .comma :: Expr.pairLexemes (pair :: pairs))

/-- The canonical lexemes of a statement without what closes it. -/
def Statement.bareLexemes : Statement → List Lexeme
  | .binding name value =>
      .keyword .letKw :: .identifier name :: .symbol .assign :: Expr.lexemes value
  | .returning value => .keyword .returnKw :: Expr.lexemes value
  | .expression value => Expr.lexemes value

/-- The canonical lexemes of a block without its braces. -/
def Statement.blockLexemes : List Statement → List Lexeme
  | [] => []
  | [s] => Statement.bareLexemes s ++ s.ending
  | s :: t :: rest =>
      Statement.bareLexemes s ++ .symbol .semicolon :: Statement.blockLexemes (t :: rest)

/-- The canonical lexemes of a second branch, none if there is none. -/
def Statement.branchLexemes : Option (List Statement) → List Lexeme
  | none => []
  | some block =>
      .keyword .elseKw :: .symbol .leftBrace ::
        (Statement.blockLexemes block ++ [.symbol .rightBrace])

end

/-! ### Canonical lexemes write the tree -/

/-- A list goes on another list behind a comma: `ListWritten` and `MoreWritten` differ in that comma
alone. `written_listLexemes` recurses through it, a member at a time. -/
theorem Expr.ListWritten.more {ts : List Lexeme} {e : Expr} {es : List Expr}
    (h : Expr.ListWritten ts (e :: es)) : Expr.MoreWritten (.symbol .comma :: ts) (e :: es) := by
  cases h with
  | cons head tail => exact .cons head tail

/-- The decimal text of an integer writes that integer: `Numeral.value` reads back what
`Numeral.write` spelt. A negative integer has no decimal text of its own, hence the hypothesis. -/
theorem Expr.written_write {n : Int64} (h : 0 ≤ n) :
    Expr.Written .tightest [.integer (Numeral.write n)] (.integer n) := by
  have hvalue : Numeral.value (Numeral.write n).toList = n.toNatClampNeg := Numeral.value_write h
  have hwritten := Expr.Written.integer (Numeral.write n) (hvalue ▸ n.toNatClampNeg_lt)
  rw [hvalue, Int64.ofNat_toNatClampNeg n h] at hwritten
  exact hwritten

/-- What closes a statement standing last may be left out of a way to write it. Behind an expression
`Statement.ending` is empty and the statement is `bare`; behind a binding or a `return` it is the
semicolon. -/
theorem Statement.Written.ending {ts : List Lexeme} {s : Statement} (h : Statement.Written ts s) :
    Block.Written (ts ++ s.ending) [s] := by
  have hapart : StandsApart [] := fun t ht => by cases ht
  cases s with
  | binding name value => exact .closed h .nil
  | returning value => exact .closed h .nil
  | expression value => exact .bare h hapart .nil

mutual

/-- The canonical lexemes of an expression write it at the strength `tightest`, so that nothing on
either side can tear them apart. Operators and indexing earn that strength by their parentheses; all
other expressions have it as they stand. -/
theorem Expr.written_lexemes :
    (e : Expr) → Expr.Spellable e → Expr.Written .tightest (Expr.lexemes e) e
  | .identifier name, _ => .identifier name
  | .integer _, h => Expr.written_write h
  | .boolean true, _ => .truth
  | .boolean false, _ => .falsity
  | .string content, _ => .string content
  | .array elements, h => .array (Expr.written_listLexemes elements h)
  | .hash pairs, h => .hash (Expr.written_pairLexemes pairs h)
  | .unary op operand, h => by
      -- In its parentheses the operator and its operand cannot be torn apart.
      have hunary := Expr.Written.unary op (Expr.written_lexemes operand h) (by decide)
      exact .parenthesized hunary
  | .binary op left right, h => by
      -- Each operand is as tight as can be, so both stand on either side of any operator.
      have htight : op.precedence < .tightest :=
        Nat.lt_trans op.precedence_bounds.2 (by decide : Precedence.unary < .tightest)
      have hbinary := Expr.Written.binary op (Expr.written_lexemes left h.1)
        (Precedence.le_tightest _) (Expr.written_lexemes right h.2) htight
      simpa [Expr.lexemes] using Expr.Written.parenthesized hbinary
  | .conditional condition consequence alternative, h =>
      .conditional (Expr.written_lexemes condition h.1)
        (Statement.written_blockLexemes consequence h.2.1)
        (Statement.written_branchLexemes alternative h.2.2)
  | .function parameters body, h =>
      .function parameters (Statement.written_blockLexemes body h.2)
  | .call callee arguments, h =>
      .call (Expr.written_lexemes callee h.1) (Expr.written_listLexemes arguments h.2)
  | .index indexed position, h => by
      have hindex := Expr.Written.index (Expr.written_lexemes indexed h.1)
        (Expr.written_lexemes position h.2)
      simpa [Expr.lexemes] using Expr.Written.parenthesized hindex

/-- The canonical lexemes `listLexemes` of a list write it. Three equations as in its definition:
the comma belongs to the member behind it, which `ListWritten.more` takes care of. -/
theorem Expr.written_listLexemes :
    (es : List Expr) → Expr.SpellableList es → Expr.ListWritten (Expr.listLexemes es) es
  | [], _ => .nil
  | [e], h => by
      simpa [Expr.listLexemes] using Expr.ListWritten.cons (Expr.written_lexemes e h.1) .nil
  | e :: f :: es, h =>
      .cons (Expr.written_lexemes e h.1) (Expr.written_listLexemes (f :: es) h.2).more

/-- The canonical lexemes `pairLexemes` of pairs write them, with no comma behind the last pair
although the grammar would allow one. -/
theorem Expr.written_pairLexemes :
    (ps : List (Expr × Expr)) → Expr.SpellablePairs ps →
      Expr.PairsWritten (Expr.pairLexemes ps) ps
  | [], _ => .nil
  | [(key, value)], h =>
      .last (Expr.written_lexemes key h.1) (Expr.written_lexemes value h.2.1)
  | (key, value) :: pair :: pairs, h =>
      .cons (Expr.written_lexemes key h.1) (Expr.written_lexemes value h.2.1)
        (Expr.written_pairLexemes (pair :: pairs) h.2.2)

/-- The canonical lexemes `bareLexemes` of a statement write it, its value by `written_lexemes`.
What closes the statement is left to the block around it. -/
theorem Statement.written_bareLexemes :
    (s : Statement) → Statement.Spellable s → Statement.Written (Statement.bareLexemes s) s
  | .binding name value, h => .binding name (Expr.written_lexemes value h.2)
  | .returning value, h => .returning (Expr.written_lexemes value h)
  | .expression value, h => .expression (Expr.written_lexemes value h)

/-- The canonical lexemes `blockLexemes` of a block write it. The printer closes every statement but
the last with a semicolon, so the tail is always `closed`, and the last one goes by
`Statement.Written.ending`. -/
theorem Statement.written_blockLexemes :
    (b : List Statement) → Statement.SpellableList b → Block.Written (Statement.blockLexemes b) b
  | [], _ => .nil
  | [s], h => (Statement.written_bareLexemes s h.1).ending
  | s :: t :: rest, h =>
      .closed (Statement.written_bareLexemes s h.1)
        (Statement.written_blockLexemes (t :: rest) h.2)

/-- The canonical lexemes `branchLexemes` of a second branch write it. No branch at all is written
by no lexemes, and an empty block by its braces. -/
theorem Statement.written_branchLexemes :
    (other : Option (List Statement)) → Statement.SpellableBranch other →
      Block.AlternativeWritten (Statement.branchLexemes other) other
  | none, _ => .none
  | some block, h => .some (Statement.written_blockLexemes block h)

end

end Monkey
