import Monkey.Proofs.Syntax.Acceptance
import Monkey.Proofs.Text.Scan

/-!
# `Monkey.Proofs.Syntax.Magnitude`: numbers in programs are small

A number is written by digits whose value is an integer of the language,
and nothing else in the grammar has digits in it. So no rule brings a
number that is too large into what is written, wherever it may stand, and
a text with such a number is no program.

* `Small` says that lexemes hold no number that is too large;
  `Block.Written.small` and its companions follow the grammar rule by
  rule.
* `Program.parse_eq_error_of_large` is the result for texts.
-/

set_option autoImplicit false

namespace Monkey

/-- Every number among the lexemes is an integer of the language. -/
def Small (ts : List Lexeme) : Prop :=
  ∀ digits, Lexeme.integer digits ∈ ts → Numeral.value digits.toList < Numeral.bound

namespace Small

variable {ts us : List Lexeme}

/-- Without lexemes there are no numbers, so they are all `Small`. -/
theorem nil : Small [] := fun _ h => by cases h

/-- Two runs of lexemes are `Small` together if each is. With `cons` and `enclosed` all that the
constructors of `Expr.Written` need. -/
theorem append (h : Small ts) (h' : Small us) : Small (ts ++ us) := fun digits hmem =>
  (List.mem_append.1 hmem).elim (h digits) (h' digits)

/-- A lexeme that is no number may stand in front. The cases for symbols and reserved words have
their own form below. -/
theorem cons {t : Lexeme} (ht : ∀ digits, t ≠ .integer digits) (h : Small ts) :
    Small (t :: ts) := fun digits hmem =>
  (List.mem_cons.1 hmem).elim (fun heq => absurd heq.symm (ht digits)) (h digits)

/-- A symbol is no number, so it may stand in front of `Small` lexemes. -/
theorem symbol (mark : Symbol) (h : Small ts) : Small (.symbol mark :: ts) :=
  h.cons fun _ heq => by cases heq

/-- A reserved word is no number, so it may stand in front of `Small` lexemes. -/
theorem keyword (word : Keyword) (h : Small ts) : Small (.keyword word :: ts) :=
  h.cons fun _ heq => by cases heq

/-- What is enclosed stands between two symbols and is `Small` with what follows. Any two symbols
will do, so one lemma serves parentheses, brackets and braces. -/
theorem enclosed (opener closer : Symbol) (h : Small ts) (h' : Small us) :
    Small (.symbol opener :: (ts ++ .symbol closer :: us)) :=
  (h.append (h'.symbol closer)).symbol opener

/-- There are no numbers among parameters: `parameterLexemes` are names and commas. -/
theorem parameters (names : List String) : Small (parameterLexemes names) := by
  cases names with
  | nil => exact nil
  | cons name names =>
      rw [parameterLexemes_cons]
      intro digits hmem
      simp at hmem

end Small

mutual

/-- There is no large number in what writes an expression: the constructor `integer` asks for a
value below `Numeral.bound`, and every number of a derivation comes from it. By induction on the
derivation. -/
theorem Expr.Written.small {p : Precedence} {ts : List Lexeme} {e : Expr} :
    Expr.Written p ts e → Small ts
  | .identifier _ => Small.nil.cons fun _ heq => by cases heq
  -- The grammar bounds the literal here; every other form passes the bound on.
  | .integer digits small => fun other hmem => by
      rw [Lexeme.integer.inj (List.mem_singleton.1 hmem)]
      exact small
  | .string _ => Small.nil.cons fun _ heq => by cases heq
  | .truth => Small.nil.keyword _
  | .falsity => Small.nil.keyword _
  | .parenthesized inner => inner.small.enclosed _ _ .nil
  | .array elements => elements.small.enclosed _ _ .nil
  | .hash pairs => pairs.small.enclosed _ _ .nil
  | .conditional condition consequence alternative =>
      (condition.small.enclosed _ _ (consequence.small.enclosed _ _ alternative.small)).keyword _
  | .function names body =>
      ((Small.parameters names).enclosed _ _ (body.small.enclosed _ _ .nil)).keyword _
  | .call callee arguments => callee.small.append (arguments.small.enclosed _ _ .nil)
  | .index indexed position => indexed.small.append (position.small.enclosed _ _ .nil)
  | .unary _ operand _ => operand.small.symbol _
  | .binary _ left _ right _ => left.small.append (right.small.symbol _)

/-- There is no large number in what writes a list, as `Expr.Written.small` says of its expressions.
-/
theorem Expr.ListWritten.small {ts : List Lexeme} {es : List Expr} :
    Expr.ListWritten ts es → Small ts
  | .nil => .nil
  | .cons head tail => head.small.append tail.small

/-- There is no large number in further expressions; the comma in front of each is a symbol, which
`Small` does not look at. -/
theorem Expr.MoreWritten.small {ts : List Lexeme} {es : List Expr} :
    Expr.MoreWritten ts es → Small ts
  | .nil => .nil
  | .cons head tail => (head.small.append tail.small).symbol _

/-- There is no large number in the pairs of a hash literal, neither in keys nor in values. The last
of the mutual lemmas on expressions, along `PairsWritten`. -/
theorem Expr.PairsWritten.small {ts : List Lexeme} {ps : List (Expr × Expr)} :
    Expr.PairsWritten ts ps → Small ts
  | .nil => .nil
  | .last key value => key.small.append (value.small.symbol _)
  | .cons key value tail => key.small.append ((value.small.append (tail.small.symbol _)).symbol _)

/-- There is no large number in what writes a statement, by its one expression; the name of a
binding is no number, and `Small` passes over it. -/
theorem Statement.Written.small {ts : List Lexeme} {s : Statement} :
    Statement.Written ts s → Small ts
  | .binding _ value =>
      ((value.small.symbol _).cons fun _ heq => by cases heq).keyword _
  | .returning value => value.small.keyword _
  | .expression value => value.small

/-- There is no large number in what writes a block, by its statements and the semicolons between
them, along the constructors of `Block.Written`. -/
theorem Block.Written.small {ts : List Lexeme} {b : Block} : Block.Written ts b → Small ts
  | .nil => .nil
  | .closed head tail => head.small.append (tail.small.symbol _)
  | .bare head _ tail => head.small.append tail.small

/-- There is no large number in what writes a second branch. A missing one has no lexemes at all. -/
theorem Block.AlternativeWritten.small {ts : List Lexeme} {other : Option Block} :
    Block.AlternativeWritten ts other → Small ts
  | .none => .nil
  | .some block => (block.small.enclosed _ _ .nil).keyword _

end

/-- A text with a number that is too large is no program: what `Program.parse` accepts is written,
and so `Small`. The text of the smallest integer is refused by it, as `parse_inspect_eq_error` says.
-/
theorem Program.parse_eq_error_of_large {text digits : String}
    (h : .integer digits ∈ scan text.toList)
    (hlarge : Numeral.bound ≤ Numeral.value digits.toList) :
    ∃ diagnostics, Program.parse text = .error diagnostics := by
  cases hparse : Program.parse text with
  | error diagnostics => exact ⟨diagnostics, rfl⟩
  | ok p =>
      have hsmall := (Program.written_of_parse hparse).small digits h
      exact absurd hlarge (Nat.not_le.2 hsmall)

end Monkey
