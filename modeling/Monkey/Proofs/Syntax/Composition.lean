import Monkey.Proofs.Syntax.Lookahead

/-!
# `Monkey.Proofs.Syntax.Composition`: how parsers are put together

A relation between places and outcomes that is closed under the few ways in
which parsers are put together holds between any place and what is read
from there. `ClosedUnderParsing` lists these ways, one field for each: a value is
given, something is missing, reading starts one token further on, or goes on
from where another parse ended. The theorems below follow the equations of
the parsers once and for all.

* `Expectation.sight` is where a parser looks for what it expects.
* `ClosedUnderParsing.require` and `ClosedUnderParsing.requireName` are
  derived from the fields.
* `ClosedUnderParsing.expression`, `ClosedUnderParsing.statement` and their
  companions are one for each parser.
-/

set_option autoImplicit false

namespace Monkey

/-- Where a parser looks for what it expects. It stands on the first token of an expression and on
the brace that closes a block, and everything else is expected ahead. -/
def Expectation.sight : Expectation → Sight
  | expression => .here
  | integer => .here
  | symbol .rightBrace => .here
  | _ => .ahead

/-- A relation between the place where a parser starts and its outcome respects the ways in which
parsers are put together. -/
structure ClosedUnderParsing (P : (α : Type) → Cursor → Outcome α → Prop) : Prop where
  parsed {α : Type} (c : Cursor) (a : α) : P α c (.parsed a c)
  /-- What is missing is told with what stands in its place. -/
  failed {α : Type} (c : Cursor) (expected : Expectation) :
    P α c (.failed ⟨expected, c.look expected.sight⟩ c)
  onward {α : Type} {c : Cursor} {o : Outcome α} : P α c.next o → P α c o
  andThen {α β : Type} {c : Cursor} {o : Outcome α} {f : α → Cursor → Outcome β} : P α c o →
    (∀ a k, o = .parsed a k → P β k (f a k)) → P β c (o.andThen f)

namespace ClosedUnderParsing

variable {P : (α : Type) → Cursor → Outcome α → Prop}

section Parts

variable {α : Type} {c : Cursor}

/-- A required symbol is gone past, or missing ahead. The symbol must be one that is looked for
ahead (`hmark`); the closing brace of a block is looked for on the current token instead. -/
theorem require (hP : ClosedUnderParsing P) {mark : Symbol} {goOn : Cursor → Outcome α}
    (hmark : (Expectation.symbol mark).sight = .ahead)
    (h : c.peek = some (.symbol mark) → P α c.next (goOn c.next)) :
    P α c (c.require mark goOn) := by
  unfold Cursor.require
  split
  · rename_i hpeek
    exact hP.onward (h hpeek)
  · have hfailed : P α c (.failed ⟨.symbol mark, c.look (Expectation.symbol mark).sight⟩ c) :=
      hP.failed c (.symbol mark)
    rw [hmark] at hfailed
    exact hfailed

/-- A required name is gone past, or missing ahead. As `require`, without its side condition: an
`identifier` is always looked for ahead. -/
theorem requireName (hP : ClosedUnderParsing P) {goOn : String → Cursor → Outcome α}
    (h : ∀ name, c.peek = some (.identifier name) → P α c.next (goOn name c.next)) :
    P α c (c.requireName goOn) := by
  unfold Cursor.requireName
  split
  · rename_i name hpeek
    exact hP.onward (h name hpeek)
  · exact hP.failed c .identifier

/-- A semicolon ahead may be gone past behind a value: `pastSemicolon` is `next` or nothing, and
`onward` covers the first of the two. -/
theorem closing (hP : ClosedUnderParsing P) (a : α) : P α c (.parsed a c.pastSemicolon) := by
  unfold Cursor.pastSemicolon
  split
  · exact hP.onward (hP.parsed c.next a)
  · exact hP.parsed c a

end Parts

/-- What is closed under parsing holds of further parameters. By induction on what remains, along
`parseMoreParameters_eq`: two tokens are gone past before the parser calls itself. -/
theorem moreParameters (hP : ClosedUnderParsing P) (c : Cursor) :
    P _ c (Expr.parseMoreParameters c) := by
  rw [Expr.parseMoreParameters_eq]
  split
  · rename_i hcomma
    have hpos := Cursor.remaining_of_peek hcomma
    refine hP.onward (hP.requireName fun name _ => ?_)
    exact hP.andThen (hP.moreParameters c.next.next) fun _ k _ => hP.parsed k _
  · exact hP.require rfl fun _ => hP.parsed c.next _
termination_by c.remaining
decreasing_by simp only [Cursor.remaining_next]; omega

/-- What is closed under parsing holds of the parameters of a function, which are one name and then
`moreParameters`, or nothing. -/
theorem parameters (hP : ClosedUnderParsing P) (c : Cursor) : P _ c (Expr.parseParameters c) := by
  rw [Expr.parseParameters_eq]
  split
  · exact hP.onward (hP.parsed c.next _)
  · refine hP.requireName fun name _ => ?_
    exact hP.andThen (hP.moreParameters c.next) fun _ k _ => hP.parsed k _

mutual

/-- What is closed under parsing holds of an expression. It opens the mutual block over the nine
parsers that call each other, each by its own equation and ordered by what remains of the tokens. -/
theorem expression (hP : ClosedUnderParsing P) (p : Precedence) (c : Cursor) :
    P _ c (Expr.parse p c) := by
  rw [Expr.parse_eq]
  refine hP.andThen (hP.operand c) fun left k hk => ?_
  -- Here and below, what has been read so far bounds what remains, and the recursion ends.
  have hkle := Expr.remaining_le_of_parseOperand hk
  exact hP.continuations p left k
termination_by 8 * c.remaining + 2

/-- What is closed under parsing holds of what continues an expression. Whatever the left operand
is: the relation `P` sees the place and the outcome and not the tree. -/
theorem continuations (hP : ClosedUnderParsing P) (p : Precedence) (left : Expr) (c : Cursor) :
    P _ c (Expr.parseContinuations p left c) := by
  rw [Expr.parseContinuations_eq]
  split
  · exact hP.parsed c left
  · rename_i kind hkind
    have hpos := Cursor.remaining_of_continuation? hkind
    split
    · cases kind with
      | binary op =>
          refine hP.onward (hP.onward (hP.andThen (hP.expression _ c.next.next) ?_))
          intro right k hk
          have hkle := Expr.remaining_le_of_parse hk
          exact hP.continuations p _ k
      | call =>
          refine hP.onward (hP.onward (hP.andThen (hP.list _ rfl c.next.next) ?_))
          intro arguments k hk
          have hkle := Expr.remaining_le_of_parseList hk
          exact hP.continuations p _ k
      | index =>
          refine hP.onward (hP.onward (hP.andThen (hP.expression _ c.next.next) ?_))
          intro position k hk
          have hkle := Expr.remaining_le_of_parse hk
          exact hP.require rfl fun _ => hP.continuations p _ k.next
    · exact hP.parsed c left
termination_by 8 * c.remaining + 1
decreasing_by all_goals (try simp only [Cursor.remaining_next] at *); omega

/-- What is closed under parsing holds of an operand. One case for each lexeme it may start with, in
the order of `parseOperand_eq`; an operand that cannot start is missing on the current token. -/
theorem operand (hP : ClosedUnderParsing P) (c : Cursor) : P _ c (Expr.parseOperand c) := by
  cases hc : c.current with
  | none =>
      simp only [Expr.parseOperand_eq, hc]
      exact hP.failed c .expression
  | some t =>
      have hpos := Cursor.remaining_of_current hc
      rw [Expr.parseOperand_eq]
      split
      -- A single lexeme is a value or no integer of the language.
      · exact hP.parsed c _
      · split
        · exact hP.parsed c _
        · exact hP.failed c .integer
      · exact hP.parsed c _
      · exact hP.parsed c _
      · exact hP.parsed c _
      -- The two unary operators.
      · exact hP.onward (hP.andThen (hP.expression _ c.next) fun _ k _ => hP.parsed k _)
      · exact hP.onward (hP.andThen (hP.expression _ c.next) fun _ k _ => hP.parsed k _)
      -- What stands between parentheses, brackets and braces.
      · refine hP.onward (hP.andThen (hP.expression _ c.next) fun _ k _ => ?_)
        exact hP.require rfl fun _ => hP.parsed k.next _
      · exact hP.onward (hP.andThen (hP.list _ rfl c.next) fun _ k _ => hP.parsed k _)
      · exact hP.onward (hP.andThen (hP.pairs c.next) fun _ k _ => hP.parsed k _)
      · -- A conditional.
        refine hP.require rfl fun _ => hP.onward ?_
        refine hP.andThen (hP.expression _ c.next.next) fun condition k hk => ?_
        have hkle := Expr.remaining_le_of_parse hk
        refine hP.require rfl fun _ => hP.require rfl fun _ => hP.onward ?_
        refine hP.andThen (hP.block k.next.next.next) fun consequence m hm => ?_
        have hmle := Block.remaining_le_of_parse hm
        exact hP.andThen (hP.alternative m) fun _ n _ => hP.parsed n _
      · -- A function literal.
        refine hP.require rfl fun _ => ?_
        refine hP.andThen (hP.parameters c.next) fun names k hk => ?_
        have hkle := Expr.remaining_le_of_parseParameters hk
        refine hP.require rfl fun _ => hP.onward ?_
        exact hP.andThen (hP.block k.next.next) fun _ m _ => hP.parsed m _
      · exact hP.failed c .expression
termination_by 8 * c.remaining + 1
decreasing_by all_goals (try simp only [Cursor.remaining_next] at *); omega

/-- What is closed under parsing holds of the second branch of a conditional, which is a block
behind `else` or nothing at all. -/
theorem alternative (hP : ClosedUnderParsing P) (c : Cursor) :
    P _ c (Block.parseAlternative c) := by
  rw [Block.parseAlternative_eq]
  split
  · rename_i helse
    have hpos := Cursor.remaining_of_peek helse
    refine hP.onward (hP.require rfl fun _ => hP.onward ?_)
    exact hP.andThen (hP.block c.next.next.next) fun _ k _ => hP.parsed k _
  · exact hP.parsed c _
termination_by 8 * c.remaining
decreasing_by simp only [Cursor.remaining_next]; omega

/-- What is closed under parsing holds of a list. Lists are not closed by a brace, which `hclose`
says, so their closing mark is looked for ahead. -/
theorem list (hP : ClosedUnderParsing P) (close : Symbol)
    (hclose : (Expectation.symbol close).sight = .ahead) (c : Cursor) :
    P _ c (Expr.parseList close c) := by
  rw [Expr.parseList_eq]
  split
  · exact hP.parsed c _
  · refine hP.andThen (hP.expression _ c) fun e k hk => ?_
    have hkle := Expr.remaining_le_of_parse hk
    exact hP.andThen (hP.moreItems close hclose k) fun _ m _ => hP.parsed m _
termination_by 8 * c.remaining + 3

/-- What is closed under parsing holds of further expressions. Behind a comma the parser calls
itself two tokens later; else the closing mark is required. -/
theorem moreItems (hP : ClosedUnderParsing P) (close : Symbol)
    (hclose : (Expectation.symbol close).sight = .ahead) (c : Cursor) :
    P _ c (Expr.parseMoreItems close c) := by
  rw [Expr.parseMoreItems_eq]
  split
  · rename_i hcomma
    have hpos := Cursor.remaining_of_peek hcomma
    refine hP.onward (hP.onward (hP.andThen (hP.expression _ c.next.next) ?_))
    intro e k hk
    have hkle := Expr.remaining_le_of_parse hk
    exact hP.andThen (hP.moreItems close hclose k) fun _ m _ => hP.parsed m _
  · exact hP.require hclose fun _ => hP.parsed c.next _
termination_by 8 * c.remaining
decreasing_by all_goals (try simp only [Cursor.remaining_next] at *); omega

/-- What is closed under parsing holds of the pairs of a hash literal. The brace that closes them is
looked for ahead by comparison and never by `require`, so a missing one is told as a missing comma.
-/
theorem pairs (hP : ClosedUnderParsing P) (c : Cursor) : P _ c (Expr.parsePairs c) := by
  rw [Expr.parsePairs_eq]
  split
  · exact hP.parsed c _
  · refine hP.andThen (hP.expression _ c) fun key k hk => ?_
    have hkle := Expr.remaining_le_of_parse hk
    refine hP.require rfl fun hcolon => hP.onward ?_
    have hpos := Cursor.remaining_of_peek hcolon
    refine hP.andThen (hP.expression _ k.next.next) fun value m hm => ?_
    have hmle := Expr.remaining_le_of_parse hm
    split
    · exact hP.onward (hP.parsed m.next _)
    · refine hP.require rfl fun _ => hP.onward ?_
      exact hP.andThen (hP.pairs m.next.next) fun _ n _ => hP.parsed n _
termination_by 8 * c.remaining + 3
decreasing_by all_goals (try simp only [Cursor.remaining_next] at *); omega

/-- What is closed under parsing holds of a block. Its closing brace is looked for on the current
token, the one mark whose `sight` is `here`. -/
theorem block (hP : ClosedUnderParsing P) (c : Cursor) : P _ c (Block.parse c) := by
  rw [Block.parse_eq]
  split
  · exact hP.failed c (.symbol .rightBrace)
  · rename_i lexeme hcurrent
    have hpos := Cursor.remaining_of_current hcurrent
    split
    · exact hP.parsed c _
    · refine hP.andThen (hP.statement c) fun s k hk => hP.onward ?_
      have hkle := Statement.remaining_le_of_parse hk
      exact hP.andThen (hP.block k.next) fun _ m _ => hP.parsed m _
termination_by 8 * c.remaining + 4
decreasing_by all_goals (try simp only [Cursor.remaining_next] at *); omega

/-- What is closed under parsing holds of a statement. The theorem the whole block is for:
an instance of `ClosedUnderParsing` becomes a fact about every statement that is parsed. -/
theorem statement (hP : ClosedUnderParsing P) (c : Cursor) : P _ c (Statement.parse c) := by
  rw [Statement.parse_eq]
  split
  · rename_i hcurrent
    have hpos := Cursor.remaining_of_current hcurrent
    refine hP.requireName fun name _ => hP.require rfl fun _ => hP.onward ?_
    exact hP.andThen (hP.expression _ c.next.next.next) fun _ k _ => hP.closing _
  · rename_i hcurrent
    have hpos := Cursor.remaining_of_current hcurrent
    exact hP.onward (hP.andThen (hP.expression _ c.next) fun _ k _ => hP.closing _)
  · exact hP.andThen (hP.expression _ c) fun _ k _ => hP.closing _
termination_by 8 * c.remaining + 3
decreasing_by all_goals (try simp only [Cursor.remaining_next] at *); omega

end

end ClosedUnderParsing

end Monkey
