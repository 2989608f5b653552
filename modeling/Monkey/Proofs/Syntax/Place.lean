import Monkey.Expr.Parser.Equations
import Monkey.Program.Parser

/-!
# `Monkey.Proofs.Syntax.Place`: places as lexemes

A parser decides by lexemes alone. `Cursor.lexemes` and `Cursor.behind`
are what it sees of a place, the lexemes from the current one on and those
behind the current one. The lemmas put every question and every move of
`Monkey.Cursor` in their terms, and turn an outcome that has a value into
the outcomes of its parts.

* `current_eq_head?`, `peek_eq_head?`, `continuation?_eq` are the
  questions, `lexemes_next` and `behind_next` the moves.
* `andThen_eq_parsed`, `require_eq_parsed`, `requireName_eq_parsed` take
  an outcome apart; `remaining_le_of_parse` and its companions say that
  no parser moves back.
-/

set_option autoImplicit false

namespace Monkey

/-! ### What a parser sees -/

namespace Cursor

variable {α : Type}

/-- The lexemes from the current one on. -/
def lexemes (c : Cursor) : List Lexeme := c.tokens.map Token.lexeme

/-- The lexemes behind the current one. -/
def behind (c : Cursor) : List Lexeme := c.lexemes.tail

/-- The current lexeme is the first of `lexemes`, none at the end of the text. With it a fact about
lists of lexemes says what a parser sees. -/
theorem current_eq_head? (c : Cursor) : c.current = c.lexemes.head? := by
  obtain ⟨tokens, endLine, depth⟩ := c
  cases tokens <;> rfl

/-- The lexeme ahead is the first of those behind: `peek` looks one token further than `current`. -/
theorem peek_eq_head? (c : Cursor) : c.peek = c.behind.head? := by
  obtain ⟨tokens, endLine, depth⟩ := c
  match tokens with
  | [] => rfl
  | [_] => rfl
  | _ :: _ :: _ => rfl

/-- What may continue an expression is settled by the first lexeme behind it, through
`Continuation.ofLexeme?`. A binary operator, an opening parenthesis and an opening bracket are the
only ones. -/
theorem continuation?_eq (c : Cursor) :
    c.continuation? = c.behind.head?.bind Continuation.ofLexeme? := by
  rw [continuation?, peek_eq_head?]

/-- The lexemes from the next place on are those behind this one. Moving on and looking ahead are
the same in this, and most proofs about `next` begin here. -/
@[simp] theorem lexemes_next (c : Cursor) : c.next.lexemes = c.behind := by
  simp [next, lexemes, behind]

/-- Behind the next place stand the lexemes behind this one, without the first of them. At the end
of the text both are empty, so `tail` fits there too. -/
@[simp] theorem behind_next (c : Cursor) : c.next.behind = c.behind.tail := by
  rw [behind, lexemes_next]

/-- There are as many lexemes as tokens left to read. It turns `remaining`, by which parsers end,
into a length. -/
@[simp] theorem length_lexemes (c : Cursor) : c.lexemes.length = c.remaining := by
  simp [lexemes, remaining]

/-- With its first lexeme known, a place sees that lexeme as the current one. The form of
`current_eq_head?` for lexemes that are given as a list. -/
theorem current_of_lexemes {c : Cursor} {t : Lexeme} {ts : List Lexeme}
    (h : c.lexemes = t :: ts) : c.current = some t := by
  rw [current_eq_head?, h, List.head?_cons]

/-- With its first lexeme `t` known, a place has the others behind it, which is where a parser that
stands on `t` looks next. -/
theorem behind_of_lexemes {c : Cursor} {t : Lexeme} {ts : List Lexeme}
    (h : c.lexemes = t :: ts) : c.behind = ts := by
  rw [behind, h, List.tail_cons]

/-- With the lexeme behind it known, a place sees that lexeme ahead: `require_of_peek` then goes
past it. -/
theorem peek_of_behind {c : Cursor} {t : Lexeme} {ts : List Lexeme}
    (h : c.behind = t :: ts) : c.peek = some t := by
  rw [peek_eq_head?, h, List.head?_cons]

/-- With the lexeme `t` behind it known, a place has the others behind the next place. Used after
each token a parser goes past. -/
theorem behind_next_of_behind {c : Cursor} {t : Lexeme} {ts : List Lexeme}
    (h : c.behind = t :: ts) : c.next.behind = ts := by
  rw [behind_next, h, List.tail_cons]

/-- What a place sees ahead is the first of the lexemes behind it. The converse of `peek_of_behind`,
with the rest named by the next place. -/
theorem behind_of_peek {c : Cursor} {t : Lexeme} (h : c.peek = some t) :
    c.behind = t :: c.next.behind := by
  rw [peek_eq_head?] at h
  obtain ⟨ts, hts⟩ := List.head?_eq_some_iff.1 h
  rw [behind_next, hts, List.tail_cons]

/-- What a place sees as the current lexeme is the first of its lexemes, and the others are those
`behind` it. -/
theorem lexemes_of_current {c : Cursor} {t : Lexeme} (h : c.current = some t) :
    c.lexemes = t :: c.behind := by
  rw [current_eq_head?] at h
  obtain ⟨ts, hts⟩ := List.head?_eq_some_iff.1 h
  rw [behind, hts, List.tail_cons]

/-- A required symbol that is there is gone past: `require` is then what follows, from the next
place. -/
theorem require_of_peek {c : Cursor} {mark : Symbol} (h : c.peek = some (.symbol mark))
    (goOn : Cursor → Outcome α) : c.require mark goOn = goOn c.next := by
  rw [require, if_pos h]

/-- A required name that is there is gone past, and what follows, `goOn`, is told the name. -/
theorem requireName_of_peek {c : Cursor} {name : String} (h : c.peek = some (.identifier name))
    (goOn : String → Cursor → Outcome α) : c.requireName goOn = goOn name c.next := by
  simp [requireName, h]

/-- A semicolon ahead is gone past, so the place is the next one. With `pastSemicolon_of_ne` the two
ways in which a statement ends. -/
theorem pastSemicolon_of_peek {c : Cursor} (h : c.peek = some (.symbol .semicolon)) :
    c.pastSemicolon = c.next := by
  rw [pastSemicolon, if_pos h]

/-- Without a semicolon ahead there is nothing to go past, so the place stays. A statement behind
that has to stand apart by its own first lexeme, which `Cursor.Stops` sees to. -/
theorem pastSemicolon_of_ne {c : Cursor} (h : c.peek ≠ some (.symbol .semicolon)) :
    c.pastSemicolon = c := by
  rw [pastSemicolon, if_neg h]

end Cursor

/-! ### Outcomes with a value -/

section Parsed

variable {α β : Type}

/-- Behind a value `andThen` goes on from where its parse ended. A `simp` lemma, as is
`andThen_failed`. -/
@[simp] theorem Outcome.andThen_parsed (a : α) (c : Cursor) (f : α → Cursor → Outcome β) :
    (Outcome.parsed a c).andThen f = f a c := rfl

/-- Behind a diagnostic `andThen` does nothing: the diagnostic is the outcome, at the place where it
was given up. -/
@[simp] theorem Outcome.andThen_failed (d : Diagnostic) (c : Cursor)
    (f : α → Cursor → Outcome β) : (Outcome.failed d c).andThen f = .failed d c := rfl

/-- Going on by `andThen` ends with a value exactly when both parts do. Proofs that take a
successful parse apart rewrite with it, so that every part gets its own equation. -/
theorem Outcome.andThen_eq_parsed {o : Outcome α} {f : α → Cursor → Outcome β} {b : β}
    {k : Cursor} :
    o.andThen f = .parsed b k ↔ ∃ a m, o = .parsed a m ∧ f a m = .parsed b k := by
  cases o with
  | parsed a m =>
      constructor
      · intro h
        exact ⟨a, m, rfl, h⟩
      · rintro ⟨a', m', heq, h⟩
        cases heq
        exact h
  | failed d m => simp

/-- Going on behind a required symbol ends with a value exactly when the symbol `mark` is there and
what follows ends with that value. -/
theorem Cursor.require_eq_parsed {c k : Cursor} {mark : Symbol} {goOn : Cursor → Outcome α}
    {a : α} :
    c.require mark goOn = .parsed a k ↔
      c.peek = some (.symbol mark) ∧ goOn c.next = .parsed a k := by
  unfold Cursor.require
  split <;> simp_all

/-- Going on behind a required name ends with a value exactly when a name is there and what follows,
`goOn`, ends with that value. Which name it is, is part of what is known afterwards. -/
theorem Cursor.requireName_eq_parsed {c k : Cursor} {goOn : String → Cursor → Outcome α} {a : α} :
    c.requireName goOn = .parsed a k ↔
      ∃ name, c.peek = some (.identifier name) ∧ goOn name c.next = .parsed a k := by
  unfold Cursor.requireName
  split
  · rename_i name h
    simp [h]
  · rename_i h
    constructor
    · intro hfail
      cases hfail
    · rintro ⟨name, hname, -⟩
      exact absurd hname (h name)

/-- The place where a parse ended lies no earlier than the place where it started: the bound that a
`Parse` carries, read off its outcome. The lemmas below state it for each parser. -/
theorem Parse.remaining_le {c k : Cursor} {a : α} {p : Parse c α} (h : p.val = .parsed a k) :
    k.remaining ≤ c.remaining := by
  have hp := p.property
  rw [h] at hp
  exact hp

end Parsed

/-- An expression ends no earlier than it starts: `remaining` does not grow, the bound by which
readers of several expressions end. -/
theorem Expr.remaining_le_of_parse {p : Precedence} {c k : Cursor} {e : Expr}
    (h : Expr.parse p c = .parsed e k) : k.remaining ≤ c.remaining :=
  Parse.remaining_le h

/-- An operand ends no earlier than it starts, so its continuations have no more tokens to read than
the operand had, and `parseContinuations` may be called behind it. -/
theorem Expr.remaining_le_of_parseOperand {c k : Cursor} {e : Expr}
    (h : Expr.parseOperand c = .parsed e k) : k.remaining ≤ c.remaining :=
  Parse.remaining_le h

/-- A list ends no earlier than it starts, its closing symbol included; `parseList` is read off the
reach of the whole group. -/
theorem Expr.remaining_le_of_parseList {close : Symbol} {c k : Cursor} {es : List Expr}
    (h : Expr.parseList close c = .parsed es k) : k.remaining ≤ c.remaining :=
  Parse.remaining_le h

/-- The parameters of a function end no earlier than they start, their closing parenthesis included.
-/
theorem Expr.remaining_le_of_parseParameters {c k : Cursor} {names : List String}
    (h : Expr.parseParameters c = .parsed names k) : k.remaining ≤ c.remaining :=
  Parse.remaining_le h

/-- A block ends no earlier than it starts, on the brace that closes it, where `Block.parse` has
stopped. -/
theorem Block.remaining_le_of_parse {c k : Cursor} {b : Block}
    (h : Block.parse c = .parsed b k) : k.remaining ≤ c.remaining :=
  Parse.remaining_le h

/-- A statement ends no earlier than it starts. With the token that is gone past behind it,
`Survey.ofCursor` has fewer left. -/
theorem Statement.remaining_le_of_parse {c k : Cursor} {s : Statement}
    (h : Statement.parse c = .parsed s k) : k.remaining ≤ c.remaining :=
  Parse.remaining_le h

end Monkey
