import Monkey.Proofs.Syntax.Composition

/-!
# `Monkey.Proofs.Syntax.Reach`: parsers only move forward

Whether it ends with a value or with a diagnostic, a parser stands at a
place that is reached from its start by moving to the next token some
number of times (`Cursor.Reaches`). It never moves back and never leaves
the stream it reads.

The ways in which parsers are put together respect this
(`closedUnderParsing_reaches`), so that it is true of every parser;
`Expr.reaches_parse` and `Statement.reaches_parse` are what is used.
`Cursor.reaches_recover` says the same of going on behind a malformed
statement, and `Cursor.Reaches.suffix` what it means for the lexemes. A
place that is reached is known by what is left to read
(`Cursor.Reaches.unique`).
-/

set_option autoImplicit false

namespace Monkey

/-- The places that are reached by moving on from a place. -/
inductive Cursor.Reaches (c : Cursor) : Cursor → Prop where
  | here : Cursor.Reaches c c
  | next {k : Cursor} (h : Cursor.Reaches c k) : Cursor.Reaches c k.next

namespace Cursor

/-- Moving on from a place that is reached reaches what is reached from there: `Reaches` composes.
By induction on the second way. -/
theorem Reaches.trans {c k m : Cursor} (h : c.Reaches k) (h' : k.Reaches m) : c.Reaches m := by
  induction h' with
  | here => exact h
  | next _ ih => exact ih.next

/-- What is reached from `c.next` is reached from here, with one step more in front. -/
theorem Reaches.of_next {c k : Cursor} (h : c.next.Reaches k) : c.Reaches k :=
  Reaches.here.next.trans h

/-- The lexemes from a place `k` that is reached are the last of those from here, since each step
drops the first of them. -/
theorem Reaches.suffix {c k : Cursor} (h : c.Reaches k) : k.lexemes <:+ c.lexemes := by
  induction h with
  | here => exact List.suffix_rfl
  | next _ ih =>
      rw [lexemes_next]
      exact (List.tail_suffix _).trans ih

/-- From a place that is reached there is no more left to read than from here. All that most
termination arguments need of `Reaches`. -/
theorem Reaches.remaining_le {c k : Cursor} (h : c.Reaches k) : k.remaining ≤ c.remaining := by
  rw [← length_lexemes, ← length_lexemes]
  exact h.suffix.length_le

/-- What stands behind a place is what is left to read from the next one, so `remaining` there is a
length. No case for the end of the text is needed: nothing is left on both sides. -/
theorem remaining_next_eq (c : Cursor) : c.next.remaining = c.behind.length := by
  rw [← length_lexemes, lexemes_next]

/-- Where something stands behind a place there is one lexeme more from the place on, its `current`
one. -/
theorem remaining_of_behind {c : Cursor} (h : c.behind ≠ []) :
    c.remaining = c.behind.length + 1 := by
  have hpos := List.length_pos_iff.2 h
  have hlength : c.behind.length = c.remaining - 1 := by
    rw [behind, List.length_tail, length_lexemes]
  omega

/-- The lexeme ahead, `peek`, is the current one of the next place. By the definitions alone, and
used in both directions. -/
theorem current_next (c : Cursor) : c.next.current = c.peek := by
  rw [current_eq_head?, lexemes_next, ← peek_eq_head?]

/-- At the end of the text moving on stays there, depth included, since `next` drops a token and
there is none. So a place that is reached twice is the same place. -/
theorem next_of_remaining {c : Cursor} (h : c.remaining = 0) : c.next = c := by
  obtain ⟨tokens, endLine, depth⟩ := c
  obtain rfl : tokens = [] := List.length_eq_zero_iff.1 h
  rfl

/-- What is reached is here or reached from `c.next`. How inductions on what remains take a way
apart from its start. -/
theorem Reaches.eq_or_next {c k : Cursor} (h : c.Reaches k) : k = c ∨ c.next.Reaches k := by
  induction h with
  | here => exact .inl rfl
  | next _ ih =>
      rcases ih with rfl | ih
      · exact .inr .here
      · exact .inr ih.next

/-- Of two places that are reached one is reached from the other, since there is one way to move. By
induction on the way to `m`, with `Reaches.eq_or_next` where it has passed `k` or not. -/
theorem Reaches.total {c k m : Cursor} (hk : c.Reaches k) (hm : c.Reaches m) :
    k.Reaches m ∨ m.Reaches k := by
  induction hm with
  | here => exact .inr hk
  | next _ ih =>
      rcases ih with ih | ih
      · exact .inl ih.next
      · rcases ih.eq_or_next with rfl | ih
        · exact .inl (.next .here)
        · exact .inr ih

/-- A place from which there is as much left to read is the same place. Either no step was taken, or
all were taken at the end of the text, where `next` stays. -/
theorem Reaches.eq_of_remaining {c k : Cursor} (h : c.Reaches k)
    (hremaining : k.remaining = c.remaining) : k = c := by
  induction h with
  | here => rfl
  | @next m hm ih =>
      have hle := hm.remaining_le
      rw [remaining_next] at hremaining
      have hm : m = c := ih (by omega)
      rw [hm]
      exact next_of_remaining (by omega)

/-- A place that is reached is known by `remaining`, the number of tokens left to read. Two parsers
that leave the same number of tokens stand at the same place, with the same lines and the same
depth. -/
theorem Reaches.unique {c k m : Cursor} (hk : c.Reaches k) (hm : c.Reaches m)
    (hremaining : k.remaining = m.remaining) : k = m := by
  rcases hk.total hm with h | h
  · exact (h.eq_of_remaining hremaining.symm).symm
  · exact h.eq_of_remaining hremaining

/-- At the end of a text nothing more is given up: `recover` stays there. -/
theorem recover_of_none {c : Cursor} (h : c.current = none) : c.recover = c := by
  rw [recover]
  split
  · rfl
  · rename_i heq
    rw [h] at heq
    cases heq

/-- At a token, what is given up of a malformed statement ends there or is looked for further on.
The equation of `recover` without its termination proof. -/
theorem recover_of_some {c : Cursor} {lexeme : Lexeme} (h : c.current = some lexeme) :
    c.recover =
      if c.depth = 0 ∧ lexeme = .symbol .semicolon then c
      else if c.depth = 0 ∧ lexeme = .symbol .rightBrace then
        if c.peek = some (.symbol .semicolon) then c.next else c
      else c.next.recover := by
  rw [recover]
  split
  · rename_i heq
    rw [h] at heq
    cases heq
  · rename_i heq
    rw [h] at heq
    cases heq
    rfl

/-- Going on behind a malformed statement is moving on: `recover` is reached from where the
statement was given up. By induction on what remains. -/
theorem reaches_recover (c : Cursor) : c.Reaches c.recover := by
  fun_induction Cursor.recover c with
  | case1 => exact .here
  | case2 => exact .here
  | case3 => exact .next .here
  | case4 => exact .here
  | case5 c lexeme _ _ _ _ ih => exact ih.of_next

end Cursor

/-! ### The parsers -/

/-- Moving forward is respected by the ways in which parsers are put together: an instance of
`ClosedUnderParsing`, so it holds of every parser at once. -/
theorem closedUnderParsing_reaches : ClosedUnderParsing fun _ c o => c.Reaches o.place where
  parsed _ _ := .here
  failed _ _ := .here
  onward h := h.of_next
  andThen {_ _ c o f} h hf := by
    cases o with
    | parsed a k => exact h.trans (hf a k rfl)
    | failed d k => exact h

/-- Reading an expression moves forward, whether it ends with a value or with a diagnostic. From
`closedUnderParsing_reaches`. -/
theorem Expr.reaches_parse (p : Precedence) (c : Cursor) : c.Reaches (Expr.parse p c).place :=
  closedUnderParsing_reaches.expression p c

/-- Reading a statement moves forward, its semicolon included. From `closedUnderParsing_reaches`. -/
theorem Statement.reaches_parse (c : Cursor) : c.Reaches (Statement.parse c).place :=
  closedUnderParsing_reaches.statement c

/-- The place where a statement ends is reached: `Statement.reaches_parse` for a statement that is
read. -/
theorem Statement.reaches_of_parsed {c k : Cursor} {s : Statement}
    (h : Statement.parse c = .parsed s k) : c.Reaches k := by
  have hreach := Statement.reaches_parse c
  rwa [h] at hreach

/-- The place where a statement is given up is reached: `Statement.reaches_parse` for a malformed
statement. -/
theorem Statement.reaches_of_failed {c k : Cursor} {d : Diagnostic}
    (h : Statement.parse c = .failed d k) : c.Reaches k := by
  have hreach := Statement.reaches_parse c
  rwa [h] at hreach

end Monkey
