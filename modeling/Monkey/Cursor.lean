import Monkey.Diagnostic
import Monkey.Token.Lexer

/-!
# `Monkey.Cursor`: a place in a token stream

A parser looks at two tokens, the current one and the one ahead of it,
and moves in one direction. `Cursor` is the place it has reached: the
tokens from the current one on, and how many braces are open there. At
the end of the text there is no current token, and moving on stays there.

A parse from a place ends at a place that lies no earlier, with a value
or with a diagnostic. `Outcome` is that answer and `Parse c` an outcome
together with the reason why it lies no earlier than `c`; the reason is
what lets one parser call another on what is left.

* `Cursor.next` moves to the next token, `Cursor.remaining` counts the
  tokens from the current one on, and `remaining_next` says that
  moving takes one away.
* `Parse.andThen` goes on from where a parse ended, `Parse.onward` starts
  one token later, and `Cursor.expect` and `Cursor.expectName` move on
  only over a token of the class asked for. `Cursor.require` and
  `Cursor.requireName` are the same on outcomes alone, and the lemmas
  `val_andThen`, `val_expect`, `val_expectName` and `val_closing` say so.
-/

set_option autoImplicit false

namespace Monkey

/-! ### Places -/

/-- A place in a token stream: the tokens from the current one on, the line on which the text ends,
and the number of braces opened and not yet closed, up to and including the current token. -/
structure Cursor where
  tokens : List Token
  endLine : Nat
  depth : Nat

namespace Cursor

/-- The number of open braces after one more lexeme. A closing brace too many counts for nothing. -/
def depthAfter (depth : Nat) : Option Lexeme → Nat
  | some (.symbol .leftBrace) => depth + 1
  | some (.symbol .rightBrace) => depth - 1
  | _ => depth

/-- What stands first in a list of tokens. -/
def foundIn (endLine : Nat) : List Token → Found
  | [] => ⟨none, endLine⟩
  | t :: _ => t.found

/-- What stands at the place. -/
def here (c : Cursor) : Found := foundIn c.endLine c.tokens

/-- What stands behind the current token. -/
def ahead (c : Cursor) : Found := foundIn c.endLine c.tokens.tail

/-- The current lexeme, none at the end of the text. -/
def current (c : Cursor) : Option Lexeme := c.here.lexeme

/-- The lexeme behind the current one, none if the text ends there. -/
def peek (c : Cursor) : Option Lexeme := c.ahead.lexeme

/-- The first place of a token stream. -/
def start (s : TokenStream) : Cursor :=
  ⟨s.tokens, s.endLine, depthAfter 0 (foundIn s.endLine s.tokens).lexeme⟩

/-- The next place. -/
def next (c : Cursor) : Cursor :=
  { c with tokens := c.tokens.tail, depth := depthAfter c.depth c.peek }

/-- The number of tokens from the current one on. -/
def remaining (c : Cursor) : Nat := c.tokens.length

/-- Moving on leaves one token less, as long as there is one. At the end of the text `next`
stays where it is and both sides are `0`, so the truncated subtraction needs no side condition.
Every termination argument of the parser ends in this lemma. -/
@[simp] theorem remaining_next (c : Cursor) : c.next.remaining = c.remaining - 1 := by
  simp [next, remaining]

/-- Where `current` shows a lexeme there is a token left. The one fact a reader needs before it may
call `next` and be sure that `remaining` went down. -/
theorem remaining_of_current {c : Cursor} {x : Lexeme} (h : c.current = some x) :
    0 < c.remaining := by
  obtain ⟨tokens, endLine, depth⟩ := c
  cases tokens with
  | nil => simp [current, here, foundIn] at h
  | cons t ts => simp [remaining]

/-- Where `peek` shows a lexeme there are two tokens left, the current one and the one ahead.
`expect` and `expectName` hand this bound on to what they go on with, so a parser that moved past a
mark still has a current token. -/
theorem remaining_of_peek {c : Cursor} {x : Lexeme} (h : c.peek = some x) :
    1 < c.remaining := by
  obtain ⟨tokens, endLine, depth⟩ := c
  match tokens with
  | [] => simp [peek, ahead, foundIn] at h
  | [_] => simp [peek, ahead, foundIn] at h
  | _ :: _ :: _ => simp [remaining]

end Cursor

/-! ### Outcomes -/

/-- How a parse ends: with a value, standing on the last token that belongs to it, or with a
diagnostic, standing where the parser gave up. -/
inductive Outcome (α : Type) where
  | parsed (value : α) (place : Cursor)
  | failed (diagnostic : Diagnostic) (place : Cursor)

namespace Outcome

variable {α β : Type}

/-- Where the parse ended. -/
def place : Outcome α → Cursor
  | parsed _ c => c
  | failed _ c => c

/-- Goes on with a value from where its parse ended; a diagnostic is final. -/
def andThen (o : Outcome α) (f : α → Cursor → Outcome β) : Outcome β :=
  match o with
  | parsed a c => f a c
  | failed d c => failed d c

end Outcome

/-- An outcome that lies no earlier than the place `c`. -/
abbrev Parse (c : Cursor) (α : Type) : Type :=
  { o : Outcome α // o.place.remaining ≤ c.remaining }

namespace Parse

variable {c : Cursor} {α β : Type}

/-- A value that ends on the current token. -/
def done (a : α) : Parse c α := ⟨.parsed a c, Nat.le_refl _⟩

/-- Gives up at the current token. -/
def fail (d : Diagnostic) : Parse c α := ⟨.failed d c, Nat.le_refl _⟩

/-- A parse from one token further on, which also lies no earlier than here. -/
def onward (p : Parse c.next α) : Parse c α :=
  ⟨p.val, Nat.le_trans p.property (by simp)⟩

/-- Goes on with a value from where its parse ended. -/
def andThen (p : Parse c α)
    (f : (a : α) → (k : Cursor) → k.remaining ≤ c.remaining → Parse k β) : Parse c β :=
  match p with
  | ⟨.parsed a k, h⟩ => ⟨(f a k h).val, Nat.le_trans (f a k h).property h⟩
  | ⟨.failed d k, h⟩ => ⟨.failed d k, h⟩

/-- The outcome of `done` is the value at the place itself. With `val_fail` and `val_onward` it lets
`simp` drop the bound a `Parse` carries and speak of its `Outcome` alone. -/
@[simp] theorem val_done (a : α) : (done a : Parse c α).val = .parsed a c := rfl

/-- The outcome of `fail` is the diagnostic at the place itself, the token it was given up on not
yet passed. -/
@[simp] theorem val_fail (d : Diagnostic) : (fail d : Parse c α).val = .failed d c := rfl

/-- Reading from one token further on changes the bound of a `Parse` and not its outcome.
`parseContinuations_eq` rewrites with it wherever an operator or a bracket is passed first. -/
@[simp] theorem val_onward (p : Parse c.next α) : (onward p).val = p.val := rfl

/-- The outcome of going on with `Parse.andThen` is `Outcome.andThen` of the outcomes. It holds for
a `g` that ignores the bound it is handed, the form every reader of the parser has, and turns such a
reader into its equation. -/
@[simp] theorem val_andThen (p : Parse c α) (g : α → (k : Cursor) → Parse k β) :
    (p.andThen fun a k _ => g a k).val = p.val.andThen fun a k => (g a k).val := by
  obtain ⟨o, h⟩ := p
  cases o <;> rfl

end Parse

/-! ### Required tokens -/

namespace Cursor

variable {α : Type}

/-- Goes on behind the symbol ahead if it is the one asked for. -/
def expect (c : Cursor) (mark : Symbol) (goOn : 1 < c.remaining → Parse c.next α) :
    Parse c α :=
  if h : c.peek = some (.symbol mark) then .onward (goOn (remaining_of_peek h))
  else .fail ⟨.symbol mark, c.ahead⟩

/-- Goes on behind the lexeme ahead if it is an identifier. -/
def expectName (c : Cursor) (goOn : String → 1 < c.remaining → Parse c.next α) :
    Parse c α :=
  match h : c.peek with
  | some (.identifier name) => .onward (goOn name (remaining_of_peek h))
  | _ => .fail ⟨.identifier, c.ahead⟩

/-- A value that takes in the semicolon ahead, if there is one. -/
def closing (c : Cursor) (a : α) : Parse c α :=
  if c.peek = some (.symbol .semicolon) then .onward (.done a) else .done a

/-- What `expect` does to outcomes. -/
def require (c : Cursor) (mark : Symbol) (goOn : Cursor → Outcome α) : Outcome α :=
  if c.peek = some (.symbol mark) then goOn c.next else .failed ⟨.symbol mark, c.ahead⟩ c

/-- What `expectName` does to outcomes. -/
def requireName (c : Cursor) (goOn : String → Cursor → Outcome α) : Outcome α :=
  match c.peek with
  | some (.identifier name) => goOn name c.next
  | _ => .failed ⟨.identifier, c.ahead⟩ c

/-- The next place if a semicolon stands there, and else the place itself. -/
def pastSemicolon (c : Cursor) : Cursor :=
  if c.peek = some (.symbol .semicolon) then c.next else c

/-- What `expect` does to outcomes is `require`: the two test the same lexeme ahead and fail with
the same `Diagnostic`. Stated for a continuation that ignores its bound, so that the equations of
the parser speak of `require` alone. -/
@[simp] theorem val_expect (c : Cursor) (mark : Symbol) (p : Parse c.next α) :
    (c.expect mark fun _ => p).val = c.require mark fun _ => p.val := by
  unfold expect require
  split <;> rfl

/-- What `expectName` does to outcomes is `requireName`, as `val_expect` says of marks. The second
`split` is over the same lexeme as the first, and its identifier case is the one the first has ruled
out. -/
@[simp] theorem val_expectName (c : Cursor) (p : String → Parse c.next α) :
    (c.expectName fun name _ => p name).val = c.requireName fun name _ => (p name).val := by
  unfold expectName requireName
  split
  · rename_i h
    simp [h]
  · rename_i h
    split
    · rename_i name heq
      exact absurd heq (h name)
    · rfl

/-- A value read with `closing` ends at `pastSemicolon`: behind the semicolon ahead if there is one,
and else where it stood. It never fails, since the semicolon is optional at the end of every
statement. -/
@[simp] theorem val_closing (c : Cursor) (a : α) :
    (c.closing a).val = .parsed a c.pastSemicolon := by
  unfold closing pastSemicolon
  split <;> rfl

end Cursor

end Monkey
