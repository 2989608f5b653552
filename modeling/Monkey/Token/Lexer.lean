import Monkey.Token

/-!
# `Monkey.Token.Lexer`: reading tokens from a text

A lexer is what is left of a text and the line it has reached. Reading
skips blanks and takes the longest lexeme that starts there; at the end
of the text there is nothing to read, however often one asks.

* `Lexeme.read` takes one lexeme off a non-empty text; what it leaves is
  no longer than what followed the first character (`length_read_le`).
* `Lexer.next` reads one token, `Lexer.nextFound` the same with the end
  of the text as an answer of its own.
* `Lexer.tokens` reads to the end. `TokenStream` is the result: the
  tokens, and the line on which the text ends.

A string never crosses a line: one that its line does not close is an
illegal lexeme of everything up to the line feed. No lexeme holds a line
feed, so only skipped blanks move the line.
-/

set_option autoImplicit false

namespace Monkey

/-! ### Classes of characters -/

/-- The characters that separate lexemes and are otherwise ignored. -/
def isBlank (c : Char) : Bool := c == ' ' || c == '\t' || c == '\r' || c == '\n'

/-- The characters an identifier or reserved word may start with. -/
def startsWord (c : Char) : Bool := c.isAlpha || c == '_'

/-- The characters an identifier or reserved word may go on with. -/
def continuesWord (c : Char) : Bool := c.isAlphanum || c == '_'

/-- The characters a string may hold. -/
def insideString (c : Char) : Bool := c != '"' && c != '\n'

/-! ### One lexeme -/

namespace Lexeme

/-- The string whose opening quote has just been read. -/
def readString (rest : List Char) : Lexeme × List Char :=
  let content := rest.takeWhile insideString
  match rest.dropWhile insideString with
  | '"' :: after => (.string (String.ofList content), after)
  | after => (.illegal (String.ofList ('"' :: content)), after)

/-- The lexeme that starts with `c`, and what is left of the text behind it. -/
def read (c : Char) (rest : List Char) : Lexeme × List Char :=
  match c, rest with
  | '=', '=' :: after => (.symbol .equal, after)
  | '!', '=' :: after => (.symbol .notEqual, after)
  | c, rest =>
    match Symbol.ofChar? c with
    | some s => (.symbol s, rest)
    | none =>
      if c = '"' then readString rest
      else if c.isDigit then
        (.integer (String.ofList (c :: rest.takeWhile Char.isDigit)), rest.dropWhile Char.isDigit)
      else if startsWord c then
        (ofWord (String.ofList (c :: rest.takeWhile continuesWord)), rest.dropWhile continuesWord)
      else (.illegal (String.singleton c), rest)

/-- Dropping from a list leaves no more than there was: `dropWhile` yields a suffix. Runs of digits,
letters and string characters are all cut off with it. -/
private theorem length_dropWhile_le (p : Char → Bool) (cs : List Char) :
    (cs.dropWhile p).length ≤ cs.length :=
  (List.dropWhile_sublist p).length_le

/-- Reading a string with `readString` leaves no more than followed its opening quote. If the
closing quote is missing everything is taken and the bound holds all the same. -/
theorem length_readString_le (rest : List Char) :
    (readString rest).2.length ≤ rest.length := by
  have h := length_dropWhile_le insideString rest
  unfold readString
  split
  · rename_i after heq
    rw [heq, List.length_cons] at h
    exact Nat.le_of_succ_le h
  · exact h

/-- Reading a lexeme with `read` uses up at least its first character, whatever class of token the
character begins. Each class is one branch; only strings need a bound of their own,
`length_readString_le`. -/
theorem length_read_le (c : Char) (rest : List Char) :
    (read c rest).2.length ≤ rest.length := by
  unfold read
  split
  · simp
  · simp
  · split
    · exact Nat.le_refl _
    · split
      · exact length_readString_le rest
      · split
        · exact length_dropWhile_le _ rest
        · split
          · exact length_dropWhile_le _ rest
          · exact Nat.le_refl _

end Lexeme

/-! ### Lexers -/

/-- What is left to read of a text, and the line that has been reached. -/
structure Lexer where
  rest : List Char
  line : Nat

/-- The tokens of a text in order, and the line on which it ends. -/
structure TokenStream where
  tokens : List Token
  endLine : Nat
  deriving DecidableEq

namespace TokenStream

/-- What stands at the end of the text. -/
def finish (s : TokenStream) : Found := ⟨none, s.endLine⟩

/-- Everything there is to find, the end of the text included. -/
def found (s : TokenStream) : List Found := s.tokens.map Token.found ++ [s.finish]

/-- The tokens without their lines. -/
def lexemes (s : TokenStream) : List Lexeme := s.tokens.map Token.lexeme

end TokenStream

namespace Lexer

/-- A lexer at the start of a text. -/
def ofText (text : String) : Lexer := ⟨text.toList, 1⟩

/-- The lexer behind the blanks that come next. Each line feed among them starts a line. -/
def skipBlanks (l : Lexer) : Lexer :=
  ⟨l.rest.dropWhile isBlank, l.line + (l.rest.takeWhile isBlank).count '\n'⟩

/-- The next token, none at the end of the text, and the lexer behind it. -/
def next (l : Lexer) : Option Token × Lexer :=
  let l := l.skipBlanks
  match l.rest with
  | [] => (none, l)
  | c :: rest =>
    let (lexeme, after) := Lexeme.read c rest
    (some ⟨lexeme, l.line⟩, ⟨after, l.line⟩)

/-- What the next token shows, the end of the text being an answer too. -/
def nextFound (l : Lexer) : Found × Lexer :=
  match l.next with
  | (some t, after) => (t.found, after)
  | (none, after) => (⟨none, after.line⟩, after)

/-- A token read with `next` leaves the lexer with strictly less to read, since blanks are dropped
first and `read` then takes a character or more. The measure by which `Lexer.tokens` ends. -/
theorem length_rest_next_lt {l after : Lexer} {t : Token} (h : l.next = (some t, after)) :
    after.rest.length < l.rest.length := by
  have hskip : l.skipBlanks.rest.length ≤ l.rest.length := (List.dropWhile_sublist _).length_le
  unfold next at h
  dsimp only at h
  split at h
  · simp at h
  · rename_i c rest hrest
    simp only [Prod.mk.injEq, Option.some.injEq] at h
    rw [hrest, List.length_cons] at hskip
    have hread := Lexeme.length_read_le c rest
    rw [← h.2]
    exact Nat.lt_of_le_of_lt hread (Nat.lt_of_succ_le hskip)

/-- All the tokens that are left. -/
def tokens (l : Lexer) : TokenStream :=
  match _hnext : l.next with
  | (none, after) => ⟨[], after.line⟩
  | (some t, after) =>
    let stream := after.tokens
    { stream with tokens := t :: stream.tokens }
termination_by l.rest.length
decreasing_by exact length_rest_next_lt _hnext

/-- At the end of the text there are no tokens left, and `endLine` is the line the lexer reached
while it skipped the last blanks. With `tokens_of_some` the only way in which proofs open
`Lexer.tokens`. -/
theorem tokens_of_none {l after : Lexer} (h : l.next = (none, after)) :
    l.tokens = ⟨[], after.line⟩ := by
  rw [tokens]
  split
  · rename_i heq
    rw [h] at heq
    cases heq
    rfl
  · rename_i heq
    rw [h] at heq
    cases heq

/-- The next token comes first, and then the tokens of the lexer `after` it. The line on which the
text ends is found by that later lexer, not by this one. -/
theorem tokens_of_some {l after : Lexer} {t : Token} (h : l.next = (some t, after)) :
    l.tokens = ⟨t :: after.tokens.tokens, after.tokens.endLine⟩ := by
  rw [tokens]
  split
  · rename_i heq
    rw [h] at heq
    cases heq
  · rename_i heq
    rw [h] at heq
    cases heq
    rfl

end Lexer

/-- The tokens of a whole text. -/
def tokenize (text : String) : TokenStream := (Lexer.ofText text).tokens

end Monkey
