import Monkey.Proofs.Text.Scan

/-!
# `Monkey.Proofs.Text.Lines`: reading a text line by line

No lexeme goes on behind a line feed. So a text that ends where a line
feed follows has the tokens that it has by itself, and what stands behind
the line feed has its own, moved down by the lines in front of it.

* `Lexer.tokens_append_lineFeed`: the tokens on both sides of a line feed,
  and `scan_append_lineFeed` the same apart from lines.
* `Lexer.endLine_tokens`: the line that reading ends on counts line feeds.
* `Lexer.tokens_shift`: starting further down moves every token down.
-/

set_option autoImplicit false

namespace Monkey

/-! ### Moving down -/

/-- The token some lines further down. -/
def Token.shift (n : Nat) (t : Token) : Token := { t with line := t.line + n }

/-- The tokens of a text some lines further down. -/
def TokenStream.shift (n : Nat) (s : TokenStream) : TokenStream :=
  ⟨s.tokens.map (Token.shift n), s.endLine + n⟩

/-! ### Lexemes end at line feeds -/

/-- A run of characters of a class ends at a character that the class does not hold, so what stands
behind that character has no part in `takeWhile` and `dropWhile`. -/
theorem span_append_stop {p : Char → Bool} {c : Char} (hc : p c = false) (cs more : List Char) :
    (cs ++ c :: more).takeWhile p = cs.takeWhile p ∧
      (cs ++ c :: more).dropWhile p = cs.dropWhile p ++ c :: more := by
  induction cs with
  | nil => simp [hc]
  | cons d ds ih =>
      obtain ⟨htake, hdrop⟩ := ih
      cases hd : p d <;> simp [hd, htake, hdrop]

/-- A class without line feeds takes no line feed away, so `dropWhile` leaves their number as it is.
-/
theorem count_dropWhile {p : Char → Bool} (hp : p '\n' = false) (cs : List Char) :
    (cs.dropWhile p).count '\n' = cs.count '\n' := by
  induction cs with
  | nil => rfl
  | cons d ds ih =>
      cases hd : p d with
      | false => simp [hd]
      | true =>
          have hne : d ≠ '\n' := Lexeme.ne_of_class hd hp
          simp [hd, ih, hne]

namespace Lexeme

/-- A string does not go on behind a line feed: `readString` reads the same with `'\n' :: more`
behind the text, and leaves that behind what it left. -/
theorem readString_append_lineFeed (cs more : List Char) :
    readString (cs ++ '\n' :: more) = ((readString cs).1, (readString cs).2 ++ '\n' :: more) := by
  obtain ⟨htake, hdrop⟩ := span_append_stop (p := insideString) (c := '\n') rfl cs more
  unfold readString
  simp only [htake, hdrop]
  cases cs.dropWhile insideString with
  | nil => rfl
  | cons d ds =>
      -- Either the string is closed there, or both texts have an open one.
      by_cases hd : d = '"'
      · subst hd
        rfl
      · simp only [List.cons_append]
        split
        · rename_i heq
          exact absurd (List.cons.inj heq).1 hd
        · split
          · rename_i heq
            exact absurd (List.cons.inj heq).1 hd
          · rfl

/-- Apart from the two operators that end with an equals sign, a lexeme depends on its first
character alone. The two cases are those of `read_of_head`. -/
theorem head?_ne_or (c : Char) (cs : List Char) :
    (∃ after, cs = '=' :: after ∧ (c = '=' ∨ c = '!')) ∨
      (cs.head? ≠ some '=' ∨ c ≠ '=' ∧ c ≠ '!') := by
  by_cases hhead : cs.head? = some '='
  · obtain ⟨after, rfl⟩ := List.head?_eq_some_iff.1 hhead
    by_cases hc : c = '=' ∨ c = '!'
    · exact .inl ⟨after, rfl, hc⟩
    · exact .inr (.inr (not_or.1 hc))
  · exact .inr (.inl hhead)

/-- No lexeme goes on behind a line feed, for a line feed is in none of the classes and is no equals
sign. `read_of_head` applies to both texts. -/
theorem read_append_lineFeed (c : Char) (cs more : List Char) :
    read c (cs ++ '\n' :: more) = ((read c cs).1, (read c cs).2 ++ '\n' :: more) := by
  rcases head?_ne_or c cs with ⟨after, rfl, rfl | rfl⟩ | h
  · rfl
  · rfl
  · -- A line feed is no equals sign, so the longer text starts with the same lexeme as the shorter.
    have h' : (cs ++ '\n' :: more).head? ≠ some '=' ∨ c ≠ '=' ∧ c ≠ '!' := by
      refine h.imp_left fun hhead => ?_
      cases cs with
      | nil => simp
      | cons d ds => exact hhead
    rw [read_of_head h', read_of_head h]
    cases Symbol.ofChar? c with
    | some mark => rfl
    | none =>
        obtain ⟨hdigits, hdigits'⟩ := span_append_stop (p := Char.isDigit) (c := '\n') rfl cs more
        obtain ⟨hword, hword'⟩ := span_append_stop (p := continuesWord) (c := '\n') rfl cs more
        simp only [readString_append_lineFeed, hdigits, hdigits', hword, hword']
        split
        · rfl
        · split
          · rfl
          · split <;> rfl

/-- Reading a string takes no line feed away, since `insideString` does not hold of one and the
closing quote is none either. -/
theorem count_readString (cs : List Char) :
    (readString cs).2.count '\n' = cs.count '\n' := by
  have hdrop := count_dropWhile (p := insideString) rfl cs
  unfold readString
  dsimp only
  split
  · rename_i after heq
    rw [← hdrop, heq]
    simp
  · exact hdrop

/-- Reading a lexeme takes no line feed away. Lines are counted by `skipBlanks` alone, and here it
is shown that nothing else would have to count them. -/
theorem count_read (c : Char) (cs : List Char) : (read c cs).2.count '\n' = cs.count '\n' := by
  -- The two operators that end with an equals sign take that with them.
  rcases head?_ne_or c cs with ⟨after, rfl, rfl | rfl⟩ | h
  · exact (List.count_cons_of_ne (by decide)).symm
  · exact (List.count_cons_of_ne (by decide)).symm
  · rw [read_of_head h]
    cases Symbol.ofChar? c with
    | some mark => rfl
    | none =>
        dsimp only
        split
        · exact count_readString cs
        · split
          · exact count_dropWhile rfl cs
          · split
            · exact count_dropWhile rfl cs
            · rfl

end Lexeme

/-! ### Tokens one character at a time -/

namespace Lexer

/-- Lexers that stand alike behind the blanks read the same, because `next` begins with
`skipBlanks`. -/
theorem tokens_congr {l m : Lexer} (h : l.skipBlanks = m.skipBlanks) : l.tokens = m.tokens := by
  have hnext : l.next = m.next := by
    unfold next
    rw [h]
  -- What follows the first token is read from where that ends, which is the same place in both.
  cases hm : m.next with
  | mk found after =>
      cases found with
      | none => rw [tokens_of_none hm, tokens_of_none (hnext.trans hm)]
      | some t => rw [tokens_of_some hm, tokens_of_some (hnext.trans hm)]

/-- At the end of a text no token is left, and the line is the one that has been reached. -/
theorem tokens_nil (line : Nat) : tokens ⟨[], line⟩ = ⟨[], line⟩ :=
  tokens_of_none (next_of_blanks rfl)

/-- A blank in front is gone past, and a line feed starts a line: `[c].count` is one for it and
nothing for the other blanks. -/
theorem tokens_blank_cons {c : Char} (h : isBlank c = true) (cs : List Char) (line : Nat) :
    tokens ⟨c :: cs, line⟩ = tokens ⟨cs, line + [c].count '\n'⟩ := by
  refine tokens_congr ?_
  unfold skipBlanks
  simp only [List.dropWhile_cons, List.takeWhile_cons, h, if_true, Lexer.mk.injEq, true_and]
  rw [List.count_cons, List.count_singleton, Nat.add_assoc, Nat.add_comm (List.count _ _)]

/-- A line feed in front starts a line. The case of `tokens_blank_cons` that joining two texts by a
line feed comes to. -/
theorem tokens_lineFeed_cons (cs : List Char) (line : Nat) :
    tokens ⟨'\n' :: cs, line⟩ = tokens ⟨cs, line + 1⟩ :=
  tokens_blank_cons rfl cs line

/-- A character that is no blank starts a token, on the line that has been reached, and the others
are read behind it on that same line. -/
theorem tokens_cons {c : Char} (h : isBlank c = false) (cs : List Char) (line : Nat) :
    tokens ⟨c :: cs, line⟩ =
      ⟨⟨(Lexeme.read c cs).1, line⟩ :: (tokens ⟨(Lexeme.read c cs).2, line⟩).tokens,
        (tokens ⟨(Lexeme.read c cs).2, line⟩).endLine⟩ := by
  have hdrop : (c :: cs).dropWhile isBlank = c :: cs := by simp [h]
  have hline : (skipBlanks ⟨c :: cs, line⟩).line = line := by simp [skipBlanks, h]
  rw [tokens_of_some (next_of_lexeme hdrop), hline]

/-- The line that reading ends on counts the line feeds of the text. Recursion on the length of the
text, through `tokens_blank_cons` and `tokens_cons`. -/
theorem endLine_tokens (cs : List Char) (line : Nat) :
    (tokens ⟨cs, line⟩).endLine = line + cs.count '\n' := by
  match cs with
  | [] =>
      rw [tokens_nil]
      rfl
  | c :: cs =>
      cases hblank : isBlank c with
      | true =>
          rw [tokens_blank_cons hblank, endLine_tokens cs]
          simp only [List.count_cons, List.count_nil]
          omega
      | false =>
          -- A lexeme takes no line feed away, so the count goes on behind it.
          have hlt := Lexeme.length_read_le c cs
          have hne : c ≠ '\n' := by
            rintro rfl
            cases hblank
          rw [tokens_cons hblank, List.count_cons_of_ne hne, ← Lexeme.count_read c cs]
          exact endLine_tokens (Lexeme.read c cs).2 line
termination_by cs.length
decreasing_by all_goals simp only [List.length_cons]; omega

/-- Further down the same tokens are read further down: the line a lexer begins on is only ever
added to. The recursion is that of `endLine_tokens`. -/
theorem tokens_shift (cs : List Char) (line n : Nat) :
    tokens ⟨cs, line + n⟩ = (tokens ⟨cs, line⟩).shift n := by
  match cs with
  | [] =>
      rw [tokens_nil, tokens_nil]
      rfl
  | c :: cs =>
      cases hblank : isBlank c with
      | true =>
          rw [tokens_blank_cons hblank, tokens_blank_cons hblank, Nat.add_right_comm]
          exact tokens_shift cs _ n
      | false =>
          -- What is left behind a lexeme is shorter.
          have hlt := Lexeme.length_read_le c cs
          rw [tokens_cons hblank, tokens_cons hblank, tokens_shift (Lexeme.read c cs).2 line n]
          rfl
termination_by cs.length
decreasing_by all_goals simp only [List.length_cons]; omega

/-- Behind a line feed the tokens are read on the next line, and in front of it they are what they
are without it, by `read_append_lineFeed` for each lexeme. -/
theorem tokens_append_lineFeed (cs more : List Char) (line : Nat) :
    tokens ⟨cs ++ '\n' :: more, line⟩ =
      ⟨(tokens ⟨cs, line⟩).tokens ++
          (tokens ⟨more, (tokens ⟨cs, line⟩).endLine + 1⟩).tokens,
        (tokens ⟨more, (tokens ⟨cs, line⟩).endLine + 1⟩).endLine⟩ := by
  match cs with
  | [] =>
      rw [List.nil_append, tokens_nil, tokens_lineFeed_cons]
      rfl
  | c :: cs =>
      cases hblank : isBlank c with
      | true =>
          rw [List.cons_append, tokens_blank_cons hblank, tokens_blank_cons hblank]
          exact tokens_append_lineFeed cs more _
      | false =>
          -- The lexeme in front is the same with the line feed behind the text.
          have hlt := Lexeme.length_read_le c cs
          rw [List.cons_append, tokens_cons hblank, tokens_cons hblank,
            Lexeme.read_append_lineFeed, tokens_append_lineFeed (Lexeme.read c cs).2 more line]
          rfl
termination_by cs.length
decreasing_by all_goals simp only [List.length_cons]; omega

end Lexer

/-- Apart from lines, what stands in front of a line feed and what stands behind it are read one
after the other: `tokens_append_lineFeed` for `scan`. -/
theorem scan_append_lineFeed (cs more : List Char) :
    scan (cs ++ '\n' :: more) = scan cs ++ scan more := by
  unfold scan
  rw [Lexer.tokens_append_lineFeed, TokenStream.lexemes, List.map_append]
  exact congrArg (_ ++ ·) (Lexer.lexemes_tokens _)

end Monkey
