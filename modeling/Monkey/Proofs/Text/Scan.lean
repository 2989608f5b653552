import Monkey.Proofs.Text.Lexemes

/-!
# `Monkey.Proofs.Text.Scan`: the lexemes of a text

Reading tokens without their lines. `scan` gives the lexemes of a list of
characters; a lexer's line has no influence on them (`lexemes_tokens`).

* `scan_source_append`: a genuine lexeme in front of a text that does not
  go on with it is read as that lexeme, and then the text is read.
* `standsBefore_of_mem_scan`, `genuine_of_mem_scan`: every lexeme that is
  read may be read where it stands, so that it is genuine or illegal.
-/

set_option autoImplicit false

namespace Monkey

/-! ### Reading without lines -/

/-- The lexemes of a text. -/
def scan (cs : List Char) : List Lexeme := (Lexer.tokens ⟨cs, 1⟩).lexemes

namespace Lexer

/-- Behind the last lexeme there are only blanks, and `next` goes past them to the end, where it
finds nothing. -/
theorem next_of_blanks {l : Lexer} (h : l.rest.dropWhile isBlank = []) :
    l.next = (none, l.skipBlanks) := by
  unfold next
  simp only [skipBlanks, h]

/-- Behind the blanks the next lexeme starts, at `c`, and `Lexeme.read` says what it is. Its line is
the one that `skipBlanks` has reached. -/
theorem next_of_lexeme {l : Lexer} {c : Char} {rest : List Char}
    (h : l.rest.dropWhile isBlank = c :: rest) :
    l.next = (some ⟨(Lexeme.read c rest).1, l.skipBlanks.line⟩,
      ⟨(Lexeme.read c rest).2, l.skipBlanks.line⟩) := by
  unfold next
  simp only [skipBlanks, h]

/-- The first lexeme is the one that starts behind the blanks, and the others are those of the lexer
behind it. The recursion equation of `tokens`, apart from lines. -/
theorem lexemes_tokens_of_lexeme {l : Lexer} {c : Char} {rest : List Char}
    (h : l.rest.dropWhile isBlank = c :: rest) :
    l.tokens.lexemes = (Lexeme.read c rest).1 ::
      (tokens ⟨(Lexeme.read c rest).2, l.skipBlanks.line⟩).lexemes := by
  rw [tokens_of_some (next_of_lexeme h)]
  rfl

/-- The line that a lexer has reached does not matter to the lexemes it reads. Recursion on the
length of what is left, which every lexeme makes shorter. -/
theorem lexemes_tokens_congr {l m : Lexer} (h : l.rest = m.rest) :
    l.tokens.lexemes = m.tokens.lexemes := by
  cases hl : l.rest.dropWhile isBlank with
  | nil =>
      have hm : m.rest.dropWhile isBlank = [] := h ▸ hl
      rw [tokens_of_none (next_of_blanks hl), tokens_of_none (next_of_blanks hm)]
      rfl
  | cons c rest =>
      have hm : m.rest.dropWhile isBlank = c :: rest := h ▸ hl
      have hlt := length_rest_next_lt (next_of_lexeme hl)
      rw [lexemes_tokens_of_lexeme hl, lexemes_tokens_of_lexeme hm]
      exact congrArg (_ :: ·) (lexemes_tokens_congr rfl)
termination_by l.rest.length

/-- What a lexer reads, apart from lines, is `scan` of the text it has left. From here on proofs
speak of characters and lexemes only. -/
theorem lexemes_tokens (l : Lexer) : l.tokens.lexemes = scan l.rest :=
  lexemes_tokens_congr rfl

end Lexer

/-- The lexemes of a text are those of its characters, so `scan` serves for every statement about
`tokenize` in which no line occurs. -/
theorem lexemes_tokenize (text : String) : (tokenize text).lexemes = scan text.toList := rfl

/-- A text of blanks has no lexemes, and neither has the empty one. -/
theorem scan_of_blanks {cs : List Char} (h : cs.dropWhile isBlank = []) : scan cs = [] := by
  unfold scan
  rw [Lexer.tokens_of_none (Lexer.next_of_blanks h)]
  rfl

/-- A text has the lexeme that starts behind its blanks, and then those that `scan` finds behind it.
-/
theorem scan_of_lexeme {cs rest : List Char} {c : Char} (h : cs.dropWhile isBlank = c :: rest) :
    scan cs = (Lexeme.read c rest).1 :: scan (Lexeme.read c rest).2 := by
  rw [scan, Lexer.lexemes_tokens_of_lexeme h, Lexer.lexemes_tokens]

/-- The empty text has no lexemes. The end of every induction on a list of lexemes that is written
out. -/
@[simp] theorem scan_nil : scan [] = [] := scan_of_blanks rfl

/-- A blank in front of a text has no influence on its lexemes. Line feeds are blanks too, so texts
may be broken between lexemes. -/
theorem scan_blank_cons {c : Char} (h : isBlank c = true) (cs : List Char) :
    scan (c :: cs) = scan cs := by
  have hdrop : (c :: cs).dropWhile isBlank = cs.dropWhile isBlank := by
    rw [List.dropWhile_cons, if_pos h]
  cases hcs : cs.dropWhile isBlank with
  | nil => rw [scan_of_blanks (hdrop.trans hcs), scan_of_blanks hcs]
  | cons d rest => rw [scan_of_lexeme (hdrop.trans hcs), scan_of_lexeme hcs]

/-- A space in front of a text has no influence on its lexemes. Printed trees have no other blank.
-/
@[simp] theorem scan_space_cons (cs : List Char) : scan (' ' :: cs) = scan cs :=
  scan_blank_cons rfl cs

/-- A text that starts with no blank starts with a lexeme, the one that `Lexeme.read` gives for its
first character. -/
theorem scan_cons {c : Char} (h : isBlank c = false) (cs : List Char) :
    scan (c :: cs) = (Lexeme.read c cs).1 :: scan (Lexeme.read c cs).2 :=
  scan_of_lexeme (by rw [List.dropWhile_cons, if_neg (by simp [h])])

/-! ### Lexemes of texts -/

/-- A symbol of one character is read where no equals sign makes it longer, by `read_of_ofChar?`.
The brackets and separators of a printed tree are read so. -/
theorem scan_mark_cons {c : Char} {mark : Symbol} {rest : List Char}
    (h : Symbol.ofChar? c = some mark) (hrest : rest.head? ≠ some '=' ∨ c ≠ '=' ∧ c ≠ '!') :
    scan (c :: rest) = .symbol mark :: scan rest := by
  rw [scan_cons (Lexeme.isBlank_of_ofChar? h), Lexeme.read_of_ofChar? h hrest]

/-- A genuine lexeme in front of a text that does not go on with it is the first that is read:
`Lexeme.read_source_append` for whole texts. -/
theorem scan_source_append {t : Lexeme} {rest : List Char} (h : t.Genuine)
    (hrest : t.EndsBefore rest) : scan (t.source.toList ++ rest) = t :: scan rest := by
  obtain ⟨c, cs, hsource, hblank, hread⟩ := Lexeme.read_source_append h hrest
  rw [hsource, List.cons_append, scan_cons hblank, hread]

/-- A symbol in front of a text that does not go on with it is read as that symbol, the two long
operators included. -/
theorem scan_symbol_append (mark : Symbol) {rest : List Char}
    (h : (Lexeme.symbol mark).EndsBefore rest) :
    scan (mark.text.toList ++ rest) = .symbol mark :: scan rest :=
  scan_source_append (t := .symbol mark) trivial h

/-- Every lexeme of a text may be read where it stands, by `Lexeme.standsBefore_read` at its place.
The recursion goes from lexeme to lexeme. -/
theorem standsBefore_of_mem_scan {cs : List Char} {t : Lexeme} (ht : t ∈ scan cs) :
    ∃ rest, t.StandsBefore rest := by
  cases hcs : cs.dropWhile isBlank with
  | nil =>
      rw [scan_of_blanks hcs] at ht
      cases ht
  | cons c rest =>
      -- What stands behind the first lexeme is shorter than the text.
      have hlen : (Lexeme.read c rest).2.length < cs.length := by
        have hread := Lexeme.length_read_le c rest
        have hdrop := (List.dropWhile_sublist isBlank (l := cs)).length_le
        rw [hcs, List.length_cons] at hdrop
        omega
      rw [scan_of_lexeme hcs] at ht
      rcases List.mem_cons.1 ht with rfl | ht
      · have hhead : (cs.dropWhile isBlank).head? = some c := by rw [hcs]; rfl
        have hblank : isBlank c = false := Lexeme.head?_dropWhile hhead
        exact ⟨_, (Lexeme.standsBefore_read hblank rest).1⟩
      · exact standsBefore_of_mem_scan ht
termination_by cs.length

/-- So it is genuine or illegal, as `StandsBefore` has no third possibility. What stands behind it
is forgotten here. -/
theorem genuine_of_mem_scan {cs : List Char} {t : Lexeme} (ht : t ∈ scan cs) :
    t.Genuine ∨ ∃ text, t = .illegal text := by
  obtain ⟨rest, hstands⟩ := standsBefore_of_mem_scan ht
  exact hstands.imp And.left fun ⟨text, htext, _⟩ => ⟨text, htext⟩

end Monkey
