import Monkey.Proofs.Syntax.RoundTrip

/-!
# `Monkey.Proofs.Syntax.Wording`: canonical text keeps the words

To write a program canonically puts parentheses, commas and semicolons
where they belong, drops those that are not needed, and writes numbers
without leading zeros. No other lexeme is left out, added, or moved.

* `wording` is what lexemes say besides that: everything but the
  punctuation, with numbers read by their value.
* `Expr.Written.wording_eq` and its companions say that all ways to write a
  tree have one wording, that of its canonical lexemes. They follow the
  grammar rule by rule.
* `Program.wording_render` is the result for texts.
-/

set_option autoImplicit false

namespace Monkey

/-! ### Wording -/

/-- Whether the lexeme only groups or separates others. -/
def Lexeme.isPunctuation : Lexeme → Bool
  | .symbol .leftParen => true
  | .symbol .rightParen => true
  | .symbol .comma => true
  | .symbol .semicolon => true
  | _ => false

/-- What a lexeme is read as: a number as its value, and any other lexeme as it stands. -/
def Lexeme.reading : Lexeme → Lexeme ⊕ Nat
  | .integer digits => .inr (Numeral.value digits.toList)
  | t => .inl t

/-- What lexemes are read as in order, without the punctuation. -/
def wording (ts : List Lexeme) : List (Lexeme ⊕ Nat) :=
  (ts.filter fun t => !t.isPunctuation).map Lexeme.reading

/-- Without lexemes there are no words. With the two lemmas below `wording` is computed without its
filter. -/
@[simp] theorem wording_nil : wording [] = [] := rfl

/-- A lexeme in front is a word, its `reading`, unless it is punctuation, which says nothing. -/
@[simp] theorem wording_cons (t : Lexeme) (ts : List Lexeme) :
    wording (t :: ts) = if t.isPunctuation then wording ts else t.reading :: wording ts := by
  cases h : t.isPunctuation <;> simp [wording, h]

/-- The words of two runs of lexemes are those of the first and then those of the second, because
`wording` filters and maps. -/
@[simp] theorem wording_append (ts us : List Lexeme) :
    wording (ts ++ us) = wording ts ++ wording us := by
  simp [wording]

/-! ### Canonical lexemes -/

/-- A comma in front of further expressions says nothing, so `listLexemes` has the words of its
members. -/
theorem Expr.wording_listLexemes_cons (e : Expr) (es : List Expr) :
    wording (Expr.listLexemes (e :: es)) =
      wording (Expr.lexemes e) ++ wording (Expr.listLexemes es) := by
  cases es with
  | nil => simp [Expr.listLexemes]
  | cons f es => simp [Expr.listLexemes, Lexeme.isPunctuation]

/-- A comma in front of further pairs says nothing, so `pairLexemes` may be taken pair by pair; the
colon of each pair is a word. -/
theorem Expr.wording_pairLexemes_cons (key value : Expr) (ps : List (Expr × Expr)) :
    wording (Expr.pairLexemes ((key, value) :: ps)) =
      wording (Expr.lexemes key) ++ .inl (.symbol .colon) ::
        (wording (Expr.lexemes value) ++ wording (Expr.pairLexemes ps)) := by
  cases ps with
  | nil => simp [Expr.pairLexemes, Lexeme.isPunctuation, Lexeme.reading]
  | cons p ps => simp [Expr.pairLexemes, Lexeme.isPunctuation, Lexeme.reading]

/-- A semicolon behind a statement says nothing, whether another statement follows or not, so
`blockLexemes` may be taken one by one. -/
theorem Statement.wording_blockLexemes_cons (s : Statement) (b : Block) :
    wording (Statement.blockLexemes (s :: b)) =
      wording (Statement.bareLexemes s) ++ wording (Statement.blockLexemes b) := by
  cases b with
  | nil => cases s <;> simp [Statement.blockLexemes, Statement.ending, Lexeme.isPunctuation]
  | cons t b => simp [Statement.blockLexemes, Lexeme.isPunctuation]

/-! ### What is written -/

/-- Digits are read as the canonical digits of their value, leading zeros being of no account. Below
`Numeral.bound` the value survives the way through `Int64`. -/
theorem Numeral.reading_write {digits : String}
    (small : Numeral.value digits.toList < Numeral.bound) :
    (Lexeme.integer (Numeral.write (Int64.ofNat (Numeral.value digits.toList)))).reading =
      (Lexeme.integer digits).reading := by
  have hvalue := Int64.toInt_ofNat_of_lt small
  have hpos : 0 ≤ Int64.ofNat (Numeral.value digits.toList) := by
    rw [Int64.le_iff_toInt_le, hvalue]
    exact Int.natCast_nonneg _
  have hback : Numeral.value (Numeral.write (Int64.ofNat (Numeral.value digits.toList))).toList =
      Numeral.value digits.toList := by
    rw [Numeral.value_write hpos, Int64.toNatClampNeg, hvalue, Int.toNat_natCast]
  exact congrArg Sum.inr hback

mutual

/-- What writes an expression has the wording of its canonical lexemes. By induction on the
derivation: the two differ in parentheses, commas, semicolons and the spelling of numbers, all of
which `wording` leaves out. -/
theorem Expr.Written.wording_eq {p : Precedence} {ts : List Lexeme} {e : Expr} :
    Expr.Written p ts e → wording ts = wording (Expr.lexemes e)
  | .identifier _ => rfl
  -- The tree has lost any leading zeros, so the digits agree by their reading alone.
  | .integer digits small => congrArg (fun r => [r]) (Numeral.reading_write small).symm
  | .string _ => rfl
  | .truth => rfl
  | .falsity => rfl
  | .parenthesized inner => by
      simp [Lexeme.isPunctuation, inner.wording_eq]
  | .array elements => by
      simp [Expr.lexemes, elements.wording_eq]
  | .hash pairs => by
      simp [Expr.lexemes, pairs.wording_eq]
  | .conditional condition consequence alternative => by
      simp [Expr.lexemes, condition.wording_eq, consequence.wording_eq, alternative.wording_eq]
  | .function names body => by
      simp [Expr.lexemes, body.wording_eq]
  | .call callee arguments => by
      simp [Expr.lexemes, callee.wording_eq, arguments.wording_eq]
  | .index indexed position => by
      simp [Expr.lexemes, Lexeme.isPunctuation, indexed.wording_eq, position.wording_eq]
  | .unary op operand _ => by
      simp [Expr.lexemes, Lexeme.isPunctuation, operand.wording_eq]
  | .binary op left _ right _ => by
      simp [Expr.lexemes, Lexeme.isPunctuation, left.wording_eq, right.wording_eq]

/-- What writes a list has the wording of its canonical lexemes `listLexemes`, expression by
expression. -/
theorem Expr.ListWritten.wording_eq {ts : List Lexeme} {es : List Expr} :
    Expr.ListWritten ts es → wording ts = wording (Expr.listLexemes es)
  | .nil => rfl
  | .cons head tail => by
      rw [wording_append, Expr.wording_listLexemes_cons, head.wording_eq, tail.wording_eq]

/-- What writes further expressions of a list has the wording of their canonical lexemes; the comma
in front is no word, as `Lexeme.isPunctuation` has it. -/
theorem Expr.MoreWritten.wording_eq {ts : List Lexeme} {es : List Expr} :
    Expr.MoreWritten ts es → wording ts = wording (Expr.listLexemes es)
  | .nil => rfl
  | .cons head tail => by
      simp [Expr.wording_listLexemes_cons, Lexeme.isPunctuation, head.wording_eq, tail.wording_eq]

/-- What writes keys and values has the wording of their canonical lexemes `pairLexemes`, whether a
comma stands behind the last pair or not. -/
theorem Expr.PairsWritten.wording_eq {ts : List Lexeme} {ps : List (Expr × Expr)} :
    Expr.PairsWritten ts ps → wording ts = wording (Expr.pairLexemes ps)
  | .nil => rfl
  | .last key value => by
      simp [Expr.pairLexemes, key.wording_eq, value.wording_eq]
  | .cons key value tail => by
      simp [Expr.wording_pairLexemes_cons, Lexeme.isPunctuation, Lexeme.reading, key.wording_eq,
        value.wording_eq, tail.wording_eq]

/-- What writes a statement has the wording of its canonical lexemes `bareLexemes`, its reserved
word and name included. -/
theorem Statement.Written.wording_eq {ts : List Lexeme} {s : Statement} :
    Statement.Written ts s → wording ts = wording (Statement.bareLexemes s)
  | .binding name value => by
      simp [Statement.bareLexemes, value.wording_eq]
  | .returning value => by
      simp [Statement.bareLexemes, value.wording_eq]
  | .expression value => value.wording_eq

/-- What writes statements has the wording of their canonical lexemes `blockLexemes`, whichever of
them are closed by a semicolon. -/
theorem Block.Written.wording_eq {ts : List Lexeme} {b : Block} :
    Block.Written ts b → wording ts = wording (Statement.blockLexemes b)
  | .nil => rfl
  | .closed head tail => by
      simp [Statement.wording_blockLexemes_cons, Lexeme.isPunctuation, head.wording_eq,
        tail.wording_eq]
  | .bare head _ tail => by
      rw [Statement.wording_blockLexemes_cons, wording_append, head.wording_eq, tail.wording_eq]

/-- What writes a second branch has the wording of its canonical lexemes `branchLexemes`, and a
missing one has none. -/
theorem Block.AlternativeWritten.wording_eq {ts : List Lexeme} {other : Option Block} :
    Block.AlternativeWritten ts other → wording ts = wording (Statement.branchLexemes other)
  | .none => rfl
  | .some block => by
      simp [Statement.branchLexemes, block.wording_eq]

end

/-! ### Texts -/

/-- Canonical text keeps the words of a program: but for parentheses, commas and semicolons, its
lexemes are those of the text that was read, one by one and in the same order, and numbers have the
values that they had. Both texts write the same tree, so `Block.Written.wording_eq` compares them
through its canonical lexemes. -/
theorem Program.wording_render {text : String} {p : Program} (h : Program.parse text = .ok p) :
    wording (tokenize p.render).lexemes = wording (tokenize text).lexemes := by
  have hwritten := Program.written_of_parse h
  have hspelt : Spelt (tokenize text).lexemes := fun t ht => genuine_of_mem_scan ht
  rw [hwritten.wording_eq, lexemes_tokenize, Program.scan_render p (hwritten.spellable hspelt)]

/-- A number with leading zeros, parentheses that are not needed, a comma behind the last pair of a
hash literal, and a body whose last statement no semicolon closes. The canonical text, given by
`wording_render`, has the same words. -/
theorem Program.wording_render_of_loose_text :
    let text := "fn(x, y) \x7b (x) * 007 \x7d;\n\x7b01: !x,\x7d"
    let words : List (Lexeme ⊕ Nat) := [.inl (.keyword .fnKw), .inl (.identifier "x"),
      .inl (.identifier "y"), .inl (.symbol .leftBrace), .inl (.identifier "x"),
      .inl (.symbol .star), .inr 7, .inl (.symbol .rightBrace), .inl (.symbol .leftBrace), .inr 1,
      .inl (.symbol .colon), .inl (.symbol .bang), .inl (.identifier "x"),
      .inl (.symbol .rightBrace)]
    ∃ p, Program.parse text = .ok p ∧ p.statements.length = 2 ∧
      wording (tokenize text).lexemes = words ∧ wording (tokenize p.render).lexemes = words := by
  intro text words
  have hdiagnostics : (Survey.ofText text).diagnostics.isEmpty = true := by
    subst text
    decide +kernel
  have hlength : (Survey.ofText text).program.statements.length = 2 := by
    subst text
    decide +kernel
  have hwords : wording (tokenize text).lexemes = words := by
    subst text words
    decide +kernel
  have h : Program.parse text = .ok (Survey.ofText text).program := if_pos hdiagnostics
  exact ⟨_, h, hlength, hwords, (Program.wording_render h).trans hwords⟩

end Monkey
