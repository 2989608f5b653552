import Monkey.Proofs.Syntax.Canonical

/-!
# `Monkey.Proofs.Syntax.CanonicalText`: canonical text is read as canonical lexemes

What the printer puts between two parts of a tree keeps them apart for
the lexer. Wherever a part ends with a word or a number, punctuation or a
space comes next, so that the part is read by itself (`EndsWord`); and an
exclamation mark is never followed by an equals sign, because no canonical
text starts with one (`Expr.head_render`).

* `Expr.scan_render`, `Statement.scan_render`, `Statement.scan_renderBlock`
  say how the text of a tree is read in front of any text that keeps
  apart from it. They follow the recursion of the printer.
* `Program.scan_render` is the statement for a whole program.
-/

set_option autoImplicit false

namespace Monkey

/-! ### What keeps a word apart -/

/-- A text that does not go on with a word or a number in front of it. -/
def EndsWord (rest : List Char) : Prop := ∀ c, rest.head? = some c → continuesWord c = false

/-- The end of the text keeps apart from any word: `EndsWord` speaks of a first character, and there
is none. -/
theorem endsWord_nil : EndsWord [] := by
  intro c hc
  cases hc

/-- A text whose first character `continuesWord` rejects keeps apart from the word in front of it.
The printer puts a space or a delimiter behind every word, so `h` is always closed by `rfl`. -/
theorem endsWord_cons {c : Char} (h : continuesWord c = false) (cs : List Char) :
    EndsWord (c :: cs) := by
  intro d hd
  cases hd
  exact h

/-- A genuine lexeme other than an operator is read as it stands where its word is over. Marks are
left out by `hmark` because two of them may merge, which `EndsWord` does not exclude. -/
theorem scan_source_of_endsWord {t : Lexeme} {rest : List Char} (h : t.Genuine)
    (hmark : ∀ mark, t ≠ .symbol mark) (hrest : EndsWord rest) :
    scan (t.source.toList ++ rest) = t :: scan rest := by
  refine scan_source_append h ?_
  cases t with
  | symbol mark => exact absurd rfl (hmark mark)
  | integer digits =>
      intro c hc
      have hword := hrest c hc
      simp only [continuesWord, Char.isAlphanum, Bool.or_eq_false_iff] at hword
      exact hword.1.2
  | identifier name => exact hrest
  | keyword word => exact hrest
  | illegal text => trivial
  | string content => trivial

/-- The punctuation marks that are read by themselves whatever follows, all nine as one conjunction
for `simp`. Of no lexeme with two characters is any of them the first one. -/
theorem scan_punctuation (cs : List Char) :
    scan ('(' :: cs) = .symbol .leftParen :: scan cs ∧
    scan (')' :: cs) = .symbol .rightParen :: scan cs ∧
    scan ('[' :: cs) = .symbol .leftBracket :: scan cs ∧
    scan (']' :: cs) = .symbol .rightBracket :: scan cs ∧
    scan ('{' :: cs) = .symbol .leftBrace :: scan cs ∧
    scan ('}' :: cs) = .symbol .rightBrace :: scan cs ∧
    scan (',' :: cs) = .symbol .comma :: scan cs ∧
    scan (':' :: cs) = .symbol .colon :: scan cs ∧
    scan (';' :: cs) = .symbol .semicolon :: scan cs := by
  refine ⟨?_, ?_, ?_, ?_, ?_, ?_, ?_, ?_, ?_⟩ <;>
    exact scan_mark_cons rfl (.inr (by decide))

/-- A reserved word is read as its `Keyword` in front of a text that keeps apart from it.
An instance of `scan_source_of_endsWord`, since reserved words are their own source. -/
theorem scan_reserved (k : Keyword) {rest : List Char} (h : EndsWord rest) :
    scan (k.text.toList ++ rest) = .keyword k :: scan rest :=
  scan_source_of_endsWord (t := .keyword k) trivial (by simp) h

/-- The reserved words as the printer sets them, each with the character that follows it in the
canonical text. `true` and `false` are missing: they may stand anywhere and go by `scan_reserved`.
-/
theorem scan_words (cs : List Char) :
    scan ('i' :: 'f' :: ' ' :: cs) = .keyword .ifKw :: scan cs ∧
    scan ('e' :: 'l' :: 's' :: 'e' :: ' ' :: cs) = .keyword .elseKw :: scan cs ∧
    scan ('f' :: 'n' :: '(' :: cs) = .keyword .fnKw :: .symbol .leftParen :: scan cs ∧
    scan ('l' :: 'e' :: 't' :: ' ' :: cs) = .keyword .letKw :: scan cs ∧
    scan ('r' :: 'e' :: 't' :: 'u' :: 'r' :: 'n' :: ' ' :: cs)
      = .keyword .returnKw :: scan cs := by
  have hspace : EndsWord (' ' :: cs) := endsWord_cons rfl cs
  have hparen : EndsWord ('(' :: cs) := endsWord_cons rfl cs
  refine ⟨?_, ?_, ?_, ?_, ?_⟩
  · exact (scan_reserved .ifKw hspace).trans (congrArg _ (scan_space_cons cs))
  · exact (scan_reserved .elseKw hspace).trans (congrArg _ (scan_space_cons cs))
  · exact (scan_reserved .fnKw hparen).trans (congrArg _ (scan_punctuation cs).1)
  · exact (scan_reserved .letKw hspace).trans (congrArg _ (scan_space_cons cs))
  · exact (scan_reserved .returnKw hspace).trans (congrArg _ (scan_space_cons cs))

/-- The equals sign of a binding is an assignment, since the space the printer sets behind it keeps
it from being read as `==`. -/
theorem scan_assign (cs : List Char) : scan ('=' :: ' ' :: cs) = .symbol .assign :: scan cs := by
  rw [scan_mark_cons (c := '=') rfl (.inl (by simp)), scan_space_cons]

/-- A binary operator is read as its `symbol`, since the printer sets a space behind it. Without
that space `<` or `!` could take up what follows. -/
theorem scan_operator (op : BinaryOp) (cs : List Char) :
    scan (op.text.toList ++ ' ' :: cs) = .symbol op.symbol :: scan cs := by
  rw [BinaryOp.text, scan_symbol_append op.symbol (by cases op <;> trivial), scan_space_cons]

/-! ### First characters -/

/-- The canonical text of an expression does not start with an equals sign, so a `!` in front of it
stays `!`. By the kind of expression; a call starts with its callee, where the lemma is used again.
-/
theorem Expr.head_render (e : Expr) (h : Expr.Spellable e) :
    ∃ c cs, (Expr.render e).toList = c :: cs ∧ c ≠ '=' := by
  cases e with
  | identifier name =>
      obtain ⟨c, cs, hcs, hc⟩ := h.start
      exact ⟨c, cs, by rw [Expr.render, hcs], Lexeme.ne_of_class hc rfl⟩
  | integer value =>
      obtain ⟨hne, hdigits⟩ := Numeral.genuine_write h
      obtain ⟨c, cs, hcs⟩ := List.exists_cons_of_ne_nil hne
      have hc : c.isDigit = true := hdigits c (by simp [hcs])
      exact ⟨c, cs, by rw [Expr.render, hcs], Lexeme.ne_of_class hc rfl⟩
  | boolean value =>
      cases value with
      | true => exact ⟨'t', _, by simp [Expr.render]; rfl, by decide⟩
      | false => exact ⟨'f', _, by simp [Expr.render]; rfl, by decide⟩
  | string => exact ⟨'"', _, by simp [Expr.render]; rfl, by decide⟩
  | array => exact ⟨'[', _, by simp [Expr.render]; rfl, by decide⟩
  | hash => exact ⟨'{', _, by simp [Expr.render]; rfl, by decide⟩
  | conditional => exact ⟨'i', _, by simp [Expr.render]; rfl, by decide⟩
  | function => exact ⟨'f', _, by simp [Expr.render]; rfl, by decide⟩
  | call callee arguments =>
      -- A call starts with what is called.
      obtain ⟨c, cs, hcs, hc⟩ := Expr.head_render callee h.1
      exact ⟨c, _, by simp [Expr.render, hcs]; rfl, hc⟩
  | _ => exact ⟨'(', _, by simp [Expr.render]; rfl, by decide⟩
termination_by e

/-- A unary operator is read as its `symbol` in front of the canonical text of its operand. Nothing
separates the two, so for `!` the first character of the operand has to be looked at
(`Expr.head_render`). -/
theorem scan_unaryOperator (op : UnaryOp) {e : Expr} (h : Expr.Spellable e) (rest : List Char) :
    scan (op.text.toList ++ ((Expr.render e).toList ++ rest)) =
      .symbol op.symbol :: scan ((Expr.render e).toList ++ rest) := by
  refine scan_symbol_append op.symbol ?_
  cases op with
  | negate => trivial
  | not =>
      obtain ⟨c, cs, hcs, hc⟩ := Expr.head_render e h
      rw [hcs]
      show some c ≠ some '='
      exact fun heq => hc (Option.some.inj heq)

/-! ### Parameters -/

/-- The parameters of a function are read as they stand, with the commas of `parameterLexemes`. By
induction on the names; each name is a word that a comma, or what follows the last of them, keeps
apart. -/
theorem scan_parameters {rest : List Char} (hrest : EndsWord rest) :
    ∀ names : List String, (∀ name ∈ names, IsIdentifier name) →
      scan ((", ".intercalate names).toList ++ rest) = parameterLexemes names ++ scan rest
  | [], _ => by simp [parameterLexemes]
  | [name], h => by
      rw [String.intercalate_singleton]
      exact scan_source_of_endsWord (t := .identifier name) (h name (by simp)) (by simp) hrest
  | name :: next :: names, h => by
      have htext : (", ".intercalate (name :: next :: names)).toList ++ rest
          = name.toList ++ ',' :: ' ' :: ((", ".intercalate (next :: names)).toList ++ rest) := by
        simp [String.intercalate_cons_cons]
      -- A comma keeps the name apart from what follows.
      have hname : ∀ cs, scan (name.toList ++ ',' :: cs) = .identifier name :: scan (',' :: cs) :=
        fun cs => scan_source_of_endsWord (t := .identifier name) (h name (by simp)) (by simp)
          (endsWord_cons rfl cs)
      have ih := scan_parameters hrest (next :: names) fun x hx => h x (by simp [hx])
      rw [htext, hname, (scan_punctuation _).2.2.2.2.2.2.1, scan_space_cons, ih]
      rfl

/-! ### Expressions, statements and blocks -/

/-- A statement that is closed for the next one ends with a semicolon, if its text alone is read as
its canonical lexemes. The hypothesis `h` is `Statement.scan_render` of that statement, proved in
the same mutual block. -/
theorem Statement.scan_closed {s : Statement} {rest : List Char}
    (h : ∀ {cs}, EndsWord cs → scan ((Statement.render s).toList ++ cs)
      = Statement.bareLexemes s ++ (s.ending ++ scan cs)) :
    scan ((Statement.render s ++ s.closer).toList ++ ' ' :: rest)
      = Statement.bareLexemes s ++ .symbol .semicolon :: scan rest := by
  -- A binding and a `return` bring their own semicolon; an expression is given one.
  cases s with
  | binding name value =>
      have hs := h (endsWord_cons (c := ' ') rfl rest)
      simpa [Statement.closer, Statement.ending] using hs
  | returning value =>
      have hs := h (endsWord_cons (c := ' ') rfl rest)
      simpa [Statement.closer, Statement.ending] using hs
  | expression value =>
      have hs := h (endsWord_cons (c := ';') rfl (' ' :: rest))
      simpa [Statement.closer, Statement.ending, scan_punctuation] using hs

mutual

/-- The canonical text of an expression, in front of a text that keeps apart from it, is read as
`Expr.lexemes`. By induction on the tree: each case knows what character follows each part, and that
is all `EndsWord` asks for. -/
theorem Expr.scan_render : (e : Expr) → Expr.Spellable e → ∀ {rest : List Char}, EndsWord rest →
    scan ((Expr.render e).toList ++ rest) = Expr.lexemes e ++ scan rest
  | .identifier name, h, rest, hrest => by
      rw [Expr.render]
      exact scan_source_of_endsWord (t := .identifier name) h (by simp) hrest
  | .integer value, h, rest, hrest => by
      rw [Expr.render]
      exact scan_source_of_endsWord (t := .integer (Numeral.write value))
        (Numeral.genuine_write h) (by simp) hrest
  | .boolean true, _, rest, hrest => by
      rw [Expr.render]
      exact scan_reserved .trueKw hrest
  | .boolean false, _, rest, hrest => by
      rw [Expr.render]
      exact scan_reserved .falseKw hrest
  | .string content, h, rest, hrest => by
      rw [Expr.render]
      exact scan_source_of_endsWord (t := .string content) h (by simp) hrest
  | .array elements, h, rest, _ => by
      have helements := Expr.scan_renderList elements h (endsWord_cons (c := ']') rfl rest)
      simp [Expr.render, Expr.lexemes, scan_punctuation, helements, -String.toList_intercalate]
  | .hash pairs, h, rest, _ => by
      have hpairs := Expr.scan_renderPairs pairs h (endsWord_cons (c := '}') rfl rest)
      simp [Expr.render, Expr.lexemes, scan_punctuation, hpairs, -String.toList_intercalate]
  | .unary op operand, h, rest, _ => by
      -- The operand starts with no equals sign, with which `!` would become another lexeme.
      have hoperand := Expr.scan_render operand h (endsWord_cons (c := ')') rfl rest)
      have hop := scan_unaryOperator op (e := operand) h (')' :: rest)
      simp [Expr.render, Expr.lexemes, scan_punctuation, hop, hoperand]
  | .binary op left right, h, rest, _ => by
      have hleft : ∀ cs, scan ((Expr.render left).toList ++ ' ' :: cs)
          = Expr.lexemes left ++ scan cs := fun cs => by
        rw [Expr.scan_render left h.1 (endsWord_cons rfl cs), scan_space_cons]
      have hright := Expr.scan_render right h.2 (endsWord_cons (c := ')') rfl rest)
      simp [Expr.render, Expr.lexemes, scan_punctuation, scan_operator, hleft, hright]
  | .conditional condition consequence alternative, h, rest, _ => by
      have hcondition : ∀ cs, scan ((Expr.render condition).toList ++ ')' :: ' ' :: cs)
          = Expr.lexemes condition ++ .symbol .rightParen :: scan cs := fun cs => by
        rw [Expr.scan_render condition h.1 (endsWord_cons rfl _), (scan_punctuation _).2.1,
          scan_space_cons]
      have hconsequence := Statement.scan_renderBlock consequence h.2.1
        ((Statement.renderBranch alternative).toList ++ rest)
      have halternative := Statement.scan_renderBranch alternative h.2.2 rest
      simp [Expr.render, Expr.lexemes, scan_words, scan_punctuation, hcondition, hconsequence,
        halternative]
  | .function parameters body, h, rest, _ => by
      have hparameters : ∀ cs,
          scan ((", ".intercalate parameters).toList ++ ')' :: ' ' :: cs)
            = parameterLexemes parameters ++ .symbol .rightParen :: scan cs := fun cs => by
        rw [scan_parameters (endsWord_cons rfl _) parameters h.1, (scan_punctuation _).2.1,
          scan_space_cons]
      have hbody := Statement.scan_renderBlock body h.2 rest
      simp [Expr.render, Expr.lexemes, scan_words, hparameters, hbody, -String.toList_intercalate]
  | .call callee arguments, h, rest, _ => by
      -- The parenthesis stands right behind what is called and keeps apart from every last lexeme.
      have hcallee : ∀ cs, scan ((Expr.render callee).toList ++ '(' :: cs)
          = Expr.lexemes callee ++ .symbol .leftParen :: scan cs := fun cs => by
        rw [Expr.scan_render callee h.1 (endsWord_cons rfl cs), (scan_punctuation cs).1]
      have harguments := Expr.scan_renderList arguments h.2 (endsWord_cons (c := ')') rfl rest)
      simp [Expr.render, Expr.lexemes, scan_punctuation, hcallee, harguments,
        -String.toList_intercalate]
  | .index indexed position, h, rest, _ => by
      have hindexed : ∀ cs, scan ((Expr.render indexed).toList ++ '[' :: cs)
          = Expr.lexemes indexed ++ .symbol .leftBracket :: scan cs := fun cs => by
        rw [Expr.scan_render indexed h.1 (endsWord_cons rfl cs), (scan_punctuation cs).2.2.1]
      have hposition := Expr.scan_render position h.2 (endsWord_cons (c := ']') rfl (')' :: rest))
      simp [Expr.render, Expr.lexemes, scan_punctuation, hindexed, hposition]

/-- The members of a list are read with commas between them, as `listLexemes` has them. Of the text
behind the list only the last member needs to know, so `EndsWord rest` is used in the second case
alone. -/
theorem Expr.scan_renderList : (es : List Expr) → Expr.SpellableList es → ∀ {rest : List Char},
    EndsWord rest → scan ((", ".intercalate (Expr.renderList es)).toList ++ rest)
      = Expr.listLexemes es ++ scan rest
  | [], _, rest, _ => by simp [Expr.renderList, Expr.listLexemes]
  | [e], h, rest, hrest => by
      rw [Expr.renderList, Expr.renderList, String.intercalate_singleton, Expr.listLexemes]
      exact Expr.scan_render e h.1 hrest
  | e :: f :: es, h, rest, hrest => by
      have hmore : Expr.renderList (f :: es) ≠ [] := by simp [Expr.renderList]
      have he : ∀ cs, scan ((Expr.render e).toList ++ ',' :: ' ' :: cs)
          = Expr.lexemes e ++ .symbol .comma :: scan cs := fun cs => by
        rw [Expr.scan_render e h.1 (endsWord_cons rfl _), (scan_punctuation _).2.2.2.2.2.2.1,
          scan_space_cons]
      have hes := Expr.scan_renderList (f :: es) h.2 hrest
      rw [Expr.renderList, String.intercalate_cons_of_ne_nil hmore, Expr.listLexemes]
      simp [he, hes, -String.toList_intercalate]

/-- The pairs of a hash literal are read with commas between them, as `pairLexemes` has them. Within
a pair the colon keeps the key apart and is followed by a space. -/
theorem Expr.scan_renderPairs : (ps : List (Expr × Expr)) → Expr.SpellablePairs ps →
    ∀ {rest : List Char}, EndsWord rest →
      scan ((", ".intercalate (Expr.renderPairs ps)).toList ++ rest)
        = Expr.pairLexemes ps ++ scan rest
  | [], _, rest, _ => by simp [Expr.renderPairs, Expr.pairLexemes]
  | [(key, value)], h, rest, hrest => by
      have hkey : ∀ cs, scan ((Expr.render key).toList ++ ':' :: ' ' :: cs)
          = Expr.lexemes key ++ .symbol .colon :: scan cs := fun cs => by
        rw [Expr.scan_render key h.1 (endsWord_cons rfl _),
          (scan_punctuation _).2.2.2.2.2.2.2.1, scan_space_cons]
      have hvalue := Expr.scan_render value h.2.1 hrest
      rw [Expr.renderPairs, Expr.renderPairs, String.intercalate_singleton, Expr.pairLexemes]
      simp [hkey, hvalue]
  | (key, value) :: pair :: pairs, h, rest, hrest => by
      -- There is another pair, so that a comma stands behind this one.
      have hmore : Expr.renderPairs (pair :: pairs) ≠ [] := by
        simp [Expr.renderPairs_eq_map]
      have hkey : ∀ cs, scan ((Expr.render key).toList ++ ':' :: ' ' :: cs)
          = Expr.lexemes key ++ .symbol .colon :: scan cs := fun cs => by
        rw [Expr.scan_render key h.1 (endsWord_cons rfl _),
          (scan_punctuation _).2.2.2.2.2.2.2.1, scan_space_cons]
      have hvalue : ∀ cs, scan ((Expr.render value).toList ++ ',' :: ' ' :: cs)
          = Expr.lexemes value ++ .symbol .comma :: scan cs := fun cs => by
        rw [Expr.scan_render value h.2.1 (endsWord_cons rfl _),
          (scan_punctuation _).2.2.2.2.2.2.1, scan_space_cons]
      have hpairs := Expr.scan_renderPairs (pair :: pairs) h.2.2 hrest
      rw [Expr.renderPairs, String.intercalate_cons_of_ne_nil hmore, Expr.pairLexemes]
      simp [hkey, hvalue, hpairs, -String.toList_intercalate]

/-- The canonical text of a statement standing last is read as its `bareLexemes` and what closes it.
An expression closes itself, which is why `rest` has to keep apart from it. -/
theorem Statement.scan_render : (s : Statement) → Statement.Spellable s → ∀ {rest : List Char},
    EndsWord rest → scan ((Statement.render s).toList ++ rest)
      = Statement.bareLexemes s ++ (s.ending ++ scan rest)
  | .binding name value, h, rest, _ => by
      have hname : ∀ cs, scan (name.toList ++ ' ' :: cs) = .identifier name :: scan cs :=
        fun cs => by
          rw [← scan_space_cons cs]
          exact scan_source_of_endsWord (t := .identifier name) h.1 (by simp)
            (endsWord_cons rfl cs)
      have hvalue := Expr.scan_render value h.2 (endsWord_cons (c := ';') rfl rest)
      simp [Statement.render, Statement.bareLexemes, Statement.ending, scan_words, hname,
        scan_assign, hvalue, scan_punctuation]
  | .returning value, h, rest, _ => by
      have hvalue := Expr.scan_render value h (endsWord_cons (c := ';') rfl rest)
      simp [Statement.render, Statement.bareLexemes, Statement.ending, scan_words, hvalue,
        scan_punctuation]
  | .expression value, h, rest, hrest => by
      rw [Statement.render]
      exact Expr.scan_render value h hrest

/-- The statements of a block are read with semicolons between them, as `blockLexemes` has them.
Every statement but the last goes by `scan_closed`. -/
theorem Statement.scan_renderList : (b : List Statement) → Statement.SpellableList b →
    ∀ {rest : List Char}, EndsWord rest →
      scan ((" ".intercalate (Statement.renderList b)).toList ++ rest)
        = Statement.blockLexemes b ++ scan rest
  | [], _, rest, _ => by simp [Statement.renderList, Statement.blockLexemes]
  | [s], h, rest, hrest => by
      rw [Statement.renderList, String.intercalate_singleton, Statement.blockLexemes,
        List.append_assoc]
      exact Statement.scan_render s h.1 hrest
  | s :: t :: more, h, rest, hrest => by
      -- Another statement follows, so this one is closed and a space stands behind it.
      have hmore : Statement.renderList (t :: more) ≠ [] := by
        cases more <;> simp [Statement.renderList]
      have hs : ∀ cs, scan ((Statement.render s ++ s.closer).toList ++ ' ' :: cs)
          = Statement.bareLexemes s ++ .symbol .semicolon :: scan cs := fun cs =>
        Statement.scan_closed (Statement.scan_render s h.1)
      have hblock := Statement.scan_renderList (t :: more) h.2 hrest
      rw [Statement.renderList, String.intercalate_cons_of_ne_nil hmore, Statement.blockLexemes,
        String.toList_append, String.toList_append, List.append_assoc, List.append_assoc]
      show scan ((Statement.render s ++ s.closer).toList ++ ' ' ::
        ((" ".intercalate (Statement.renderList (t :: more))).toList ++ rest)) = _
      rw [hs, hblock, List.append_assoc, List.cons_append]

/-- A block is read with its braces, whatever follows: no text merges with a closing brace, so there
is no hypothesis on `rest`. -/
theorem Statement.scan_renderBlock : (b : List Statement) → Statement.SpellableList b →
    ∀ rest : List Char, scan ((Statement.renderBlock b).toList ++ rest)
      = .symbol .leftBrace :: (Statement.blockLexemes b ++ .symbol .rightBrace :: scan rest)
  | [], _, rest => by
      simp [Statement.renderBlock, Statement.blockLexemes, scan_punctuation]
  | s :: more, h, rest => by
      -- The last statement ends in front of the space that the printer sets before the brace.
      have hblock := Statement.scan_renderList (s :: more) h
        (endsWord_cons (c := ' ') rfl ('}' :: rest))
      simp [Statement.renderBlock, scan_punctuation, hblock, -String.toList_intercalate]

/-- A second branch is read if there is one, its `else` set apart by spaces and its block by
`scan_renderBlock`. -/
theorem Statement.scan_renderBranch : (other : Option (List Statement)) →
    Statement.SpellableBranch other → ∀ rest : List Char,
      scan ((Statement.renderBranch other).toList ++ rest)
        = Statement.branchLexemes other ++ scan rest
  | none, _, rest => by simp [Statement.renderBranch, Statement.branchLexemes]
  | some block, h, rest => by
      have hblock := Statement.scan_renderBlock block h rest
      simp [Statement.renderBranch, Statement.branchLexemes, scan_words, hblock]

end

/-- The canonical text of a program is read as the canonical lexemes of its statements. The instance
of `Statement.scan_renderList` at the end of a text, where `EndsWord` is free. -/
theorem Program.scan_render (p : Program) (h : Statement.SpellableList p.statements) :
    scan p.render.toList = Statement.blockLexemes p.statements := by
  have hlist := Statement.scan_renderList p.statements h endsWord_nil
  rw [List.append_nil, scan_nil, List.append_nil] at hlist
  exact hlist

end Monkey
