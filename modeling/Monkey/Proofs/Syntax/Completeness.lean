import Monkey.Proofs.Syntax.Grammar
import Monkey.Proofs.Syntax.Place

/-!
# `Monkey.Proofs.Syntax.Completeness`: what is written is read

Where the lexemes from a place on start with a way to write a tree, and
what stands behind leaves that tree alone, the parsers read the tree and
end on its last lexeme.

An operand of a binary operator is read by a parse that then goes on with
the operator, so the statement about expressions, `Expr.Written.reads`,
does not say that the parse ends there. It says that the parse comes to
the end of the written lexemes with the expression in hand and looks for
what continues it. `Expr.Written.parse` is the case in which nothing
does. All statements are proved together, along the derivation.
-/

set_option autoImplicit false

namespace Monkey

/-! ### What may stand behind an expression -/

/-- Lexemes that leave alone what is in front of them and binds as tightly as `p`: they do not start
with a continuation that binds more tightly, and not with a second branch. -/
def LeavesAlone (p : Precedence) (rest : List Lexeme) : Prop :=
  ∀ t, rest.head? = some t →
    t ≠ .keyword .elseKw ∧ ∀ kind, Continuation.ofLexeme? t = some kind → kind.precedence ≤ p

/-- What binds more tightly is left alone too: a continuation that does not bind more tightly than
`p` does not bind more tightly than `q` either. -/
theorem LeavesAlone.mono {p q : Precedence} {rest : List Lexeme} (h : LeavesAlone p rest)
    (hpq : p ≤ q) : LeavesAlone q rest := by
  intro t ht
  obtain ⟨helse, hkind⟩ := h t ht
  exact ⟨helse, fun kind hk => Nat.le_trans (hkind kind hk) hpq⟩

/-- A symbol that starts no continuation leaves everything alone, at every strength. Closing marks,
commas, colons and semicolons are of this kind, so `h` is always closed by `rfl`. -/
theorem leavesAlone_symbol {p : Precedence} {mark : Symbol} {rest : List Lexeme}
    (h : Continuation.ofSymbol? mark = none) : LeavesAlone p (.symbol mark :: rest) := by
  intro t ht
  cases ht
  refine ⟨by simp, fun kind hk => ?_⟩
  rw [Continuation.ofLexeme?, h] at hk
  cases hk

/-- A binary operator leaves alone what binds at least as tightly as itself, at any strength `p`
from its own on. This is what makes operators of one strength group to the left. -/
theorem leavesAlone_operator {p : Precedence} {op : BinaryOp} {rest : List Lexeme}
    (h : op.precedence ≤ p) : LeavesAlone p (.symbol op.symbol :: rest) := by
  intro t ht
  cases ht
  refine ⟨by simp, fun kind hk => ?_⟩
  rw [Continuation.ofLexeme?, Continuation.ofSymbol?_symbol] at hk
  cases hk
  exact h

/-- Only a second branch could reach what binds as tightly as can be, and `else` is no symbol. So
behind a callee or what is indexed any mark may follow. -/
theorem leavesAlone_tightest {mark : Symbol} {rest : List Lexeme} :
    LeavesAlone .tightest (.symbol mark :: rest) := by
  intro t ht
  cases ht
  exact ⟨by simp, fun kind _ => Precedence.le_tightest _⟩

/-- The end of the lexemes leaves everything alone: `LeavesAlone` speaks of the first lexeme behind,
and there is none. -/
theorem leavesAlone_nil {p : Precedence} : LeavesAlone p [] := by
  intro t ht
  cases ht

/-- Statements that stand apart from what is in front of them leave it alone. If there are none,
`hrest` speaks of what comes behind them instead. -/
theorem StandsApart.leavesAlone {p : Precedence} {us rest : List Lexeme} {b : Block}
    (h : StandsApart us) (hb : Block.Written us b) (hrest : LeavesAlone p rest) :
    LeavesAlone p (us ++ rest) := by
  cases us with
  | nil => exact hrest
  | cons u us =>
      intro t ht
      cases ht
      refine ⟨?_, fun kind hk => ?_⟩
      · intro helse
        have hstart := hb.head (t := u) rfl
        rw [helse] at hstart
        cases hstart
      · rw [h u rfl] at hk
        cases hk

/-! ### The steps of a parse of an expression -/

/-- An expression whose operand is read goes on with what continues it. The form of `Expr.parse_eq`
in which each case of `Expr.Written.reads` ends. -/
theorem Expr.parse_of_operand {p : Precedence} {c k : Cursor} {e : Expr}
    (h : Expr.parseOperand c = .parsed e k) :
    Expr.parse p c = Expr.parseContinuations p e k := by
  rw [Expr.parse_eq, h, Outcome.andThen_parsed]

/-- Where an expression is left alone nothing continues it: either no continuation is ahead, or it
binds no more tightly than `p`. -/
theorem Expr.parseContinuations_of_leavesAlone {p : Precedence} {e : Expr} {c : Cursor}
    (h : LeavesAlone p c.behind) : Expr.parseContinuations p e c = .parsed e c := by
  rw [Expr.parseContinuations_eq]
  split
  · rfl
  · rename_i kind hkind
    rw [Cursor.continuation?_eq] at hkind
    obtain ⟨t, ht, hk⟩ := Option.bind_eq_some_iff.1 hkind
    have hnot : ¬ p < kind.precedence := Nat.not_lt.2 ((h t ht).2 kind hk)
    rw [if_neg hnot]

/-- A binary operator ahead that binds more tightly than asked for takes in what has been read. Its
right operand is parsed at the strength of the operator, and the larger expression at `p` again. -/
theorem Expr.parseContinuations_of_operator {p : Precedence} {e : Expr} {c : Cursor}
    {op : BinaryOp} {us : List Lexeme} (h : c.behind = .symbol op.symbol :: us)
    (hp : p < op.precedence) :
    Expr.parseContinuations p e c =
      (Expr.parse op.precedence c.next.next).andThen fun right k =>
        Expr.parseContinuations p (.binary op e right) k := by
  have hkind : c.continuation? = some (.binary op) := by
    rw [Cursor.continuation?_eq, h]
    exact Continuation.ofSymbol?_symbol op
  rw [Expr.parseContinuations_eq, hkind]
  exact if_pos hp

/-- An opening parenthesis ahead makes what has been read, `e`, a callee, unless the parse asks for
the strength of a call or more. -/
theorem Expr.parseContinuations_of_leftParen {p : Precedence} {e : Expr} {c : Cursor}
    {us : List Lexeme} (h : c.behind = .symbol .leftParen :: us) (hp : p < .call) :
    Expr.parseContinuations p e c =
      (Expr.parseList .rightParen c.next.next).andThen fun arguments k =>
        Expr.parseContinuations p (.call e arguments) k := by
  have hkind : c.continuation? = some .call := by
    rw [Cursor.continuation?_eq, h]
    rfl
  rw [Expr.parseContinuations_eq, hkind]
  exact if_pos hp

/-- An opening bracket ahead makes what has been read something that is indexed. The position is an
expression of its own, parsed at `lowest` and closed by its bracket. -/
theorem Expr.parseContinuations_of_leftBracket {p : Precedence} {e : Expr} {c : Cursor}
    {us : List Lexeme} (h : c.behind = .symbol .leftBracket :: us) (hp : p < .index) :
    Expr.parseContinuations p e c =
      (Expr.parse .lowest c.next.next).andThen fun position k =>
        k.require .rightBracket fun m =>
          Expr.parseContinuations p (.index e position) m := by
  have hkind : c.continuation? = some .index := by
    rw [Cursor.continuation?_eq, h]
    rfl
  rw [Expr.parseContinuations_eq, hkind]
  exact if_pos hp

/-! ### Parameters -/

/-- Further parameters, each behind a comma, and the parenthesis that closes them are read. By
induction on the names; `c` is left free since two tokens are gone past for each. -/
theorem Expr.parseMoreParameters_of_behind {rest : List Lexeme} :
    ∀ (names : List String) {c : Cursor},
      c.behind = names.flatMap (fun name => [.symbol .comma, .identifier name])
        ++ .symbol .rightParen :: rest →
      ∃ k, k.behind = rest ∧ Expr.parseMoreParameters c = .parsed names k
  | [], c, hc => by
      have hpeek : c.peek = some (.symbol .rightParen) := Cursor.peek_of_behind hc
      refine ⟨c.next, Cursor.behind_next_of_behind hc, ?_⟩
      rw [Expr.parseMoreParameters_eq, if_neg (by rw [hpeek]; decide),
        Cursor.require_of_peek hpeek]
  | name :: names, c, hc => by
      have hpeek : c.peek = some (.symbol .comma) := Cursor.peek_of_behind hc
      have hname := Cursor.behind_next_of_behind hc
      obtain ⟨k, hk, hparse⟩ := Expr.parseMoreParameters_of_behind names
        (Cursor.behind_next_of_behind hname)
      refine ⟨k, hk, ?_⟩
      rw [Expr.parseMoreParameters_eq, if_pos hpeek,
        Cursor.requireName_of_peek (Cursor.peek_of_behind hname), hparse, Outcome.andThen_parsed]

/-- The parameters of a function and the parenthesis that closes them are read. The first one has no
comma in front of it, so `parseMoreParameters_of_behind` covers the others. -/
theorem Expr.parseParameters_of_behind {names : List String} {rest : List Lexeme} {c : Cursor}
    (hc : c.behind = parameterLexemes names ++ .symbol .rightParen :: rest) :
    ∃ k, k.behind = rest ∧ Expr.parseParameters c = .parsed names k := by
  cases names with
  | nil =>
      refine ⟨c.next, Cursor.behind_next_of_behind hc, ?_⟩
      rw [Expr.parseParameters_eq, if_pos (Cursor.peek_of_behind hc)]
  | cons name names =>
      rw [parameterLexemes_cons] at hc
      have hpeek : c.peek = some (.identifier name) := Cursor.peek_of_behind hc
      obtain ⟨k, hk, hparse⟩ := Expr.parseMoreParameters_of_behind names
        (Cursor.behind_next_of_behind hc)
      refine ⟨k, hk, ?_⟩
      rw [Expr.parseParameters_eq, if_neg (by rw [hpeek]; simp),
        Cursor.requireName_of_peek hpeek, hparse, Outcome.andThen_parsed]

/-! ### The first lexeme of what is written -/

/-- Where an expression is written no lexeme stands that cannot start one, as `startsExpression`
tells. Used of closing marks and reserved words, to see that a parser takes its other branch. -/
theorem Expr.Written.current_ne {p : Precedence} {ts rest : List Lexeme} {e : Expr} {c : Cursor}
    {t : Lexeme} (h : Expr.Written p ts e) (ht : t.startsExpression = false)
    (hc : c.lexemes = ts ++ rest) : c.current ≠ some t := by
  obtain ⟨u, us, rfl, hu⟩ := h.head
  rw [Cursor.current_of_lexemes hc]
  intro heq
  cases heq
  rw [ht] at hu
  cases hu

/-- Where a statement is written a lexeme stands that may start one, so the text has not ended and
no block closes there. -/
theorem Statement.Written.current {ts rest : List Lexeme} {s : Statement} {c : Cursor}
    (h : Statement.Written ts s) (hc : c.lexemes = ts ++ rest) :
    ∃ t, c.current = some t ∧ t.startsStatement = true := by
  obtain ⟨t, us, rfl, ht⟩ := h.head
  exact ⟨t, Cursor.current_of_lexemes hc, ht⟩

/-- Behind a statement that stands apart from what follows there is no semicolon, so `pastSemicolon`
stays. A block starts with no semicolon, and `hrest` covers the empty one. -/
theorem Block.Written.peek_ne {us rest : List Lexeme} {b : Block} {c : Cursor}
    (h : Block.Written us b) (hrest : rest.head? ≠ some (.symbol .semicolon))
    (hc : c.behind = us ++ rest) : c.peek ≠ some (.symbol .semicolon) := by
  rw [Cursor.peek_eq_head?, hc]
  cases us with
  | nil => exact hrest
  | cons u us =>
      intro hu
      cases hu
      cases h.head (t := .symbol .semicolon) rfl

/-- Further expressions of a list, closed by a symbol, leave the expression in front alone: a comma
or the symbol `close` stands behind it. -/
theorem Expr.MoreWritten.leavesAlone {p : Precedence} {us rest : List Lexeme} {es : List Expr}
    {close : Symbol} (h : Expr.MoreWritten us es) (hclose : Continuation.ofSymbol? close = none) :
    LeavesAlone p (us ++ .symbol close :: rest) := by
  cases h with
  | nil => exact leavesAlone_symbol hclose
  | cons head tail => exact leavesAlone_symbol rfl

/-- A place where a statement may start is read as a statement, and what stands behind it as the
rest of the block. Neither the end of the text nor a closing brace is such a place. -/
theorem Block.parse_of_statement {c : Cursor}
    (h : ∃ t, c.current = some t ∧ t.startsStatement = true) :
    Block.parse c =
      (Statement.parse c).andThen fun s k =>
        (Block.parse k.next).andThen fun rest m => .parsed (s :: rest) m := by
  obtain ⟨t, ht, hstart⟩ := h
  have hbrace : t ≠ .symbol .rightBrace := by
    rintro rfl
    cases hstart
  rw [Block.parse_eq]
  simp only [ht]
  rw [if_neg hbrace]

/-- A place without the reserved words of the other statements is read as an expression. The two
hypotheses are what `Expr.Written.current_ne` gives. -/
theorem Statement.parse_of_expression {c : Cursor} (hlet : c.current ≠ some (.keyword .letKw))
    (hreturn : c.current ≠ some (.keyword .returnKw)) :
    Statement.parse c =
      (Expr.parse .lowest c).andThen fun value k =>
        .parsed (.expression value) k.pastSemicolon := by
  rw [Statement.parse_eq]
  split
  · contradiction
  · contradiction
  · rfl

/-! ### Reading what is written -/

/-- A parse that has come to the end of a written expression ends there, if what stands behind
leaves alone what binds as tightly as the parse asks for. Turns the conclusion of
`Expr.Written.reads` into an outcome. -/
theorem Expr.parsed_of_reads {s p : Precedence} {c : Cursor} {rest : List Lexeme} {e : Expr}
    (weak : s ≤ .unary) (takes : s < p ∨ .unary ≤ p) (hrest : LeavesAlone s rest)
    (h : LeavesAlone p rest →
      ∃ k, k.behind = rest ∧ Expr.parse s c = Expr.parseContinuations s e k) :
    ∃ k, k.behind = rest ∧ Expr.parse s c = .parsed e k := by
  have hsp : s ≤ p := by
    rcases takes with hlt | hle
    · exact Nat.le_of_lt hlt
    · exact Nat.le_trans weak hle
  obtain ⟨k, hk, hparse⟩ := h (hrest.mono hsp)
  refine ⟨k, hk, ?_⟩
  rw [hparse, Expr.parseContinuations_of_leavesAlone (hk ▸ hrest)]

/-- The same as `Expr.parsed_of_reads` for a parse that asks for no strength at all, as every parse
does that is closed by a symbol or ends with a statement. -/
theorem Expr.Written.parsed_of_reads {p : Precedence} {ts : List Lexeme} {e : Expr} {c : Cursor}
    {rest : List Lexeme} (h : Expr.Written p ts e) (hrest : LeavesAlone .lowest rest)
    (hreads : .lowest < p ∨ .unary ≤ p → LeavesAlone p rest →
      ∃ k, k.behind = rest ∧ Expr.parse .lowest c = Expr.parseContinuations .lowest e k) :
    ∃ k, k.behind = rest ∧ Expr.parse .lowest c = .parsed e k :=
  Expr.parsed_of_reads (by decide) (.inl h.lowest_lt) hrest (hreads (.inl h.lowest_lt))

/-- A parse comes to the end of an expression that is a single lexeme. The five such constructors of
`Expr.Written` differ only in what `Expr.parseOperand_eq` makes of the lexeme. -/
theorem Expr.reads_of_lexeme {s : Precedence} {c : Cursor} {t : Lexeme} {rest : List Lexeme}
    {e : Expr} (hc : c.lexemes = t :: rest)
    (h : c.current = some t → Expr.parseOperand c = .parsed e c) :
    ∃ k, k.behind = rest ∧ Expr.parse s c = Expr.parseContinuations s e k :=
  ⟨c, Cursor.behind_of_lexemes hc, Expr.parse_of_operand (h (Cursor.current_of_lexemes hc))⟩

mutual

/-- A parse comes to the end of a written expression and looks for what continues it, if it asks for
no more strength than the expression has and what stands behind leaves the expression alone. By
induction on the derivation. The conclusion stops short of the outcome because a larger expression
goes on from here with a continuation of its own. -/
theorem Expr.Written.reads {p : Precedence} {ts : List Lexeme} {e : Expr} :
    Expr.Written p ts e → ∀ ⦃s : Precedence⦄ ⦃c : Cursor⦄ ⦃rest : List Lexeme⦄,
      s ≤ .unary → s < p ∨ .unary ≤ p → c.lexemes = ts ++ rest → LeavesAlone p rest →
      ∃ k, k.behind = rest ∧ Expr.parse s c = Expr.parseContinuations s e k
  | .identifier name => by
      intro s c rest _ _ hc _
      exact Expr.reads_of_lexeme hc fun hcurrent => by simp [Expr.parseOperand_eq, hcurrent]
  | .integer digits small => by
      intro s c rest _ _ hc _
      have hread : Numeral.read? digits
          = some (Int64.ofNat (Numeral.value digits.toList)) := if_pos small
      exact Expr.reads_of_lexeme hc fun hcurrent => by
        simp [Expr.parseOperand_eq, hcurrent, hread]
  | .string content => by
      intro s c rest _ _ hc _
      exact Expr.reads_of_lexeme hc fun hcurrent => by simp [Expr.parseOperand_eq, hcurrent]
  | .truth => by
      intro s c rest _ _ hc _
      exact Expr.reads_of_lexeme hc fun hcurrent => by simp [Expr.parseOperand_eq, hcurrent]
  | .falsity => by
      intro s c rest _ _ hc _
      exact Expr.reads_of_lexeme hc fun hcurrent => by simp [Expr.parseOperand_eq, hcurrent]
  | @Expr.Written.parenthesized _ ts _ inner => by
      intro s c rest _ _ hc _
      have hin : c.next.lexemes = ts ++ .symbol .rightParen :: rest := by
        rw [Cursor.lexemes_next, Cursor.behind_of_lexemes hc]
        simp
      obtain ⟨k, hk, hparse⟩ := inner.parsed_of_reads (leavesAlone_symbol rfl) fun takes =>
        inner.reads (by decide) takes hin
      refine ⟨k.next, Cursor.behind_next_of_behind hk, Expr.parse_of_operand ?_⟩
      simp only [Expr.parseOperand_eq, Cursor.current_of_lexemes hc]
      rw [hparse, Outcome.andThen_parsed, Cursor.require_of_peek (Cursor.peek_of_behind hk)]
  | @Expr.Written.array ts _ elements => by
      intro s c rest _ _ hc _
      have hin : c.next.lexemes = ts ++ .symbol .rightBracket :: rest := by
        rw [Cursor.lexemes_next, Cursor.behind_of_lexemes hc]
        simp
      obtain ⟨k, hk, hparse⟩ := elements.parse rfl rfl (by decide) hin
      refine ⟨k, hk, Expr.parse_of_operand ?_⟩
      simp only [Expr.parseOperand_eq, Cursor.current_of_lexemes hc]
      rw [hparse, Outcome.andThen_parsed]
  | @Expr.Written.hash ts _ pairs => by
      intro s c rest _ _ hc _
      have hin : c.next.lexemes = ts ++ .symbol .rightBrace :: rest := by
        rw [Cursor.lexemes_next, Cursor.behind_of_lexemes hc]
        simp
      obtain ⟨k, hk, hparse⟩ := pairs.parse hin
      refine ⟨k, hk, Expr.parse_of_operand ?_⟩
      simp only [Expr.parseOperand_eq, Cursor.current_of_lexemes hc]
      rw [hparse, Outcome.andThen_parsed]
  | @Expr.Written.conditional _ ts us vs _ _ _ condition consequence alternative => by
      intro s c rest _ _ hc hrest
      have hbehind := Cursor.behind_of_lexemes hc
      have hcond : c.next.next.lexemes
          = ts ++ .symbol .rightParen :: (.symbol .leftBrace ::
              (us ++ .symbol .rightBrace :: (vs ++ rest))) := by
        rw [Cursor.lexemes_next, Cursor.behind_next_of_behind hbehind]
        simp
      obtain ⟨k, hk, hparse⟩ := condition.parsed_of_reads (leavesAlone_symbol rfl) fun takes =>
        condition.reads (by decide) takes hcond
      have hbrace := Cursor.behind_next_of_behind hk
      have hblock : k.next.next.next.lexemes = us ++ .symbol .rightBrace :: (vs ++ rest) := by
        rw [Cursor.lexemes_next, Cursor.behind_next_of_behind hbrace]
      obtain ⟨m, hm, hconsequence⟩ := consequence.parse hblock
      -- Without a second branch no `else` may stand behind; `LeavesAlone` says that none does.
      obtain ⟨n, hn, halternative⟩ := alternative.parse hm (fun h => (hrest _ h).1 rfl)
      refine ⟨n, hn, Expr.parse_of_operand ?_⟩
      simp only [Expr.parseOperand_eq, Cursor.current_of_lexemes hc]
      rw [Cursor.require_of_peek (Cursor.peek_of_behind hbehind), hparse, Outcome.andThen_parsed,
        Cursor.require_of_peek (Cursor.peek_of_behind hk),
        Cursor.require_of_peek (Cursor.peek_of_behind hbrace), hconsequence,
        Outcome.andThen_parsed, halternative, Outcome.andThen_parsed]
  | @Expr.Written.function us _ names body => by
      intro s c rest _ _ hc _
      have hbehind := Cursor.behind_of_lexemes hc
      have hnames : c.next.behind
          = parameterLexemes names ++ .symbol .rightParen :: (.symbol .leftBrace ::
              (us ++ .symbol .rightBrace :: rest)) := by
        rw [Cursor.behind_next_of_behind hbehind]
        simp
      obtain ⟨k, hk, hparameters⟩ := Expr.parseParameters_of_behind hnames
      have hblock : k.next.next.lexemes = us ++ .symbol .rightBrace :: rest := by
        rw [Cursor.lexemes_next, Cursor.behind_next_of_behind hk]
      obtain ⟨m, hm, hbody⟩ := body.parse hblock
      refine ⟨m, hm, Expr.parse_of_operand ?_⟩
      simp only [Expr.parseOperand_eq, Cursor.current_of_lexemes hc]
      rw [Cursor.require_of_peek (Cursor.peek_of_behind hbehind), hparameters,
        Outcome.andThen_parsed, Cursor.require_of_peek (Cursor.peek_of_behind hk), hbody,
        Outcome.andThen_parsed]
  | @Expr.Written.call ts us _ _ callee arguments => by
      intro s c rest weak _ hc _
      have hcallee : c.lexemes
          = ts ++ (.symbol .leftParen :: (us ++ .symbol .rightParen :: rest)) := by
        rw [hc]
        simp
      -- The parse comes to the end of the callee, and the parenthesis continues it.
      obtain ⟨k, hk, hparse⟩ := callee.reads weak (.inr (by decide)) hcallee leavesAlone_tightest
      have hin : k.next.next.lexemes = us ++ .symbol .rightParen :: rest := by
        rw [Cursor.lexemes_next, Cursor.behind_next_of_behind hk]
      obtain ⟨m, hm, harguments⟩ := arguments.parse rfl rfl (by decide) hin
      refine ⟨m, hm, ?_⟩
      rw [hparse, Expr.parseContinuations_of_leftParen hk (Nat.lt_of_le_of_lt weak (by decide)),
        harguments, Outcome.andThen_parsed]
  | @Expr.Written.index _ ts us _ _ indexed position => by
      intro s c rest weak _ hc _
      have hindexed : c.lexemes
          = ts ++ (.symbol .leftBracket :: (us ++ .symbol .rightBracket :: rest)) := by
        rw [hc]
        simp
      -- The parse comes to the end of what is indexed, and the bracket continues it.
      obtain ⟨k, hk, hparse⟩ := indexed.reads weak (.inr (by decide)) hindexed leavesAlone_tightest
      have hin : k.next.next.lexemes = us ++ .symbol .rightBracket :: rest := by
        rw [Cursor.lexemes_next, Cursor.behind_next_of_behind hk]
      obtain ⟨m, hm, hposition⟩ := position.parsed_of_reads (leavesAlone_symbol rfl) fun takes =>
        position.reads (by decide) takes hin
      refine ⟨m.next, Cursor.behind_next_of_behind hm, ?_⟩
      rw [hparse, Expr.parseContinuations_of_leftBracket hk (Nat.lt_of_le_of_lt weak (by decide)),
        hposition, Outcome.andThen_parsed, Cursor.require_of_peek (Cursor.peek_of_behind hm)]
  | @Expr.Written.unary _ ts _ op operand tight => by
      intro s c rest _ _ hc hrest
      have hin : c.next.lexemes = ts ++ rest := by
        rw [Cursor.lexemes_next, Cursor.behind_of_lexemes hc]
        rfl
      -- The operand is read with the strength of the operator, so it ends where the whole does.
      obtain ⟨k, hk, hparse⟩ := Expr.parsed_of_reads (Nat.le_refl _) (.inr tight) hrest
        (operand.reads (Nat.le_refl _) (.inr tight) hin)
      refine ⟨k, hk, Expr.parse_of_operand ?_⟩
      have hcurrent := Cursor.current_of_lexemes hc
      rw [Expr.parseOperand_eq]
      cases op with
      | negate =>
          simp only [hcurrent, UnaryOp.symbol]
          rw [hparse, Outcome.andThen_parsed]
      | not =>
          simp only [hcurrent, UnaryOp.symbol]
          rw [hparse, Outcome.andThen_parsed]
  | @Expr.Written.binary _ _ ts us _ _ op left leftTight right rightTight => by
      intro s c rest weak takes hc hrest
      -- No binary operator binds as tightly as a unary one, so the parse asks for less than it has.
      have hop : s < op.precedence := by
        rcases takes with hlt | hle
        · exact hlt
        · exact absurd op.precedence_bounds.2 (Nat.not_lt.2 hle)
      have hleft : c.lexemes = ts ++ (.symbol op.symbol :: (us ++ rest)) := by
        rw [hc]
        simp
      -- The operator leaves the left operand alone, since that binds at least as tightly, and what
      -- stands behind leaves the right operand alone, since that binds more tightly still.
      obtain ⟨k, hk, hparse⟩ := left.reads weak (.inl (Nat.lt_of_lt_of_le hop leftTight)) hleft
        (leavesAlone_operator leftTight)
      have hin : k.next.next.lexemes = us ++ rest := by
        rw [Cursor.lexemes_next, Cursor.behind_next_of_behind hk]
      have hweak : op.precedence ≤ .unary := Nat.le_of_lt op.precedence_bounds.2
      obtain ⟨m, hm, hright⟩ := Expr.parsed_of_reads hweak (.inl rightTight) hrest
        (right.reads hweak (.inl rightTight) hin)
      refine ⟨m, hm, ?_⟩
      rw [hparse, Expr.parseContinuations_of_operator hk hop, hright, Outcome.andThen_parsed]

/-- A list with the symbol that closes it is read. The conditions on `close` hold of both closing
marks of lists: it starts no expression, continues none, and is no comma. -/
theorem Expr.ListWritten.parse {ts : List Lexeme} {es : List Expr} :
    Expr.ListWritten ts es → ∀ ⦃close : Symbol⦄ ⦃c : Cursor⦄ ⦃rest : List Lexeme⦄,
      Continuation.ofSymbol? close = none → (Lexeme.symbol close).startsExpression = false →
      close ≠ .comma → c.lexemes = ts ++ .symbol close :: rest →
      ∃ k, k.behind = rest ∧ Expr.parseList close c = .parsed es k
  | .nil => by
      intro close c rest _ _ _ hc
      refine ⟨c, Cursor.behind_of_lexemes hc, ?_⟩
      rw [Expr.parseList_eq, if_pos (Cursor.current_of_lexemes hc)]
  | @Expr.ListWritten.cons _ ts us e es head tail => by
      intro close c rest hstop hstart hcomma hc
      have hhead : c.lexemes = ts ++ (us ++ .symbol close :: rest) := by
        rw [hc, List.append_assoc]
      obtain ⟨k, hk, hparse⟩ := head.parsed_of_reads (tail.leavesAlone hstop) fun takes =>
        head.reads (by decide) takes hhead
      obtain ⟨m, hm, hmore⟩ := tail.parse hcomma hstop hk
      refine ⟨m, hm, ?_⟩
      -- An expression starts with no closing symbol, so the list is not taken for an empty one.
      rw [Expr.parseList_eq, if_neg (head.current_ne hstart hhead), hparse,
        Outcome.andThen_parsed, hmore, Outcome.andThen_parsed]

/-- Further expressions of a list with the symbol that closes it are read, by induction on the
derivation. Each of them ends in front of a comma or of `close`, which leave it alone. -/
theorem Expr.MoreWritten.parse {ts : List Lexeme} {es : List Expr} :
    Expr.MoreWritten ts es → ∀ ⦃close : Symbol⦄ ⦃c : Cursor⦄ ⦃rest : List Lexeme⦄,
      close ≠ .comma → Continuation.ofSymbol? close = none →
      c.behind = ts ++ .symbol close :: rest →
      ∃ k, k.behind = rest ∧ Expr.parseMoreItems close c = .parsed es k
  | .nil => by
      intro close c rest hcomma _ hc
      have hpeek : c.peek = some (.symbol close) := Cursor.peek_of_behind hc
      refine ⟨c.next, Cursor.behind_next_of_behind hc, ?_⟩
      rw [Expr.parseMoreItems_eq, if_neg (by rw [hpeek]; simpa using hcomma),
        Cursor.require_of_peek hpeek]
  | @Expr.MoreWritten.cons _ ts us e es head tail => by
      intro close c rest hcomma hstop hc
      have hhead : c.next.next.lexemes = ts ++ (us ++ .symbol close :: rest) := by
        rw [Cursor.lexemes_next, Cursor.behind_next_of_behind hc]
        exact List.append_assoc _ _ _
      -- A comma or `close` follows the element, and neither of them continues an expression.
      obtain ⟨k, hk, hparse⟩ := head.parsed_of_reads (tail.leavesAlone hstop) fun takes =>
        head.reads (by decide) takes hhead
      obtain ⟨m, hm, hmore⟩ := tail.parse hcomma hstop hk
      refine ⟨m, hm, ?_⟩
      rw [Expr.parseMoreItems_eq, if_pos (Cursor.peek_of_behind hc), hparse,
        Outcome.andThen_parsed, hmore, Outcome.andThen_parsed]

/-- The pairs of a hash literal with the brace that closes them are read. The grammar has a comma
behind the last pair or none, and the parser looks for the brace before it asks for the comma. -/
theorem Expr.PairsWritten.parse {ts : List Lexeme} {ps : List (Expr × Expr)} :
    Expr.PairsWritten ts ps → ∀ ⦃c : Cursor⦄ ⦃rest : List Lexeme⦄,
      c.lexemes = ts ++ .symbol .rightBrace :: rest →
      ∃ k, k.behind = rest ∧ Expr.parsePairs c = .parsed ps k
  | .nil => by
      intro c rest hc
      refine ⟨c, Cursor.behind_of_lexemes hc, ?_⟩
      rw [Expr.parsePairs_eq, if_pos (Cursor.current_of_lexemes hc)]
  | @Expr.PairsWritten.last _ _ ts us _ _ key value => by
      intro c rest hc
      have hkey : c.lexemes
          = ts ++ .symbol .colon :: (us ++ .symbol .rightBrace :: rest) := by
        rw [hc]
        simp
      obtain ⟨k, hk, hparse⟩ := key.parsed_of_reads (leavesAlone_symbol rfl) fun takes =>
        key.reads (by decide) takes hkey
      have hvalue : k.next.next.lexemes = us ++ .symbol .rightBrace :: rest := by
        rw [Cursor.lexemes_next, Cursor.behind_next_of_behind hk]
      obtain ⟨m, hm, hparse'⟩ := value.parsed_of_reads (leavesAlone_symbol rfl) fun takes =>
        value.reads (by decide) takes hvalue
      refine ⟨m.next, Cursor.behind_next_of_behind hm, ?_⟩
      rw [Expr.parsePairs_eq, if_neg (key.current_ne rfl hkey), hparse, Outcome.andThen_parsed,
        Cursor.require_of_peek (Cursor.peek_of_behind hk), hparse', Outcome.andThen_parsed,
        if_pos (Cursor.peek_of_behind hm)]
  | @Expr.PairsWritten.cons _ _ ts us ws _ _ _ key value tail => by
      intro c rest hc
      have hkey : c.lexemes = ts ++ .symbol .colon ::
          (us ++ .symbol .comma :: (ws ++ .symbol .rightBrace :: rest)) := by
        rw [hc]
        simp
      obtain ⟨k, hk, hparse⟩ := key.parsed_of_reads (leavesAlone_symbol rfl) fun takes =>
        key.reads (by decide) takes hkey
      have hvalue : k.next.next.lexemes
          = us ++ .symbol .comma :: (ws ++ .symbol .rightBrace :: rest) := by
        rw [Cursor.lexemes_next, Cursor.behind_next_of_behind hk]
      obtain ⟨m, hm, hparse'⟩ := value.parsed_of_reads (leavesAlone_symbol rfl) fun takes =>
        value.reads (by decide) takes hvalue
      -- Behind the comma the pairs go on, be it with a further pair or with the brace.
      have hcomma : m.peek = some (.symbol .comma) := Cursor.peek_of_behind hm
      obtain ⟨n, hn, hrest⟩ := tail.parse (c := m.next.next) (by
        rw [Cursor.lexemes_next, Cursor.behind_next_of_behind hm])
      refine ⟨n, hn, ?_⟩
      rw [Expr.parsePairs_eq, if_neg (key.current_ne rfl hkey), hparse, Outcome.andThen_parsed,
        Cursor.require_of_peek (Cursor.peek_of_behind hk), hparse', Outcome.andThen_parsed,
        if_neg (by rw [hcomma]; decide), Cursor.require_of_peek hcomma, hrest,
        Outcome.andThen_parsed]

/-- A statement is read up to its semicolon, which is gone past if it is there. The place is given
as `k.pastSemicolon`, and `k` stands on the last lexeme of the statement itself. -/
theorem Statement.Written.parse {ts : List Lexeme} {s : Statement} :
    Statement.Written ts s → ∀ ⦃c : Cursor⦄ ⦃rest : List Lexeme⦄,
      c.lexemes = ts ++ rest → LeavesAlone .lowest rest →
      ∃ k : Cursor, k.behind = rest ∧ Statement.parse c = .parsed s k.pastSemicolon
  | @Statement.Written.binding _ ts _ name value => by
      intro c rest hc hrest
      have hname := Cursor.behind_of_lexemes hc
      have hassign := Cursor.behind_next_of_behind hname
      have hvalue : c.next.next.next.lexemes = ts ++ rest := by
        rw [Cursor.lexemes_next, Cursor.behind_next_of_behind hassign]
        rfl
      obtain ⟨k, hk, hparse⟩ := value.parsed_of_reads hrest fun takes =>
        value.reads (by decide) takes hvalue
      refine ⟨k, hk, ?_⟩
      simp only [Statement.parse_eq, Cursor.current_of_lexemes hc]
      rw [Cursor.requireName_of_peek (Cursor.peek_of_behind hname),
        Cursor.require_of_peek (Cursor.peek_of_behind hassign), hparse, Outcome.andThen_parsed]
  | @Statement.Written.returning _ ts _ value => by
      intro c rest hc hrest
      have hvalue : c.next.lexemes = ts ++ rest := by
        rw [Cursor.lexemes_next, Cursor.behind_of_lexemes hc]
        rfl
      obtain ⟨k, hk, hparse⟩ := value.parsed_of_reads hrest fun takes =>
        value.reads (by decide) takes hvalue
      refine ⟨k, hk, ?_⟩
      simp only [Statement.parse_eq, Cursor.current_of_lexemes hc]
      rw [hparse, Outcome.andThen_parsed]
  | .expression value => by
      intro c rest hc hrest
      obtain ⟨k, hk, hparse⟩ := value.parsed_of_reads hrest fun takes =>
        value.reads (by decide) takes hc
      refine ⟨k, hk, ?_⟩
      -- An expression starts with neither of the reserved words of the other statements.
      rw [Statement.parse_of_expression (value.current_ne rfl hc) (value.current_ne rfl hc), hparse,
        Outcome.andThen_parsed]

/-- The statements of a block with the brace that closes them are read. The two ways to end a
statement, by a semicolon or by what stands apart, decide where the next one starts. -/
theorem Block.Written.parse {ts : List Lexeme} {b : Block} :
    Block.Written ts b → ∀ ⦃c : Cursor⦄ ⦃rest : List Lexeme⦄,
      c.lexemes = ts ++ .symbol .rightBrace :: rest →
      ∃ k, k.behind = rest ∧ Block.parse c = .parsed b k
  | .nil => by
      intro c rest hc
      refine ⟨c, Cursor.behind_of_lexemes hc, ?_⟩
      simp [Block.parse_eq, Cursor.current_of_lexemes hc]
  | @Block.Written.closed ts us _ _ head tail => by
      intro c rest hc
      have hhead : c.lexemes
          = ts ++ (.symbol .semicolon :: (us ++ .symbol .rightBrace :: rest)) := by
        rw [hc]
        simp
      obtain ⟨k, hk, hparse⟩ := head.parse hhead (leavesAlone_symbol rfl)
      obtain ⟨m, hm, hrest⟩ := tail.parse (c := k.next.next) (by
        rw [Cursor.lexemes_next, Cursor.behind_next_of_behind hk])
      refine ⟨m, hm, ?_⟩
      rw [Block.parse_of_statement (head.current hhead), hparse, Outcome.andThen_parsed,
        Cursor.pastSemicolon_of_peek (Cursor.peek_of_behind hk), hrest, Outcome.andThen_parsed]
  | @Block.Written.bare ts us _ _ head apart tail => by
      intro c rest hc
      have hhead : c.lexemes = ts ++ (us ++ .symbol .rightBrace :: rest) := by
        rw [hc, List.append_assoc]
      obtain ⟨k, hk, hparse⟩ := head.parse hhead (apart.leavesAlone tail (leavesAlone_symbol rfl))
      -- There is no semicolon to go past, so the next statement starts right behind this one.
      obtain ⟨m, hm, hrest⟩ := tail.parse (c := k.next) (by rw [Cursor.lexemes_next, hk])
      refine ⟨m, hm, ?_⟩
      rw [Block.parse_of_statement (head.current hhead), hparse, Outcome.andThen_parsed,
        Cursor.pastSemicolon_of_ne (tail.peek_ne (by simp) hk), hrest, Outcome.andThen_parsed]

/-- The second branch of a conditional is read, or seen to be missing. For the latter no `else` may
stand behind, which `LeavesAlone` says of what follows the conditional. -/
theorem Block.AlternativeWritten.parse {ts : List Lexeme} {other : Option Block} :
    Block.AlternativeWritten ts other → ∀ ⦃c : Cursor⦄ ⦃rest : List Lexeme⦄,
      c.behind = ts ++ rest → rest.head? ≠ some (.keyword .elseKw) →
      ∃ k, k.behind = rest ∧ Block.parseAlternative c = .parsed other k
  | .none => by
      intro c rest hc hrest
      refine ⟨c, hc, ?_⟩
      have hpeek : c.peek ≠ some (.keyword .elseKw) := by
        rw [Cursor.peek_eq_head?, hc]
        exact hrest
      rw [Block.parseAlternative_eq, if_neg hpeek]
  | @Block.AlternativeWritten.some us _ block => by
      intro c rest hc _
      have hbrace := Cursor.behind_next_of_behind hc
      have hin : c.next.next.next.lexemes = us ++ .symbol .rightBrace :: rest := by
        rw [Cursor.lexemes_next, Cursor.behind_next_of_behind hbrace]
        simp
      obtain ⟨k, hk, hblock⟩ := block.parse hin
      refine ⟨k, hk, ?_⟩
      rw [Block.parseAlternative_eq, if_pos (Cursor.peek_of_behind hc),
        Cursor.require_of_peek (Cursor.peek_of_behind hbrace), hblock, Outcome.andThen_parsed]

end

end Monkey
