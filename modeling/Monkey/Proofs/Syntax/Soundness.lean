import Monkey.Proofs.Syntax.Grammar
import Monkey.Proofs.Syntax.Place

/-!
# `Monkey.Proofs.Syntax.Soundness`: what is read is written

Whenever a parser ends with a value, the lexemes from the place where it
started to the place where it ended are a way to write that value. The
statements are proved together, along the recursion of the parsers and
with their measure.

What continues an expression may do so only because the expression binds
tightly enough, and the lexemes alone do not show that any more. So
`Expr.written_of_parseContinuations` is told what the expression so far is
written with, and that nothing ahead binds more tightly than it
(`Cursor.Stops`).
-/

set_option autoImplicit false

namespace Monkey

/-! ### Where an expression has come to its end -/

/-- No continuation that binds more tightly than `p` is ahead. -/
def Cursor.Stops (p : Precedence) (c : Cursor) : Prop :=
  ∀ kind, c.continuation? = some kind → kind.precedence ≤ p

/-- Behind the tightest there is nothing that could take it in from inside: every continuation binds
as tightly as `tightest` at most. -/
theorem Cursor.stops_tightest (c : Cursor) : c.Stops .tightest :=
  fun _ _ => Precedence.le_tightest _

/-- Where not even the weakest continuation is ahead, which is `Stops` at `lowest`, what is behind
stands apart, and a statement may end without a semicolon. -/
theorem Cursor.Stops.standsApart {c : Cursor} {us rest : List Lexeme} (h : c.Stops .lowest)
    (hc : c.behind = us ++ rest) : StandsApart us := by
  intro t ht
  cases hkind : Continuation.ofLexeme? t with
  | none => rfl
  | some kind =>
      obtain ⟨vs, rfl⟩ := List.head?_eq_some_iff.1 ht
      have hle := h kind (by rw [Cursor.continuation?_eq, hc]; exact hkind)
      have hlt : .lowest < kind.precedence := by
        cases kind with
        | binary op => exact op.precedence_bounds.1
        | call => decide
        | index => decide
      exact absurd hle (Nat.not_le.2 hlt)

/-- The symbol that a continuation starts with. -/
def Continuation.mark : Continuation → Symbol
  | .binary op => op.symbol
  | .call => .leftParen
  | .index => .leftBracket

/-- Where a continuation is ahead its symbol `kind.mark` stands, as the first of the lexemes behind;
all three kinds begin with a symbol. -/
theorem Cursor.behind_of_continuation? {c : Cursor} {kind : Continuation}
    (h : c.continuation? = some kind) : c.behind = .symbol kind.mark :: c.next.behind := by
  obtain ⟨t, ht, hkind⟩ := Option.bind_eq_some_iff.1 h
  rw [Cursor.behind_of_peek ht]
  cases t with
  | symbol mark => cases mark <;> cases hkind <;> rfl
  | _ => cases hkind

/-- Digits that are read as an integer have that integer as their value, below the bound. It gives
the constructor `Expr.Written.integer` its hypothesis. -/
theorem Numeral.read?_eq_some {digits : String} {n : Int64} (h : Numeral.read? digits = some n) :
    Numeral.value digits.toList < Numeral.bound ∧
      n = Int64.ofNat (Numeral.value digits.toList) := by
  unfold Numeral.read? at h
  dsimp only at h
  split at h
  · rename_i hsmall
    exact ⟨hsmall, (Option.some.inj h).symm⟩
  · cases h

/-! ### Parameters -/

/-- Further parameters that are read stand behind a comma each, and the closing parenthesis behind
the last. By induction on `c.remaining`. -/
theorem Expr.written_of_parseMoreParameters {c k : Cursor} {names : List String}
    (h : Expr.parseMoreParameters c = .parsed names k) :
    c.behind = names.flatMap (fun name => [.symbol .comma, .identifier name])
      ++ .symbol .rightParen :: k.behind := by
  rw [Expr.parseMoreParameters_eq] at h
  split at h
  · rename_i hcomma
    obtain ⟨name, hname, h⟩ := Cursor.requireName_eq_parsed.1 h
    obtain ⟨rest, m, hrest, h⟩ := Outcome.andThen_eq_parsed.1 h
    cases h
    -- The comma and the name are gone past, so that the others are read from fewer tokens.
    have hpos := Cursor.remaining_of_peek hcomma
    have ih := Expr.written_of_parseMoreParameters hrest
    rw [Cursor.behind_of_peek hcomma, Cursor.behind_of_peek hname, ih]
    rfl
  · obtain ⟨hclose, h⟩ := Cursor.require_eq_parsed.1 h
    cases h
    exact Cursor.behind_of_peek hclose
termination_by c.remaining
decreasing_by simp only [Cursor.remaining_next]; omega

/-- Parameters that are read are written with commas between them: `parameterLexemes` and the
parenthesis that closes them. -/
theorem Expr.written_of_parseParameters {c k : Cursor} {names : List String}
    (h : Expr.parseParameters c = .parsed names k) :
    c.behind = parameterLexemes names ++ .symbol .rightParen :: k.behind := by
  rw [Expr.parseParameters_eq] at h
  split at h
  · rename_i hclose
    cases h
    exact Cursor.behind_of_peek hclose
  · obtain ⟨name, hname, h⟩ := Cursor.requireName_eq_parsed.1 h
    obtain ⟨rest, m, hrest, h⟩ := Outcome.andThen_eq_parsed.1 h
    cases h
    rw [Cursor.behind_of_peek hname, Expr.written_of_parseMoreParameters hrest,
      parameterLexemes_cons]
    rfl

/-! ### Statements in a row -/

/-- A statement that was read in front of written statements makes one more of them. A semicolon
behind it makes the statement `closed`; without one, `hstops` says that it may stand `bare`. -/
theorem Block.Written.cons_of_stops {ts us rest : List Lexeme} {s : Statement} {b : Block}
    {m : Cursor} (head : Statement.Written ts s) (hstops : m.Stops .lowest)
    (tail : Block.Written us b) (hm : m.pastSemicolon.behind = us ++ rest) :
    ∃ vs, ts ++ m.behind = vs ++ rest ∧ Block.Written vs (s :: b) := by
  by_cases hpeek : m.peek = some (.symbol .semicolon)
  · rw [Cursor.pastSemicolon_of_peek hpeek] at hm
    refine ⟨ts ++ .symbol .semicolon :: us, ?_, .closed head tail⟩
    rw [Cursor.behind_of_peek hpeek, hm]
    simp
  · rw [Cursor.pastSemicolon_of_ne hpeek] at hm
    refine ⟨ts ++ us, ?_, .bare head (hstops.standsApart hm) tail⟩
    rw [hm, List.append_assoc]

/-! ### Operands -/

/-- An operand that was read between two places is written by the lexemes between them, and binds at
least as tightly as a unary operator. -/
def Expr.OperandWritten (c k : Cursor) (e : Expr) : Prop :=
  ∃ p ts, c.lexemes = ts ++ k.behind ∧ Expr.Written p ts e ∧ .unary ≤ p ∧ k.Stops p

/-- What is `Written` at `tightest` is an operand, whatever is ahead. All operands but those of a
unary operator are of this kind. -/
theorem Expr.OperandWritten.tightest {c k : Cursor} {e : Expr} {ts : List Lexeme}
    (hts : c.lexemes = ts ++ k.behind) (h : Expr.Written .tightest ts e) :
    Expr.OperandWritten c k e :=
  ⟨.tightest, ts, hts, h, by decide, k.stops_tightest⟩

/-- A single lexeme is an operand by itself, and the parser stands on it when it has been read, so
the place `c` is both start and end. -/
theorem Expr.OperandWritten.lexeme {c : Cursor} {t : Lexeme} {e : Expr}
    (hcurrent : c.current = some t) (h : Expr.Written .tightest [t] e) :
    Expr.OperandWritten c c e :=
  .tightest (Cursor.lexemes_of_current hcurrent) h

/-- A unary operator in front of an expression that was read for it is an operand. Its own strength
is `unary`, so it must be known that nothing tighter is ahead. -/
theorem Expr.OperandWritten.unary {c k : Cursor} {p : Precedence} {ts : List Lexeme} {e : Expr}
    (op : UnaryOp) (hcurrent : c.current = some (.symbol op.symbol))
    (hts : c.next.lexemes = ts ++ k.behind) (h : Expr.Written p ts e)
    (htakes : .unary < p ∨ .unary ≤ p) (hstops : k.Stops .unary) :
    Expr.OperandWritten c k (.unary op e) := by
  have hp : .unary ≤ p := htakes.elim Nat.le_of_lt id
  refine ⟨.unary, _, ?_, .unary op h hp, Nat.le_refl _, hstops⟩
  rw [Cursor.lexemes_of_current hcurrent, ← Cursor.lexemes_next, hts]
  rfl

/-! ### What is read is written -/

mutual

/-- An expression that is read is written, binds tightly enough for the strength `s` asked for, and
ends where nothing tighter than that strength is ahead. First of the mutual block in which each
parser is shown sound against the grammar. -/
theorem Expr.written_of_parse {s : Precedence} {c k : Cursor} {e : Expr}
    (h : Expr.parse s c = .parsed e k) :
    ∃ p ts, c.lexemes = ts ++ k.behind ∧ Expr.Written p ts e ∧ (s < p ∨ .unary ≤ p) ∧
      k.Stops s := by
  rw [Expr.parse_eq] at h
  obtain ⟨left, m, hoperand, hmore⟩ := Outcome.andThen_eq_parsed.1 h
  have hm := Expr.remaining_le_of_parseOperand hoperand
  obtain ⟨p, ts, hts, hleft, htight, hstops⟩ := Expr.written_of_parseOperand hoperand
  obtain ⟨q, us, hus, he, htakes, hend⟩ :=
    Expr.written_of_parseContinuations hmore hleft (.inr htight) hstops
  -- The lexemes of the operand and of what continues it stand one behind the other.
  refine ⟨q, ts ++ us, ?_, he, htakes, hend⟩
  rw [hts, hus, List.append_assoc]
termination_by 8 * c.remaining + 2

/-- An expression that goes on from a written one is written with what stood between. The induction
carries the lexemes `ts` of the left operand, its strength, and that it stopped in front of what is
ahead. -/
theorem Expr.written_of_parseContinuations {s p : Precedence} {left e : Expr} {c k : Cursor}
    {ts : List Lexeme} (h : Expr.parseContinuations s left c = .parsed e k)
    (hleft : Expr.Written p ts left) (htakes : s < p ∨ .unary ≤ p) (hstops : c.Stops p) :
    ∃ q us, c.behind = us ++ k.behind ∧ Expr.Written q (ts ++ us) e ∧ (s < q ∨ .unary ≤ q) ∧
      k.Stops s := by
  rw [Expr.parseContinuations_eq] at h
  split at h
  · -- Nothing ahead continues an expression, so the written one is the whole.
    rename_i hnone
    cases h
    refine ⟨p, [], rfl, ?_, htakes, ?_⟩
    · rw [List.append_nil]
      exact hleft
    · intro kind hkind
      rw [hnone] at hkind
      cases hkind
  · rename_i kind hkind
    have hpos := Cursor.remaining_of_continuation? hkind
    have hbehind := Cursor.behind_of_continuation? hkind
    have hkindle := hstops kind hkind
    split at h
    · rename_i hs
      cases kind with
      | binary op =>
          obtain ⟨right, m, hright, hmore⟩ := Outcome.andThen_eq_parsed.1 h
          have hm : m.remaining ≤ c.remaining - 1 - 1 := by
            simpa only [Cursor.remaining_next] using Expr.remaining_le_of_parse hright
          obtain ⟨q, us, hus, hwritten, hq, hend⟩ := Expr.written_of_parse hright
          -- The right operand was read with the strength of the operator, so it binds more tightly
          -- than the operator; what goes on behind it is taken for the whole.
          have hlt : op.precedence < q := by
            rcases hq with hlt | hle
            · exact hlt
            · exact Nat.lt_of_lt_of_le op.precedence_bounds.2 hle
          obtain ⟨r, vs, hvs, he, hr, hk⟩ := Expr.written_of_parseContinuations hmore
            (.binary op hleft hkindle hwritten hlt) (.inl hs) hend
          refine ⟨r, .symbol op.symbol :: (us ++ vs), ?_, ?_, hr, hk⟩
          · rw [hbehind, ← Cursor.lexemes_next, hus, hvs]
            simp [Continuation.mark]
          · simpa using he
      | call =>
          -- What has been read stopped in front of a parenthesis, so it binds as tightly as can be.
          obtain rfl := hleft.eq_tightest hkindle
          obtain ⟨arguments, m, hlist, hmore⟩ := Outcome.andThen_eq_parsed.1 h
          have hm : m.remaining ≤ c.remaining - 1 - 1 := by
            simpa only [Cursor.remaining_next] using Expr.remaining_le_of_parseList hlist
          obtain ⟨us, hus, hwritten⟩ := Expr.written_of_parseList hlist
          obtain ⟨r, vs, hvs, he, hr, hk⟩ := Expr.written_of_parseContinuations hmore
            (.call hleft hwritten) (.inr (by decide)) m.stops_tightest
          refine ⟨r, .symbol .leftParen :: (us ++ .symbol .rightParen :: vs), ?_, ?_, hr, hk⟩
          · rw [hbehind, ← Cursor.lexemes_next, hus, hvs]
            simp [Continuation.mark]
          · simpa using he
      | index =>
          -- So it does in front of a bracket.
          obtain rfl := hleft.eq_tightest (Nat.le_trans (by decide) hkindle)
          obtain ⟨position, m, hposition, h⟩ := Outcome.andThen_eq_parsed.1 h
          obtain ⟨hclose, hmore⟩ := Cursor.require_eq_parsed.1 h
          have hm : m.remaining ≤ c.remaining - 1 - 1 := by
            simpa only [Cursor.remaining_next] using Expr.remaining_le_of_parse hposition
          obtain ⟨q, us, hus, hwritten, -, -⟩ := Expr.written_of_parse hposition
          obtain ⟨r, vs, hvs, he, hr, hk⟩ := Expr.written_of_parseContinuations hmore
            (.index hleft hwritten) (.inr (by decide))
            m.next.stops_tightest
          refine ⟨r, .symbol .leftBracket :: (us ++ .symbol .rightBracket :: vs), ?_, ?_, hr, hk⟩
          · rw [hbehind, ← Cursor.lexemes_next, hus, Cursor.behind_of_peek hclose, hvs]
            simp [Continuation.mark]
          · simpa using he
    · rename_i hs
      cases h
      -- The continuation ahead is too loose for the strength asked for, and the parse ends here.
      refine ⟨p, [], rfl, ?_, htakes, ?_⟩
      · rw [List.append_nil]
        exact hleft
      · intro kind' hkind'
        rw [hkind] at hkind'
        cases hkind'
        exact Nat.not_lt.1 hs
termination_by 8 * c.remaining + 1
decreasing_by all_goals (try simp only [Cursor.remaining_next]); omega

/-- An operand that is read is written, by `OperandWritten` and the lexeme it starts with; each part
is read by a parser of the mutual block from fewer tokens. -/
theorem Expr.written_of_parseOperand {c k : Cursor} {e : Expr}
    (h : Expr.parseOperand c = .parsed e k) : Expr.OperandWritten c k e := by
  rw [Expr.parseOperand_eq] at h
  split at h
  · rename_i name hcurrent
    cases h
    exact .lexeme hcurrent (.identifier name)
  · rename_i digits hcurrent
    split at h
    · rename_i value hread
      cases h
      obtain ⟨small, rfl⟩ := Numeral.read?_eq_some hread
      exact .lexeme hcurrent (.integer digits small)
    · cases h
  · rename_i content hcurrent
    cases h
    exact .lexeme hcurrent (.string content)
  · rename_i hcurrent
    cases h
    exact .lexeme hcurrent .truth
  · rename_i hcurrent
    cases h
    exact .lexeme hcurrent .falsity
  · -- The two unary operators: the operand stops where the whole has to stop.
    rename_i hcurrent
    have hpos := Cursor.remaining_of_current hcurrent
    obtain ⟨e, m, hparse, h⟩ := Outcome.andThen_eq_parsed.1 h
    cases h
    obtain ⟨p, ts, hts, hwritten, htakes, hstops⟩ := Expr.written_of_parse hparse
    exact .unary .not hcurrent hts hwritten htakes hstops
  · rename_i hcurrent
    have hpos := Cursor.remaining_of_current hcurrent
    obtain ⟨e, m, hparse, h⟩ := Outcome.andThen_eq_parsed.1 h
    cases h
    obtain ⟨p, ts, hts, hwritten, htakes, hstops⟩ := Expr.written_of_parse hparse
    exact .unary .negate hcurrent hts hwritten htakes hstops
  · -- An expression in parentheses.
    rename_i hcurrent
    have hpos := Cursor.remaining_of_current hcurrent
    obtain ⟨e, m, hparse, h⟩ := Outcome.andThen_eq_parsed.1 h
    obtain ⟨hclose, h⟩ := Cursor.require_eq_parsed.1 h
    cases h
    obtain ⟨p, ts, hts, hwritten, -, -⟩ := Expr.written_of_parse hparse
    refine .tightest ?_ (.parenthesized hwritten)
    rw [Cursor.lexemes_of_current hcurrent, ← Cursor.lexemes_next, hts,
      Cursor.behind_of_peek hclose]
    simp only [List.cons_append, List.append_assoc, List.nil_append]
  · -- An array.
    rename_i hcurrent
    have hpos := Cursor.remaining_of_current hcurrent
    obtain ⟨es, m, hlist, h⟩ := Outcome.andThen_eq_parsed.1 h
    cases h
    obtain ⟨ts, hts, hwritten⟩ := Expr.written_of_parseList hlist
    refine .tightest ?_ (.array hwritten)
    rw [Cursor.lexemes_of_current hcurrent, ← Cursor.lexemes_next, hts]
    simp only [List.cons_append, List.append_assoc, List.nil_append]
  · -- A hash literal.
    rename_i hcurrent
    have hpos := Cursor.remaining_of_current hcurrent
    obtain ⟨ps, m, hpairs, h⟩ := Outcome.andThen_eq_parsed.1 h
    cases h
    obtain ⟨ts, hts, hwritten⟩ := Expr.written_of_parsePairs hpairs
    refine .tightest ?_ (.hash hwritten)
    rw [Cursor.lexemes_of_current hcurrent, ← Cursor.lexemes_next, hts]
    simp only [List.cons_append, List.append_assoc, List.nil_append]
  · -- A conditional: the condition, the first branch, and the second one if there is one.
    rename_i hcurrent
    have hpos := Cursor.remaining_of_current hcurrent
    obtain ⟨hopen, h⟩ := Cursor.require_eq_parsed.1 h
    obtain ⟨condition, m, hcondition, h⟩ := Outcome.andThen_eq_parsed.1 h
    have hm : m.remaining ≤ c.remaining - 1 - 1 := by
      simpa only [Cursor.remaining_next] using Expr.remaining_le_of_parse hcondition
    obtain ⟨hclose, h⟩ := Cursor.require_eq_parsed.1 h
    obtain ⟨hbrace, h⟩ := Cursor.require_eq_parsed.1 h
    obtain ⟨consequence, n, hconsequence, h⟩ := Outcome.andThen_eq_parsed.1 h
    have hn : n.remaining ≤ m.remaining - 1 - 1 - 1 := by
      simpa only [Cursor.remaining_next] using Block.remaining_le_of_parse hconsequence
    obtain ⟨other, l, hother, h⟩ := Outcome.andThen_eq_parsed.1 h
    cases h
    obtain ⟨p, ts, hts, hcond, -, -⟩ := Expr.written_of_parse hcondition
    obtain ⟨us, hus, hcons⟩ := Block.written_of_parse hconsequence
    obtain ⟨vs, hvs, halt⟩ := Block.written_of_parseAlternative hother
    refine .tightest ?_ (.conditional hcond hcons halt)
    rw [Cursor.lexemes_of_current hcurrent, Cursor.behind_of_peek hopen, ← Cursor.lexemes_next,
      hts, Cursor.behind_of_peek hclose, Cursor.behind_of_peek hbrace, ← Cursor.lexemes_next, hus,
      hvs]
    simp only [List.cons_append, List.append_assoc]
  · -- A function literal: the parameters and the body.
    rename_i hcurrent
    have hpos := Cursor.remaining_of_current hcurrent
    obtain ⟨hopen, h⟩ := Cursor.require_eq_parsed.1 h
    obtain ⟨names, m, hnames, h⟩ := Outcome.andThen_eq_parsed.1 h
    have hm : m.remaining ≤ c.remaining - 1 := by
      simpa only [Cursor.remaining_next] using Expr.remaining_le_of_parseParameters hnames
    obtain ⟨hbrace, h⟩ := Cursor.require_eq_parsed.1 h
    obtain ⟨body, n, hbody, h⟩ := Outcome.andThen_eq_parsed.1 h
    cases h
    obtain ⟨us, hus, hwritten⟩ := Block.written_of_parse hbody
    refine .tightest ?_ (.function names hwritten)
    rw [Cursor.lexemes_of_current hcurrent, Cursor.behind_of_peek hopen,
      Expr.written_of_parseParameters hnames, Cursor.behind_of_peek hbrace, ← Cursor.lexemes_next,
      hus]
    simp only [List.cons_append, List.append_assoc, List.nil_append]
  · -- Nothing else starts an expression.
    cases h
termination_by 8 * c.remaining + 1
decreasing_by all_goals (try simp only [Cursor.remaining_next]); omega

/-- A second branch that is read is written behind its `else`, and so is none, by no lexemes at all.
-/
theorem Block.written_of_parseAlternative {c k : Cursor} {other : Option Block}
    (h : Block.parseAlternative c = .parsed other k) :
    ∃ ts, c.behind = ts ++ k.behind ∧ Block.AlternativeWritten ts other := by
  rw [Block.parseAlternative_eq] at h
  split at h
  · rename_i helse
    have hpos := Cursor.remaining_of_peek helse
    obtain ⟨hbrace, h⟩ := Cursor.require_eq_parsed.1 h
    obtain ⟨b, m, hblock, h⟩ := Outcome.andThen_eq_parsed.1 h
    cases h
    obtain ⟨us, hus, hwritten⟩ := Block.written_of_parse hblock
    refine ⟨_, ?_, .some hwritten⟩
    -- Behind `else` and its brace stands the block, up to where it was read.
    rw [Cursor.behind_of_peek helse, Cursor.behind_of_peek hbrace, ← Cursor.lexemes_next, hus]
    simp
  · cases h
    exact ⟨[], rfl, .none⟩
termination_by 8 * c.remaining
decreasing_by simp only [Cursor.remaining_next]; omega

/-- A list that is read is written up to the symbol `close` that closes it. The parser stops on that
symbol, so it is not among those behind. -/
theorem Expr.written_of_parseList {close : Symbol} {c k : Cursor} {es : List Expr}
    (h : Expr.parseList close c = .parsed es k) :
    ∃ ts, c.lexemes = ts ++ .symbol close :: k.behind ∧ Expr.ListWritten ts es := by
  rw [Expr.parseList_eq] at h
  split at h
  · rename_i hclose
    cases h
    exact ⟨[], Cursor.lexemes_of_current hclose, .nil⟩
  · obtain ⟨e, m, hparse, h⟩ := Outcome.andThen_eq_parsed.1 h
    -- The rest of the list is read behind the first expression.
    have hm := Expr.remaining_le_of_parse hparse
    obtain ⟨rest, n, hrest, h⟩ := Outcome.andThen_eq_parsed.1 h
    cases h
    obtain ⟨p, ts, hts, hhead, -, -⟩ := Expr.written_of_parse hparse
    obtain ⟨us, hus, htail⟩ := Expr.written_of_parseMoreItems hrest
    refine ⟨ts ++ us, ?_, .cons hhead htail⟩
    rw [hts, hus, List.append_assoc]
termination_by 8 * c.remaining + 3

/-- Further expressions that are read are written up to the symbol that closes them, each behind its
comma. The part of `written_of_parseList` that repeats, as `MoreWritten` is the part of the grammar
that does. -/
theorem Expr.written_of_parseMoreItems {close : Symbol} {c k : Cursor} {es : List Expr}
    (h : Expr.parseMoreItems close c = .parsed es k) :
    ∃ ts, c.behind = ts ++ .symbol close :: k.behind ∧ Expr.MoreWritten ts es := by
  rw [Expr.parseMoreItems_eq] at h
  split at h
  · rename_i hcomma
    have hpos := Cursor.remaining_of_peek hcomma
    obtain ⟨e, m, hparse, h⟩ := Outcome.andThen_eq_parsed.1 h
    -- The comma is gone past before the expression, which is where the measure falls.
    have hm : m.remaining ≤ c.remaining - 1 - 1 := by
      simpa only [Cursor.remaining_next] using Expr.remaining_le_of_parse hparse
    obtain ⟨rest, n, hrest, h⟩ := Outcome.andThen_eq_parsed.1 h
    cases h
    obtain ⟨p, ts, hts, hhead, -, -⟩ := Expr.written_of_parse hparse
    obtain ⟨us, hus, htail⟩ := Expr.written_of_parseMoreItems hrest
    refine ⟨.symbol .comma :: (ts ++ us), ?_, .cons hhead htail⟩
    rw [Cursor.behind_of_peek hcomma, ← Cursor.lexemes_next, hts, hus]
    simp
  · obtain ⟨hclose, h⟩ := Cursor.require_eq_parsed.1 h
    cases h
    exact ⟨[], Cursor.behind_of_peek hclose, .nil⟩
termination_by 8 * c.remaining
decreasing_by all_goals (try simp only [Cursor.remaining_next]); omega

/-- Pairs that are read are written up to the brace that closes them. The comma behind the last pair
is one of the two ways to end that `PairsWritten` has. -/
theorem Expr.written_of_parsePairs {c k : Cursor} {ps : List (Expr × Expr)}
    (h : Expr.parsePairs c = .parsed ps k) :
    ∃ ts, c.lexemes = ts ++ .symbol .rightBrace :: k.behind ∧ Expr.PairsWritten ts ps := by
  rw [Expr.parsePairs_eq] at h
  split at h
  · rename_i hclose
    cases h
    exact ⟨[], Cursor.lexemes_of_current hclose, .nil⟩
  · obtain ⟨key, m, hkey, h⟩ := Outcome.andThen_eq_parsed.1 h
    have hm := Expr.remaining_le_of_parse hkey
    obtain ⟨hcolon, h⟩ := Cursor.require_eq_parsed.1 h
    have hpos := Cursor.remaining_of_peek hcolon
    obtain ⟨value, n, hvalue, h⟩ := Outcome.andThen_eq_parsed.1 h
    have hn : n.remaining ≤ m.remaining - 1 - 1 := by
      simpa only [Cursor.remaining_next] using Expr.remaining_le_of_parse hvalue
    obtain ⟨p, ts, hts, hkeyWritten, -, -⟩ := Expr.written_of_parse hkey
    obtain ⟨q, us, hus, hvalueWritten, -, -⟩ := Expr.written_of_parse hvalue
    split at h
    · -- The brace stands right behind the value.
      rename_i hclose
      cases h
      refine ⟨_, ?_, .last hkeyWritten hvalueWritten⟩
      rw [hts, Cursor.behind_of_peek hcolon, ← Cursor.lexemes_next, hus,
        Cursor.behind_of_peek hclose]
      simp
    · obtain ⟨hcomma, h⟩ := Cursor.require_eq_parsed.1 h
      -- Behind a comma the rest may be empty: that is a comma behind the last pair.
      obtain ⟨rest, l, hrest, h⟩ := Outcome.andThen_eq_parsed.1 h
      cases h
      obtain ⟨vs, hvs, htail⟩ := Expr.written_of_parsePairs hrest
      refine ⟨_, ?_, .cons hkeyWritten hvalueWritten htail⟩
      rw [hts, Cursor.behind_of_peek hcolon, ← Cursor.lexemes_next, hus,
        Cursor.behind_of_peek hcomma, ← Cursor.lexemes_next, hvs]
      simp
termination_by 8 * c.remaining + 3
decreasing_by all_goals (try simp only [Cursor.remaining_next]); omega

/-- Statements that are read are written up to the brace that closes them, each one put in front of
the rest by `Block.Written.cons_of_stops`. -/
theorem Block.written_of_parse {c k : Cursor} {b : Block} (h : Block.parse c = .parsed b k) :
    ∃ ts, c.lexemes = ts ++ .symbol .rightBrace :: k.behind ∧ Block.Written ts b := by
  rw [Block.parse_eq] at h
  split at h
  · cases h
  · rename_i lexeme hcurrent
    have hpos := Cursor.remaining_of_current hcurrent
    split at h
    · rename_i hbrace
      cases h
      rw [hbrace] at hcurrent
      exact ⟨[], Cursor.lexemes_of_current hcurrent, .nil⟩
    · obtain ⟨s, m, hstatement, h⟩ := Outcome.andThen_eq_parsed.1 h
      have hm := Statement.remaining_le_of_parse hstatement
      obtain ⟨rest, n, hrest, h⟩ := Outcome.andThen_eq_parsed.1 h
      cases h
      obtain ⟨ts, l, hts, hhead, hstops, rfl⟩ := Statement.written_of_parse hstatement
      obtain ⟨us, hus, htail⟩ := Block.written_of_parse hrest
      rw [Cursor.lexemes_next] at hus
      -- Whether the statement is closed or stands apart is settled by what is ahead of its end.
      obtain ⟨vs, hvs, hwritten⟩ := Block.Written.cons_of_stops hhead hstops htail hus
      exact ⟨vs, hts.trans hvs, hwritten⟩
termination_by 8 * c.remaining + 4
decreasing_by all_goals (try simp only [Cursor.remaining_next]); omega

/-- A statement that is read is written in front of its semicolon, if there is one, and else in
front of nothing that goes on with it. The place `m` is where its expression ended, and `k` is past
the semicolon. -/
theorem Statement.written_of_parse {c k : Cursor} {s : Statement}
    (h : Statement.parse c = .parsed s k) :
    ∃ (ts : List Lexeme) (m : Cursor), c.lexemes = ts ++ m.behind ∧ Statement.Written ts s ∧
      m.Stops .lowest ∧ k = m.pastSemicolon := by
  rw [Statement.parse_eq] at h
  split at h
  · rename_i hcurrent
    have hpos := Cursor.remaining_of_current hcurrent
    obtain ⟨name, hname, h⟩ := Cursor.requireName_eq_parsed.1 h
    obtain ⟨hassign, h⟩ := Cursor.require_eq_parsed.1 h
    obtain ⟨value, m, hvalue, h⟩ := Outcome.andThen_eq_parsed.1 h
    cases h
    obtain ⟨p, ts, hts, hwritten, -, hstops⟩ := Expr.written_of_parse hvalue
    -- The place `m` is behind the expression; the semicolon is left to `pastSemicolon`.
    refine ⟨_, m, ?_, .binding name hwritten, hstops, rfl⟩
    rw [Cursor.lexemes_of_current hcurrent, Cursor.behind_of_peek hname,
      Cursor.behind_of_peek hassign, ← Cursor.lexemes_next, hts]
    rfl
  · rename_i hcurrent
    have hpos := Cursor.remaining_of_current hcurrent
    obtain ⟨value, m, hvalue, h⟩ := Outcome.andThen_eq_parsed.1 h
    cases h
    obtain ⟨p, ts, hts, hwritten, -, hstops⟩ := Expr.written_of_parse hvalue
    refine ⟨_, m, ?_, .returning hwritten, hstops, rfl⟩
    rw [Cursor.lexemes_of_current hcurrent, ← Cursor.lexemes_next, hts]
    rfl
  · obtain ⟨value, m, hvalue, h⟩ := Outcome.andThen_eq_parsed.1 h
    cases h
    obtain ⟨p, ts, hts, hwritten, -, hstops⟩ := Expr.written_of_parse hvalue
    exact ⟨ts, m, hts, .expression hwritten, hstops, rfl⟩
termination_by 8 * c.remaining + 3
decreasing_by all_goals (try simp only [Cursor.remaining_next]); omega

end

end Monkey
