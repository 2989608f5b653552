import Monkey.Proofs.Syntax.Lookahead
import Monkey.Proofs.Syntax.Soundness
import Monkey.Proofs.Text.Scan

/-!
# `Monkey.Proofs.Syntax.Viability`: what is accepted can be completed

A parser that gives up has accepted some lexemes before. They are never a
dead end: behind them genuine lexemes could have stood that complete what
the parser was reading (`Begun`).

What a parser reads, up to the symbol that closes it, is a form:
`Expr.Form`, `Expr.ListForm`, `Block.Form` and their companions. What is
missing from a larger form is missing from the part that was being read,
or stands behind it (`Begun.prepend`, `Begun.enclose`).

There is one lemma for each construct, from `Expr.settled_unary` to
`Expr.settled_index`: if its parts are `Settled` and what they accept is
begun, then so is the construct. `Monkey.Proofs.Syntax.Settlement` puts
them together along the recursion of the parsers.
-/

set_option autoImplicit false

namespace Monkey

/-! ### Beginnings -/

/-- The lexemes begin something that is written: genuine lexemes behind them complete it. -/
def Begun (written : List Lexeme → Prop) (us : List Lexeme) : Prop :=
  ∃ ws, (∀ t ∈ ws, t.Genuine) ∧ written (us ++ ws)

namespace Begun

variable {written written' : List Lexeme → Prop} {us : List Lexeme}

/-- What has been begun is completed by what is missing from it. The constructor of `Begun` with its
witness `ws` made explicit. -/
theorem of_append (ws : List Lexeme) (hws : ∀ t ∈ ws, t.Genuine) (h : written (us ++ ws)) :
    Begun written us :=
  ⟨ws, hws, h⟩

/-- A part that has been begun begins the whole around it: its completion is followed by `post`. The
usual way to see that a parser's accepted lexemes are viable. -/
theorem enclose (pre post : List Lexeme) (h : Begun written us)
    (hpost : ∀ t ∈ post, t.Genuine) (hwhole : ∀ ts, written ts → written' (pre ++ (ts ++ post))) :
    Begun written' (pre ++ us) := by
  obtain ⟨ws, hws, hwritten⟩ := h
  refine ⟨ws ++ post, ?_, ?_⟩
  · intro t ht
    rcases List.mem_append.1 ht with ht | ht
    · exact hws t ht
    · exact hpost t ht
  · have h := hwhole _ hwritten
    rwa [List.append_assoc, ← List.append_assoc pre us] at h

/-- A last part that has been begun begins the whole in front of it. `enclose` with nothing behind,
for parts that end where the whole ends. -/
theorem prepend (pre : List Lexeme) (h : Begun written us)
    (hwhole : ∀ ts, written ts → written' (pre ++ ts)) : Begun written' (pre ++ us) := by
  obtain ⟨ws, hws, hwritten⟩ := h
  refine ⟨ws, hws, ?_⟩
  rw [List.append_assoc]
  exact hwhole _ hwritten

/-- What is `Begun` as one thing is begun as every thing that it is a case of; the completion stays
the same. -/
theorem mono (h : Begun written us) (hcase : ∀ ts, written ts → written' ts) :
    Begun written' us :=
  h.prepend [] hcase

end Begun

/-! ### What completes a beginning -/

namespace Lexeme

/-- A symbol may stand in a text as it is, so it may be used to complete one: every `mark` is
genuine. -/
@[simp] theorem genuine_symbol (mark : Symbol) : (Lexeme.symbol mark).Genuine := trivial

/-- An identifier, to stand where an expression or a name is missing. -/
def filler : Lexeme := .identifier "x"

/-- The `filler` may stand in a text as it is: a single letter is an identifier. -/
@[simp] theorem genuine_filler : filler.Genuine := by
  have hletters : "x".toList = ['x'] := rfl
  refine ⟨⟨'x', [], hletters, by decide⟩, ?_, rfl⟩
  rw [hletters]
  exact List.forall_mem_singleton.2 (by decide)

end Lexeme

/-- A single identifier is an expression, and as `Lexeme.filler` it stands in every completion where
an expression is missing. -/
theorem Expr.written_filler : Expr.Written .tightest [Lexeme.filler] (.identifier "x") :=
  .identifier "x"

/-! ### Forms -/

/-- What is read as an expression at the strength `s`. -/
def Expr.Form (s : Precedence) (ts : List Lexeme) : Prop :=
  ∃ p e, Expr.Written p ts e ∧ (s < p ∨ .unary ≤ p)

/-- What is read as an operand. -/
def Expr.OperandForm (ts : List Lexeme) : Prop := ∃ p e, Expr.Written p ts e ∧ .unary ≤ p

/-- What is read as a list, with the symbol that closes it. -/
def Expr.ListForm (close : Symbol) (ts : List Lexeme) : Prop :=
  ∃ us es, ts = us ++ [.symbol close] ∧ Expr.ListWritten us es

/-- What is read as further expressions of a list, with the symbol that closes it. -/
def Expr.MoreForm (close : Symbol) (ts : List Lexeme) : Prop :=
  ∃ us es, ts = us ++ [.symbol close] ∧ Expr.MoreWritten us es

/-- What is read as the pairs of a hash literal, with the brace that closes it. -/
def Expr.PairsForm (ts : List Lexeme) : Prop :=
  ∃ us ps, ts = us ++ [.symbol .rightBrace] ∧ Expr.PairsWritten us ps

/-- What is read as parameters, with the parenthesis that closes them. -/
def Expr.ParametersForm (ts : List Lexeme) : Prop :=
  ∃ names, ts = parameterLexemes names ++ [.symbol .rightParen]

/-- What is read as further parameters, with the parenthesis that closes them. -/
def Expr.MoreParametersForm (ts : List Lexeme) : Prop :=
  ∃ names : List String, ts =
    names.flatMap (fun name => [.symbol .comma, .identifier name]) ++ [.symbol .rightParen]

/-- What is read as a statement, without a semicolon behind it. -/
def Statement.Form (ts : List Lexeme) : Prop := ∃ s, Statement.Written ts s

/-- What is read as statements in front of the lexemes `close`, together with these. -/
def Block.Form (close ts : List Lexeme) : Prop :=
  ∃ us b, ts = us ++ close ∧ Block.Written us b

/-- What is read as a second branch, or as none. -/
def Block.AlternativeForm (ts : List Lexeme) : Prop := ∃ other, Block.AlternativeWritten ts other

/-- The brace behind the statements of a block. -/
abbrev Block.close : List Lexeme := [.symbol .rightBrace]

/-- Whatever strength is asked for, an operand is strong enough, since `Expr.Form` accepts what
binds as tightly as a unary operator. -/
theorem Expr.OperandForm.form {ts : List Lexeme} (s : Precedence) :
    Expr.OperandForm ts → Expr.Form s ts := by
  rintro ⟨p, e, h, hp⟩
  exact ⟨p, e, h, .inr hp⟩

/-- What is `Written` at `tightest` is an operand. All operands but those of a unary operator are
completed through it. -/
theorem Expr.Written.operandForm {ts : List Lexeme} {e : Expr} (h : Expr.Written .tightest ts e) :
    Expr.OperandForm ts :=
  ⟨.tightest, e, h, by decide⟩

/-! ### Parameters -/

/-- Whatever becomes of further parameters is `Settled`. By induction on what remains; behind a
comma a name is missing, and behind a name the parenthesis. -/
theorem Expr.settled_parseMoreParameters (c : Cursor) :
    Settled Cursor.behind Expr.parseMoreParameters (Begun Expr.MoreParametersForm) c := by
  -- What completes the parameters where a comma or a name is missing.
  have hnone : Begun Expr.MoreParametersForm [] :=
    .of_append [.symbol .rightParen] (by simp) ⟨[], rfl⟩
  have hcomma : Begun Expr.MoreParametersForm [.symbol .comma] :=
    .of_append [Lexeme.filler, .symbol .rightParen] (by simp) ⟨["x"], rfl⟩
  rw [funext Expr.parseMoreParameters_eq]
  refine .ifPeek (fun hpeek => ?_) fun _ => .require hnone fun _ => .done []
  have hpos := Cursor.remaining_of_peek hpeek
  refine .step hpeek (.requireName hcomma fun name _ => ?_)
  refine .andThen (Expr.settled_parseMoreParameters c.next.next) ?_ fun _ _ _ _ _ => .done _
  intro us hus
  -- A completion of the others completes the whole, with the comma and the name in front.
  refine hus.prepend [.symbol .comma, .identifier name] ?_
  rintro ts ⟨names, rfl⟩
  exact ⟨name :: names, rfl⟩
termination_by c.remaining
decreasing_by simp only [Cursor.remaining_next]; omega

/-- Whatever becomes of parameters is `Settled`, at once or behind a first name by
`settled_parseMoreParameters`. -/
theorem Expr.settled_parseParameters (c : Cursor) :
    Settled Cursor.behind Expr.parseParameters (Begun Expr.ParametersForm) c := by
  have hnone : Begun Expr.ParametersForm [] :=
    .of_append [.symbol .rightParen] (by simp) ⟨[], rfl⟩
  rw [funext Expr.parseParameters_eq]
  refine .ifPeek (fun hpeek => .step hpeek (.done [])) fun _ => ?_
  refine .requireName hnone fun name _ => ?_
  refine .andThen (Expr.settled_parseMoreParameters c.next) ?_ fun _ _ _ _ _ => .done _
  intro us hus
  refine hus.prepend [.identifier name] ?_
  rintro ts ⟨names, rfl⟩
  refine ⟨name :: names, ?_⟩
  rw [parameterLexemes_cons]
  rfl

/-! ### Statements without their semicolons -/

section Associativity

variable {α β γ : Type}

/-- Going on twice by `andThen` is going on once with both. Brings a parser that was put together in
one way into the form in which another one was. -/
theorem Outcome.andThen_assoc (o : Outcome α) (f : α → Cursor → Outcome β)
    (g : β → Cursor → Outcome γ) :
    (o.andThen f).andThen g = o.andThen fun a k => (f a k).andThen g := by
  cases o <;> rfl

/-- What goes on behind a required symbol may be taken to be part of it: `andThen` moves under
`require`. -/
theorem Cursor.require_andThen (c : Cursor) (mark : Symbol) (goOn : Cursor → Outcome α)
    (g : α → Cursor → Outcome β) :
    (c.require mark goOn).andThen g = c.require mark fun k => (goOn k).andThen g := by
  unfold Cursor.require
  split <;> rfl

/-- What goes on behind a required name may be taken to be part of it: `andThen` moves under
`requireName`. -/
theorem Cursor.requireName_andThen (c : Cursor) (goOn : String → Cursor → Outcome α)
    (g : α → Cursor → Outcome β) :
    (c.requireName goOn).andThen g = c.requireName fun name k => (goOn name k).andThen g := by
  unfold Cursor.requireName
  split <;> rfl

end Associativity

/-- Reads one statement and leaves a semicolon behind it alone. -/
def Statement.parseBare (c : Cursor) : Outcome Statement :=
  match c.current with
  | some (.keyword .letKw) =>
    c.requireName fun name c₁ =>
      c₁.require .assign fun c₂ =>
        (Expr.parse .lowest c₂.next).andThen fun value k => .parsed (.binding name value) k
  | some (.keyword .returnKw) =>
    (Expr.parse .lowest c.next).andThen fun value k => .parsed (.returning value) k
  | _ => (Expr.parse .lowest c).andThen fun value k => .parsed (.expression value) k

/-- A statement is read without its semicolon, and then the semicolon. `parseBare` is all of
`Statement.parse` that can fail. -/
theorem Statement.parse_eq_andThen (c : Cursor) :
    Statement.parse c =
      (Statement.parseBare c).andThen fun s k => .parsed s k.pastSemicolon := by
  rw [Statement.parse_eq, Statement.parseBare]
  generalize c.current = t
  split
  · simp only [Cursor.requireName_andThen, Cursor.require_andThen, Outcome.andThen_assoc,
      Outcome.andThen_parsed]
  · simp only [Outcome.andThen_assoc, Outcome.andThen_parsed]
  · simp only [Outcome.andThen_assoc, Outcome.andThen_parsed]

/-- Where nothing follows there is nothing that goes on with a statement, so the last one needs no
semicolon: `StandsApart` speaks of a first lexeme, and there is none. -/
theorem standsApart_nil : StandsApart [] := by
  intro t ht
  cases ht

/-- What begins the statements behind one that was read begins them all. The lexemes `vs` start as
those behind `k` do, so the statement ends in front of them as it did when it was read. -/
theorem Block.begun_cons {close us vs : List Lexeme} {c k : Cursor} {s : Statement}
    (hclose : ∀ t ∈ close, t.Genuine) (h : Statement.parse c = .parsed s k)
    (hus : c.lexemes = us ++ k.behind) (hstarts : vs <+: k.behind)
    (hvs : Begun (Block.Form close) vs) : Begun (Block.Form close) (us ++ vs) := by
  obtain ⟨ts, m, hts, hhead, hstops, rfl⟩ := Statement.written_of_parse h
  obtain ⟨ws, hws, xs, b, hxs, hb⟩ := hvs
  by_cases hpeek : m.peek = some (.symbol .semicolon)
  · -- The statement is closed, and anything may stand behind it.
    rw [Cursor.pastSemicolon_of_peek hpeek] at hus
    have hend : (ts ++ [.symbol .semicolon]) ++ m.next.behind = us ++ m.next.behind := by
      rw [← hus, hts, Cursor.behind_of_peek hpeek, List.append_assoc]
      rfl
    rw [List.append_cancel_right_eq] at hend
    refine ⟨ws, hws, ts ++ .symbol .semicolon :: xs, s :: b, ?_, .closed hhead hb⟩
    rw [← hend, List.append_assoc, hxs]
    simp
  · rw [Cursor.pastSemicolon_of_ne hpeek] at hus hstarts
    obtain rfl : ts = us := List.append_cancel_right (hts.symm.trans hus)
    cases vs with
    | nil =>
        have hwritten : Block.Written (ts ++ []) [s] := .bare hhead standsApart_nil .nil
        exact ⟨close, hclose, ts ++ [], [s], rfl, hwritten⟩
    | cons v vs =>
        -- The lexeme that stood ahead of the statement does not go on with it.
        obtain ⟨rest, hrest⟩ := hstarts
        have hv : StandsApart (v :: vs) := hstops.standsApart hrest.symm
        have hapart : StandsApart xs := by
          intro t ht
          obtain ⟨ys, rfl⟩ := List.head?_eq_some_iff.1 ht
          obtain rfl : v = t := (List.cons.inj hxs).1
          exact hv v rfl
        refine ⟨ws, hws, ts ++ xs, s :: b, ?_, .bare hhead hapart hb⟩
        rw [List.append_assoc, hxs, List.append_assoc]

/-! ### What has been read in full -/

/-- The lexemes between the ends of an expression that was read write it: `Expr.written_of_parse`
with the lexemes named by the caller. -/
theorem Expr.written_between {s : Precedence} {c k : Cursor} {e : Expr} {us : List Lexeme}
    (h : Expr.parse s c = .parsed e k) (hus : c.lexemes = us ++ k.behind) :
    ∃ p, Expr.Written p us e ∧ (s < p ∨ .unary ≤ p) ∧ k.Stops s := by
  obtain ⟨p, ts, hts, hwritten, htakes, hstops⟩ := Expr.written_of_parse h
  obtain rfl : ts = us := List.append_cancel_right (hts.symm.trans hus)
  exact ⟨p, hwritten, htakes, hstops⟩

/-- The lexemes between the ends of a statement that was read without its semicolon write it. The
run up to `k` is known to consist of `us`, by cancelling what is behind. -/
theorem Statement.written_between {c k : Cursor} {s : Statement} {us : List Lexeme}
    (h : Statement.parseBare c = .parsed s k) (hus : c.lexemes = us ++ k.behind) :
    Statement.Written us s := by
  -- Between two places stands one list of lexemes, so soundness need only name it.
  have hend (ts : List Lexeme) (hts : c.lexemes = ts ++ k.behind) : us = ts :=
    List.append_cancel_right (hus.symm.trans hts)
  unfold Statement.parseBare at h
  split at h
  · rename_i hlet
    obtain ⟨name, hname, h⟩ := Cursor.requireName_eq_parsed.1 h
    obtain ⟨hassign, h⟩ := Cursor.require_eq_parsed.1 h
    obtain ⟨value, m, hvalue, h⟩ := Outcome.andThen_eq_parsed.1 h
    cases h
    obtain ⟨p, ts, hts, hwritten, -, -⟩ := Expr.written_of_parse hvalue
    rw [hend (.keyword .letKw :: .identifier name :: .symbol .assign :: ts) ?_]
    · exact .binding name hwritten
    · rw [Cursor.lexemes_of_current hlet, Cursor.behind_of_peek hname,
        Cursor.behind_of_peek hassign, ← Cursor.lexemes_next, hts]
      rfl
  · rename_i hreturn
    obtain ⟨value, m, hvalue, h⟩ := Outcome.andThen_eq_parsed.1 h
    cases h
    obtain ⟨p, ts, hts, hwritten, -, -⟩ := Expr.written_of_parse hvalue
    rw [hend (.keyword .returnKw :: ts) ?_]
    · exact .returning hwritten
    · rw [Cursor.lexemes_of_current hreturn, ← Cursor.lexemes_next, hts]
      rfl
  · obtain ⟨value, m, hvalue, h⟩ := Outcome.andThen_eq_parsed.1 h
    cases h
    obtain ⟨p, hwritten, -, -⟩ := Expr.written_between hvalue hus
    exact .expression hwritten

/-- The lexemes between the ends of a list that was read write it and close it, the symbol `close`
being the last of them. -/
theorem Expr.listForm_between {close : Symbol} {c k : Cursor} {es : List Expr} {us : List Lexeme}
    (h : Expr.parseList close c = .parsed es k) (hus : c.lexemes = us ++ k.behind) :
    ∃ ts, us = ts ++ [.symbol close] ∧ Expr.ListWritten ts es := by
  obtain ⟨ts, hts, hwritten⟩ := Expr.written_of_parseList h
  refine ⟨ts, ?_, hwritten⟩
  refine List.append_cancel_right (hus.symm.trans (hts.trans ?_))
  simp

/-- The lexemes between the ends of a block that was read write it and close it, `Block.close` being
the brace behind. -/
theorem Block.form_between {c k : Cursor} {b : Block} {us : List Lexeme}
    (h : Block.parse c = .parsed b k) (hus : c.lexemes = us ++ k.behind) :
    ∃ ts, us = ts ++ Block.close ∧ Block.Written ts b := by
  obtain ⟨ts, hts, hwritten⟩ := Block.written_of_parse h
  refine ⟨ts, ?_, hwritten⟩
  refine List.append_cancel_right (hus.symm.trans (hts.trans ?_))
  simp

/-- The lexemes between the ends of parameters that were read write them and close them, since
`written_of_parseParameters` gives one list for the parameters. -/
theorem Expr.parametersForm_between {c k : Cursor} {names : List String} {us : List Lexeme}
    (h : Expr.parseParameters c = .parsed names k) (hus : c.behind = us ++ k.behind) :
    us = parameterLexemes names ++ [.symbol .rightParen] := by
  refine List.append_cancel_right (hus.symm.trans ((Expr.written_of_parseParameters h).trans ?_))
  simp

/-! ### Operands -/

/-- How an operand ends is settled by its first lexeme and what is read for that lexeme. Combines
`Settled.lexeme` and `Settled.congr`, one use for each kind of operand. -/
theorem Settled.operand {c : Cursor} {t : Lexeme} {other : Cursor → Outcome Expr}
    (hc : c.current = some t)
    (h : Settled Cursor.behind other (fun us => Begun Expr.OperandForm (t :: us)) c)
    (hother : ∀ c' : Cursor, c'.current = some t → Expr.parseOperand c' = other c') :
    Settled Cursor.lexemes Expr.parseOperand (Begun Expr.OperandForm) c := by
  refine .congr ?_ (.lexeme hc h)
  intro c' hc'
  rw [← Cursor.current_eq_head?, ← Cursor.current_eq_head?, hc] at hc'
  exact hother c' hc'

section Operands

variable {c : Cursor}

/-- A unary operator is `Settled` if its operand is, which is read at the strength `unary`. -/
theorem Expr.settled_unary (op : UnaryOp)
    (h : Settled Cursor.lexemes (Expr.parse .unary) (Begun (Expr.Form .unary)) c.next) :
    Settled Cursor.behind
      (fun c => (Expr.parse .unary c.next).andThen fun e k => .parsed (Expr.unary op e) k)
      (fun us => Begun Expr.OperandForm (.symbol op.symbol :: us)) c := by
  refine .andThen (.onward h) ?_ fun _ _ _ _ _ => .done _
  intro us hus
  refine hus.prepend [.symbol op.symbol] ?_
  rintro ts ⟨p, e, hwritten, htight⟩
  exact ⟨.unary, _, .unary op hwritten (htight.elim Nat.le_of_lt id), by decide⟩

/-- An expression in parentheses is `Settled` if the expression is. What begins the expression
begins the whole, with the parenthesis to complete it. -/
theorem Expr.settled_parenthesized
    (h : Settled Cursor.lexemes (Expr.parse .lowest) (Begun (Expr.Form .lowest)) c.next) :
    Settled Cursor.behind
      (fun c => (Expr.parse .lowest c.next).andThen fun e k =>
        k.require .rightParen fun m => .parsed e m)
      (fun us => Begun Expr.OperandForm (.symbol .leftParen :: us)) c := by
  refine .andThen (.onward h) ?_ ?_
  · intro us hus
    refine hus.enclose [.symbol .leftParen] [.symbol .rightParen] (by simp) ?_
    rintro ts ⟨p, e, hwritten, -⟩
    exact (Expr.Written.parenthesized hwritten).operandForm
  · intro e k us hk hus
    rw [← Cursor.lexemes_next] at hus
    obtain ⟨p, hwritten, -, -⟩ := Expr.written_between hk hus
    refine .require (.of_append [.symbol .rightParen] (by simp) ?_) fun _ => .done e
    simpa using (Expr.Written.parenthesized hwritten).operandForm

/-- An array is `Settled` if the list of its elements is; the list brings its closing bracket. -/
theorem Expr.settled_array
    (h : Settled Cursor.lexemes (Expr.parseList .rightBracket)
      (Begun (Expr.ListForm .rightBracket)) c.next) :
    Settled Cursor.behind
      (fun c => (Expr.parseList .rightBracket c.next).andThen fun es k => .parsed (Expr.array es) k)
      (fun us => Begun Expr.OperandForm (.symbol .leftBracket :: us)) c := by
  refine .andThen (.onward h) ?_ fun _ _ _ _ _ => .done _
  intro us hus
  refine hus.prepend [.symbol .leftBracket] ?_
  rintro ts ⟨xs, es, rfl, hwritten⟩
  exact (Expr.Written.array hwritten).operandForm

/-- A hash literal is `Settled` if its pairs are; the pairs bring their closing brace. -/
theorem Expr.settled_hash
    (h : Settled Cursor.lexemes Expr.parsePairs (Begun Expr.PairsForm) c.next) :
    Settled Cursor.behind
      (fun c => (Expr.parsePairs c.next).andThen fun ps k => .parsed (Expr.hash ps) k)
      (fun us => Begun Expr.OperandForm (.symbol .leftBrace :: us)) c := by
  refine .andThen (.onward h) ?_ fun _ _ _ _ _ => .done _
  intro us hus
  refine hus.prepend [.symbol .leftBrace] ?_
  rintro ts ⟨xs, ps, rfl, hwritten⟩
  exact (Expr.Written.hash hwritten).operandForm

/-- A conditional is put together from its condition and its branches. The first branch comes with
its closing brace, as `Block.Form` has it. -/
theorem Expr.OperandForm.conditional {p : Precedence} {ts us vs : List Lexeme} {e : Expr}
    (hcondition : Expr.Written p ts e) (hblock : Block.Form Block.close us)
    (hother : Block.AlternativeForm vs) :
    Expr.OperandForm (.keyword .ifKw :: .symbol .leftParen ::
      (ts ++ .symbol .rightParen :: .symbol .leftBrace :: (us ++ vs))) := by
  obtain ⟨xs, b, rfl, hwritten⟩ := hblock
  obtain ⟨other, hwritten'⟩ := hother
  simpa using (Expr.Written.conditional hcondition hwritten hwritten').operandForm

/-- A function literal is put together from its parameters and its body, each with the mark that
closes it, so that `OperandForm` has nothing left to close. -/
theorem Expr.OperandForm.function {ts us : List Lexeme} (hnames : Expr.ParametersForm ts)
    (hblock : Block.Form Block.close us) :
    Expr.OperandForm
      (.keyword .fnKw :: .symbol .leftParen :: (ts ++ .symbol .leftBrace :: us)) := by
  obtain ⟨names, rfl⟩ := hnames
  obtain ⟨xs, b, rfl, hwritten⟩ := hblock
  simpa using (Expr.Written.function names hwritten).operandForm

/-- Nothing but a brace is missing from a block that has no statement yet: `Block.close` alone
completes it. -/
theorem Block.form_close : Block.Form Block.close Block.close := ⟨[], [], rfl, .nil⟩

/-- A conditional needs no second branch, so none completes it, as `AlternativeWritten` allows. -/
theorem Block.alternativeForm_nil : Block.AlternativeForm [] := ⟨none, .none⟩

/-- What stands behind the condition of a conditional is `Settled` if the branches are. Split off
from `settled_conditional` because from here on the condition is known and stays as it is. -/
theorem Expr.settled_branches {p : Precedence} {us : List Lexeme} {condition : Expr} {c : Cursor}
    (hwritten : Expr.Written p us condition)
    (hblock : ∀ k : Cursor, k.remaining < c.remaining →
      Settled Cursor.lexemes Block.parse (Begun (Block.Form Block.close)) k)
    (hother : ∀ k : Cursor, k.remaining < c.remaining →
      Settled Cursor.behind Block.parseAlternative (Begun Block.AlternativeForm) k) :
    Settled Cursor.behind
      (fun c => c.require .rightParen fun k₁ =>
        k₁.require .leftBrace fun k₂ =>
          (Block.parse k₂.next).andThen fun consequence m =>
            (Block.parseAlternative m).andThen fun alternative n =>
              .parsed (Expr.conditional condition consequence alternative) n)
      (fun vs => Begun Expr.OperandForm (.keyword .ifKw :: .symbol .leftParen :: (us ++ vs)))
      c := by
  -- One goal for each place at which the parser may give up.
  refine .require ?_ fun hparen => .require ?_ fun _ => .andThen (.onward (hblock _ ?_)) ?_ ?_
  · refine .of_append [.symbol .rightParen, .symbol .leftBrace, .symbol .rightBrace] (by simp) ?_
    simpa using Expr.OperandForm.conditional hwritten Block.form_close Block.alternativeForm_nil
  · refine .of_append [.symbol .leftBrace, .symbol .rightBrace] (by simp) ?_
    simpa using Expr.OperandForm.conditional hwritten Block.form_close Block.alternativeForm_nil
  · have hpos := Cursor.remaining_of_peek hparen
    simp only [Cursor.remaining_next]
    omega
  · intro vs hvs
    have hbegun : Begun Expr.OperandForm
        ((.keyword .ifKw :: .symbol .leftParen :: (us ++ [.symbol .rightParen, .symbol .leftBrace]))
          ++ vs) := by
      refine hvs.prepend _ ?_
      intro ts hts
      simpa using Expr.OperandForm.conditional hwritten hts Block.alternativeForm_nil
    simpa using hbegun
  -- Behind the first block the second branch may still be malformed.
  intro consequence m vs hm hvs
  have hpos := Cursor.remaining_of_peek hparen
  have hmle := Block.remaining_le_of_parse hm
  simp only [Cursor.remaining_next] at hmle
  rw [← Cursor.lexemes_next] at hvs
  obtain ⟨xs, hxs, hblock'⟩ := Block.form_between hm hvs
  refine .andThen (hother m (by omega)) ?_ fun _ _ _ _ _ => .done _
  intro ws hws
  have hbegun : Begun Expr.OperandForm
      ((.keyword .ifKw :: .symbol .leftParen ::
        (us ++ .symbol .rightParen :: .symbol .leftBrace :: vs)) ++ ws) := by
    refine hws.prepend _ ?_
    intro ts hts
    simpa using Expr.OperandForm.conditional hwritten ⟨xs, _, hxs, hblock'⟩ hts
  simpa using hbegun

/-- A conditional is `Settled` if its condition and its branches are. The hypotheses speak of places
with less left to read, which is what the mutual block can provide. -/
theorem Expr.settled_conditional
    (hexpr : ∀ k : Cursor, k.remaining < c.remaining →
      Settled Cursor.lexemes (Expr.parse .lowest) (Begun (Expr.Form .lowest)) k)
    (hblock : ∀ k : Cursor, k.remaining < c.remaining →
      Settled Cursor.lexemes Block.parse (Begun (Block.Form Block.close)) k)
    (hother : ∀ k : Cursor, k.remaining < c.remaining →
      Settled Cursor.behind Block.parseAlternative (Begun Block.AlternativeForm) k) :
    Settled Cursor.behind
      (fun c => c.require .leftParen fun c₁ =>
        (Expr.parse .lowest c₁.next).andThen fun condition k =>
          k.require .rightParen fun k₁ =>
            k₁.require .leftBrace fun k₂ =>
              (Block.parse k₂.next).andThen fun consequence m =>
                (Block.parseAlternative m).andThen fun alternative n =>
                  .parsed (Expr.conditional condition consequence alternative) n)
      (fun us => Begun Expr.OperandForm (.keyword .ifKw :: us)) c := by
  -- At each place where reading may stop, the rest of a shortest conditional is put behind it.
  refine .require ?_ fun hopen => .andThen (.onward (hexpr _ ?_)) ?_ ?_
  · exact .of_append [.symbol .leftParen, Lexeme.filler, .symbol .rightParen, .symbol .leftBrace,
      .symbol .rightBrace] (by simp)
      (.conditional Expr.written_filler Block.form_close Block.alternativeForm_nil)
  · have hpos := Cursor.remaining_of_peek hopen
    simp only [Cursor.remaining_next]
    omega
  · intro us hus
    refine hus.enclose [.keyword .ifKw, .symbol .leftParen]
      [.symbol .rightParen, .symbol .leftBrace, .symbol .rightBrace] (by simp) ?_
    rintro ts ⟨p, e, hwritten, -⟩
    exact .conditional hwritten Block.form_close Block.alternativeForm_nil
  intro condition k us hk hus
  have hpos := Cursor.remaining_of_peek hopen
  have hkle := Expr.remaining_le_of_parse hk
  simp only [Cursor.remaining_next] at hkle
  rw [← Cursor.lexemes_next] at hus
  obtain ⟨p, hwritten, -, -⟩ := Expr.written_between hk hus
  exact Expr.settled_branches hwritten (fun m hm => hblock m (by omega))
    fun m hm => hother m (by omega)

/-- A function literal is `Settled` if its body is. Parameters are settled in any case, as they hold
no expression. -/
theorem Expr.settled_function
    (hblock : ∀ k : Cursor, k.remaining < c.remaining →
      Settled Cursor.lexemes Block.parse (Begun (Block.Form Block.close)) k) :
    Settled Cursor.behind
      (fun c => c.require .leftParen fun c₁ =>
        (Expr.parseParameters c₁).andThen fun parameters k =>
          k.require .leftBrace fun k₁ =>
            (Block.parse k₁.next).andThen fun body m =>
              .parsed (Expr.function parameters body) m)
      (fun us => Begun Expr.OperandForm (.keyword .fnKw :: us)) c := by
  refine .require ?_ fun hopen => .andThen (Expr.settled_parseParameters _) ?_ ?_
  · exact .of_append [.symbol .leftParen, .symbol .rightParen, .symbol .leftBrace,
      .symbol .rightBrace] (by simp) (.function ⟨[], rfl⟩ Block.form_close)
  · intro us hus
    refine hus.enclose [.keyword .fnKw, .symbol .leftParen]
      [.symbol .leftBrace, .symbol .rightBrace] (by simp) ?_
    intro ts hts
    exact .function hts Block.form_close
  -- Behind the parameters they are known, and only the body is still to be completed.
  intro names k us hk hus
  have hpos := Cursor.remaining_of_peek hopen
  have hkle := Expr.remaining_le_of_parseParameters hk
  simp only [Cursor.remaining_next] at hkle
  have hnames : Expr.ParametersForm us := ⟨names, Expr.parametersForm_between hk hus⟩
  refine .require ?_ fun _ => .andThen (.onward (hblock _ ?_)) ?_ fun _ _ _ _ _ => .done _
  · refine .of_append [.symbol .leftBrace, .symbol .rightBrace] (by simp) ?_
    simpa using Expr.OperandForm.function hnames Block.form_close
  · simp only [Cursor.remaining_next]
    omega
  · intro vs hvs
    have hbegun : Begun Expr.OperandForm
        ((.keyword .fnKw :: .symbol .leftParen :: (us ++ [.symbol .leftBrace])) ++ vs) := by
      refine hvs.prepend _ ?_
      intro ts hts
      simpa using Expr.OperandForm.function hnames hts
    simpa using hbegun

end Operands

/-! ### Continuations -/

/-- Whatever becomes of what continues a written expression is settled at every place from which
there is less than `n` to read. -/
def Expr.ContinuationsSettled (s : Precedence) (n : Nat) : Prop :=
  ∀ (k : Cursor) (p : Precedence) (ts : List Lexeme) (e : Expr), k.remaining < n →
    Expr.Written p ts e → k.Stops p →
      Settled Cursor.behind (Expr.parseContinuations s e)
        (fun us => Begun (Expr.Form s) (ts ++ us)) k

section Continuations

variable {s p : Precedence} {left : Expr} {c : Cursor} {ts : List Lexeme}

/-- A binary operator is `Settled` if its right operand and what continues the whole are. The left
operand stopped in front of it (`hloose`), and the parse asks for less than it has (`hs`). -/
theorem Expr.settled_binary {op : BinaryOp} (hleft : Expr.Written p ts left)
    (hloose : op.precedence ≤ p) (hs : s < op.precedence)
    (hpeek : c.peek = some (.symbol op.symbol))
    (hright : Settled Cursor.lexemes (Expr.parse op.precedence)
      (Begun (Expr.Form op.precedence)) c.next.next)
    (hmore : Expr.ContinuationsSettled s c.remaining) :
    Settled Cursor.behind
      (fun c => (Expr.parse op.precedence c.next.next).andThen fun right k =>
        Expr.parseContinuations s (.binary op left right) k)
      (fun us => Begun (Expr.Form s) (ts ++ us)) c := by
  -- What is read for a binary operator binds more tightly than the operator.
  have htight {q : Precedence} (hq : op.precedence < q ∨ .unary ≤ q) : op.precedence < q :=
    hq.elim id (Nat.lt_of_lt_of_le op.precedence_bounds.2)
  have hpos := Cursor.remaining_of_peek hpeek
  refine .step hpeek (.andThen (.onward hright) ?_ ?_)
  · intro us hus
    have hbegun : Begun (Expr.Form s) ((ts ++ [.symbol op.symbol]) ++ us) := by
      refine hus.prepend _ ?_
      rintro xs ⟨q, e, hwritten, hq⟩
      refine ⟨op.precedence, .binary op left e, ?_, .inl hs⟩
      simpa using Expr.Written.binary op hleft hloose hwritten (htight hq)
    simpa using hbegun
  -- Behind the right operand the whole is written, and it is what further continuations go on with.
  · intro right k us hk hus
    have hkle := Expr.remaining_le_of_parse hk
    simp only [Cursor.remaining_next] at hkle
    rw [← Cursor.lexemes_next] at hus
    obtain ⟨q, hwritten, hq, hend⟩ := Expr.written_between hk hus
    refine .weaken (hmore k _ _ _ (by omega)
      (.binary op hleft hloose hwritten (htight hq)) hend) ?_
    intro vs _ hvs
    simpa using hvs

/-- A call is `Settled` if its arguments and what continues the whole are. What stopped in front of
the parenthesis is as tight as `Expr.Written.call` wants a callee to be. -/
theorem Expr.settled_call (hleft : Expr.Written p ts left) (hloose : .call ≤ p)
    (hpeek : c.peek = some (.symbol .leftParen))
    (harguments : Settled Cursor.lexemes (Expr.parseList .rightParen)
      (Begun (Expr.ListForm .rightParen)) c.next.next)
    (hmore : Expr.ContinuationsSettled s c.remaining) :
    Settled Cursor.behind
      (fun c => (Expr.parseList .rightParen c.next.next).andThen fun arguments k =>
        Expr.parseContinuations s (.call left arguments) k)
      (fun us => Begun (Expr.Form s) (ts ++ us)) c := by
  -- What stopped in front of a parenthesis binds as tightly as can be.
  obtain rfl := hleft.eq_tightest hloose
  have hpos := Cursor.remaining_of_peek hpeek
  refine .step hpeek (.andThen (.onward harguments) ?_ ?_)
  · intro us hus
    have hbegun : Begun (Expr.Form s) ((ts ++ [.symbol .leftParen]) ++ us) := by
      refine hus.prepend _ ?_
      rintro _ ⟨xs, es, rfl, hwritten⟩
      refine ⟨.tightest, .call left es, ?_, .inr (by decide)⟩
      simpa using Expr.Written.call hleft hwritten
    simpa using hbegun
  · intro arguments k us hk hus
    have hkle := Expr.remaining_le_of_parseList hk
    simp only [Cursor.remaining_next] at hkle
    rw [← Cursor.lexemes_next] at hus
    obtain ⟨xs, rfl, hwritten⟩ := Expr.listForm_between hk hus
    refine .weaken (hmore k _ _ _ (by omega) (.call hleft hwritten) k.stops_tightest) ?_
    intro vs _ hvs
    simpa using hvs

/-- An index is `Settled` if its position and what continues the whole are. The position is an
expression of its own and is completed by the bracket. -/
theorem Expr.settled_index (hleft : Expr.Written p ts left) (hloose : .index ≤ p)
    (hpeek : c.peek = some (.symbol .leftBracket))
    (hposition : Settled Cursor.lexemes (Expr.parse .lowest) (Begun (Expr.Form .lowest))
      c.next.next)
    (hmore : Expr.ContinuationsSettled s c.remaining) :
    Settled Cursor.behind
      (fun c => (Expr.parse .lowest c.next.next).andThen fun position k =>
        k.require .rightBracket fun m => Expr.parseContinuations s (.index left position) m)
      (fun us => Begun (Expr.Form s) (ts ++ us)) c := by
  -- So does what stopped in front of a bracket.
  obtain rfl := hleft.eq_tightest (Nat.le_trans (by decide) hloose)
  have hpos := Cursor.remaining_of_peek hpeek
  refine .step hpeek (.andThen (.onward hposition) ?_ ?_)
  · intro us hus
    have hbegun : Begun (Expr.Form s) ((ts ++ [.symbol .leftBracket]) ++ us) := by
      refine hus.enclose _ [.symbol .rightBracket] (by simp) ?_
      rintro xs ⟨q, e, hwritten, -⟩
      refine ⟨.tightest, .index left e, ?_, .inr (by decide)⟩
      simpa using Expr.Written.index hleft hwritten
    simpa using hbegun
  -- Behind the position the bracket may be missing, or the whole goes on.
  · intro position k us hk hus
    have hkle := Expr.remaining_le_of_parse hk
    simp only [Cursor.remaining_next] at hkle
    rw [← Cursor.lexemes_next] at hus
    obtain ⟨q, hwritten, -, -⟩ := Expr.written_between hk hus
    have hindex := Expr.Written.index hleft hwritten
    refine .require ?_ fun _ => .weaken (hmore k.next _ _ _ ?_ hindex k.next.stops_tightest) ?_
    · refine .of_append [.symbol .rightBracket] (by simp)
        ⟨.tightest, .index left position, ?_, .inr (by decide)⟩
      simpa using hindex
    · rw [Cursor.remaining_next]
      omega
    · intro vs _ hvs
      simpa using hvs

end Continuations

end Monkey
