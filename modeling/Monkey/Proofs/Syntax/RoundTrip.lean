import Monkey.Proofs.Syntax.Acceptance
import Monkey.Proofs.Syntax.CanonicalText
import Monkey.Proofs.Syntax.Reach

/-!
# `Monkey.Proofs.Syntax.RoundTrip`: canonical text is read back

What a tree is printed as is read as the same tree. Two halves meet at
`Expr.Spellable`, which says that a tree has a text.

* From trees to texts: the canonical text of a spellable program is read
  as its canonical lexemes, these write the program, and what is written
  is accepted (`Program.parse_render_of_spellable`).
* From texts to trees: the lexemes of a text are spelt as their classes
  ask for, so whatever statements a text gives, with or without malformed
  ones between them, are spellable (`Survey.spellable_ofText`).

The theorem at the end says both for whole programs.
-/

set_option autoImplicit false

namespace Monkey

/-! ### Lexemes of a text -/

/-- Lexemes such as a text has: each one is genuine or illegal. -/
def Spelt (ts : List Lexeme) : Prop := ∀ t ∈ ts, t.Genuine ∨ ∃ text, t = .illegal text

/-- A lexeme in front has to be spelt as the others are. With `spelt_append` it takes `Spelt` apart
along the constructors of the grammar. -/
@[simp] theorem spelt_cons {t : Lexeme} {ts : List Lexeme} :
    Spelt (t :: ts) ↔ (t.Genuine ∨ ∃ text, t = .illegal text) ∧ Spelt ts := by
  unfold Spelt
  exact List.forall_mem_cons

/-- Two runs of lexemes are `Spelt` together exactly when each is. -/
@[simp] theorem spelt_append {ts us : List Lexeme} : Spelt (ts ++ us) ↔ Spelt ts ∧ Spelt us := by
  unfold Spelt
  exact List.forall_mem_append

/-- A name among lexemes that are `Spelt` is an identifier: an identifier is no illegal lexeme, so
it must be genuine. -/
theorem Spelt.isIdentifier {ts : List Lexeme} (h : Spelt ts) {name : String}
    (hname : .identifier name ∈ ts) : IsIdentifier name := by
  rcases h _ hname with hgenuine | ⟨text, htext⟩
  · exact hgenuine
  · cases htext

/-- The parameters of a function literal stand among its lexemes. By induction on the names; only
`Expr.Written.spellable` needs it, to find them there. -/
theorem mem_parameterLexemes {name : String} {names : List String} (h : name ∈ names) :
    .identifier name ∈ parameterLexemes names := by
  cases names with
  | nil => cases h
  | cons first names =>
      rw [parameterLexemes_cons]
      rcases List.mem_cons.1 h with rfl | h
      · exact List.mem_cons_self
      · refine List.mem_cons_of_mem _ (List.mem_flatMap.2 ⟨name, h, ?_⟩)
        exact List.mem_cons_of_mem _ List.mem_cons_self

/-! ### Trees of a text -/

mutual

/-- What lexemes of a text write can be spelt. By induction on the derivation: every name, integer
and string of the tree comes from a lexeme, and an integer below `Numeral.bound` is not negative. -/
theorem Expr.Written.spellable {p : Precedence} {ts : List Lexeme} {e : Expr} :
    Expr.Written p ts e → Spelt ts → Expr.Spellable e
  | .identifier name, h => h.isIdentifier List.mem_cons_self
  | .integer digits small, _ => by
      have hvalue := Int64.toInt_ofNat_of_lt small
      rw [Expr.Spellable, Int64.le_iff_toInt_le, hvalue]
      exact Int.natCast_nonneg _
  | .string content, h => by
      -- A string lexeme is not an illegal one, so what `Spelt` leaves is that its content is
      -- genuine.
      rcases h _ List.mem_cons_self with hgenuine | ⟨text, htext⟩
      · exact hgenuine
      · cases htext
  | .truth, _ => trivial
  | .falsity, _ => trivial
  | .parenthesized inner, h => by
      simp only [spelt_cons, spelt_append] at h
      exact inner.spellable h.2.1
  | .array elements, h => by
      simp only [spelt_cons, spelt_append] at h
      exact elements.spellable h.2.1
  | .hash pairs, h => by
      simp only [spelt_cons, spelt_append] at h
      exact pairs.spellable h.2.1
  | .conditional condition consequence alternative, h => by
      simp only [spelt_cons, spelt_append] at h
      obtain ⟨-, -, hcondition, -, -, hconsequence, -, halternative⟩ := h
      exact ⟨condition.spellable hcondition, consequence.spellable hconsequence,
        alternative.spellable halternative⟩
  | .function names body, h => by
      simp only [spelt_cons, spelt_append] at h
      obtain ⟨-, -, hnames, -, -, hbody, -⟩ := h
      exact ⟨fun name hname => hnames.isIdentifier (mem_parameterLexemes hname),
        body.spellable hbody⟩
  | .call callee arguments, h => by
      simp only [spelt_cons, spelt_append] at h
      exact ⟨callee.spellable h.1, arguments.spellable h.2.2.1⟩
  | .index indexed position, h => by
      simp only [spelt_cons, spelt_append] at h
      exact ⟨indexed.spellable h.1, position.spellable h.2.2.1⟩
  | .unary op operand _, h => by
      simp only [spelt_cons] at h
      exact operand.spellable h.2
  | .binary op left _ right _, h => by
      simp only [spelt_cons, spelt_append] at h
      exact ⟨left.spellable h.1, right.spellable h.2.2⟩

/-- What lexemes of a text write as a list can be spelt, each of its expressions being written by
some of them, and `Spelt` passing to these. -/
theorem Expr.ListWritten.spellable {ts : List Lexeme} {es : List Expr} :
    Expr.ListWritten ts es → Spelt ts → Expr.SpellableList es
  | .nil, _ => trivial
  | .cons head tail, h => by
      simp only [spelt_append] at h
      exact ⟨head.spellable h.1, tail.spellable h.2⟩

/-- What lexemes of a text write as the rest of a list can be spelt; the comma in front spells
nothing, so `Spelt` passes to the lexemes behind it. -/
theorem Expr.MoreWritten.spellable {ts : List Lexeme} {es : List Expr} :
    Expr.MoreWritten ts es → Spelt ts → Expr.SpellableList es
  | .nil, _ => trivial
  | .cons head tail, h => by
      simp only [spelt_cons, spelt_append] at h
      exact ⟨head.spellable h.2.1, tail.spellable h.2.2⟩

/-- What lexemes of a text write as keys and values can be spelt, with or without a comma behind the
last pair, as `SpellablePairs` asks of keys and values alike. -/
theorem Expr.PairsWritten.spellable {ts : List Lexeme} {ps : List (Expr × Expr)} :
    Expr.PairsWritten ts ps → Spelt ts → Expr.SpellablePairs ps
  | .nil, _ => trivial
  | .last key value, h => by
      simp only [spelt_cons, spelt_append] at h
      exact ⟨key.spellable h.1, value.spellable h.2.2, trivial⟩
  | .cons key value tail, h => by
      simp only [spelt_cons, spelt_append] at h
      obtain ⟨hkey, -, hvalue, -, htail⟩ := h
      exact ⟨key.spellable hkey, value.spellable hvalue, tail.spellable htail⟩

/-- What lexemes of a text write as a statement can be spelt. The name of a binding is a lexeme of
its own and so an identifier, by `Spelt.isIdentifier`. -/
theorem Statement.Written.spellable {ts : List Lexeme} {s : Statement} :
    Statement.Written ts s → Spelt ts → Statement.Spellable s
  | .binding name value, h => by
      have hname : IsIdentifier name :=
        h.isIdentifier (List.mem_cons_of_mem _ List.mem_cons_self)
      simp only [spelt_cons] at h
      exact ⟨hname, value.spellable h.2.2.2⟩
  | .returning value, h => by
      simp only [spelt_cons] at h
      exact value.spellable h.2
  | .expression value, h => value.spellable h

/-- What lexemes of a text write as statements can be spelt, whichever way each of them is ended;
`SpellableList` knows of no semicolons. -/
theorem Block.Written.spellable {ts : List Lexeme} {b : Block} :
    Block.Written ts b → Spelt ts → Statement.SpellableList b
  | .nil, _ => trivial
  | .closed head tail, h => by
      simp only [spelt_cons, spelt_append] at h
      exact ⟨head.spellable h.1, tail.spellable h.2.2⟩
  | .bare head _ tail, h => by
      simp only [spelt_append] at h
      exact ⟨head.spellable h.1, tail.spellable h.2⟩

/-- What lexemes of a text write as a second branch can be spelt, which is nothing if there is none.
-/
theorem Block.AlternativeWritten.spellable {ts : List Lexeme} {other : Option (List Statement)} :
    Block.AlternativeWritten ts other → Spelt ts → Statement.SpellableBranch other
  | .none, _ => trivial
  | .some block, h => by
      simp only [spelt_cons, spelt_append] at h
      exact block.spellable h.2.2.1

end

/-- Whatever statements are read from lexemes of a text can be spelt. By induction on what remains;
what is left to read is always a suffix of the text, so it stays `Spelt`. -/
theorem Survey.spellable_ofCursor {c : Cursor} (hc : Spelt c.lexemes) :
    Statement.SpellableList (ofCursor c).statements := by
  cases hcurrent : c.current with
  | none =>
      rw [ofCursor_of_none hcurrent]
      trivial
  | some t =>
      have hpos := Cursor.remaining_of_current hcurrent
      have hreach := Statement.reaches_parse c
      cases hparse : Statement.parse c with
      | failed d k =>
          -- A malformed statement adds no statement, and reading goes on at a later place.
          rw [hparse] at hreach
          have hlater : c.Reaches k.recover := hreach.trans k.reaches_recover
          have hle : k.recover.remaining ≤ c.remaining := hlater.remaining_le
          rw [ofCursor_of_some hcurrent, hparse]
          exact spellable_ofCursor fun u hu => hc u (hlater.next.suffix.subset hu)
      | parsed s k =>
          rw [hparse] at hreach
          have hle : k.remaining ≤ c.remaining := Statement.remaining_le_of_parse hparse
          rw [ofCursor_of_parsed hcurrent hparse, statements_cons_wellFormed]
          -- The statement is written by the first of the lexemes ahead, and these are spelt.
          obtain ⟨ts, m, hts, hwritten, -, -⟩ := Statement.written_of_parse hparse
          have hs : Spelt ts := fun u hu => hc u (by rw [hts]; exact List.mem_append_left _ hu)
          have hrest := spellable_ofCursor (c := k.next)
            fun u hu => hc u (hreach.next.suffix.subset hu)
          exact ⟨hwritten.spellable hs, hrest⟩
termination_by c.remaining
decreasing_by all_goals rw [Cursor.remaining_next]; omega

/-- The statements that a text gives can be spelt, whatever is malformed between them. The lexer
yields genuine and illegal lexemes only, by `genuine_of_mem_scan`. -/
theorem Survey.spellable_ofText (text : String) :
    Statement.SpellableList (ofText text).statements := by
  refine spellable_ofCursor fun t ht => ?_
  have hscan : t ∈ scan text.toList := ht
  exact genuine_of_mem_scan hscan

/-! ### Canonical text -/

/-- The canonical text of a program that can be spelt is that program. The text scans to the
canonical lexemes (`Program.scan_render`), and these write the tree
(`Statement.written_blockLexemes`). -/
theorem Program.parse_render_of_spellable {p : Program}
    (h : Statement.SpellableList p.statements) : Program.parse p.render = .ok p := by
  have hlexemes : (Cursor.start (tokenize p.render)).lexemes
      = Statement.blockLexemes p.statements := Program.scan_render p h
  exact Program.parse_eq_ok_iff.2
    (Survey.ofCursor_of_written (Statement.written_blockLexemes p.statements h) hlexemes)

/-- Canonical text is read back without a diagnostic: that of the well-formed statements of any
text, and that of any program whose names, integers and strings can be spelt. The first follows from
the second by `Survey.spellable_ofText`. -/
theorem Program.parse_render :
    (∀ text : String,
      Program.parse (Survey.ofText text).program.render = .ok (Survey.ofText text).program) ∧
    ∀ p : Program, Statement.SpellableList p.statements → Program.parse p.render = .ok p :=
  ⟨fun text => Program.parse_render_of_spellable (Survey.spellable_ofText text),
    fun _ h => Program.parse_render_of_spellable h⟩

/-- A conditional is called with a function literal, under a prefix operator and beside a hash
literal, and the next statement starts with a function literal: neighbours that a printer with fewer
parentheses would tear apart, and `parse_render` covers. -/
theorem Program.parse_render_of_neighbours :
    (0 : Int64) ≤ 7 ∧ IsIdentifier "f" ∧
      let conditional : Expr :=
        .conditional (.boolean true) [.expression (.identifier "f")]
          (some [.returning (.integer 7)])
      let literal : Expr :=
        .function ["f"] [.binding "f" (.string "\x7d"), .expression (.integer 7)]
      let p : Program := ⟨[
        .expression (.unary .negate (.index (.hash [(literal, conditional)]) (.identifier "f"))),
        .expression (.call conditional [literal, .array []]),
        .expression (.call literal [])]⟩
      Program.parse p.render = .ok p := by
  have hseven : (0 : Int64) ≤ 7 := by decide
  have hname : IsIdentifier "f" := ⟨⟨'f', [], rfl, rfl⟩, List.all_eq_true.1 rfl, rfl⟩
  refine ⟨hseven, hname, Program.parse_render.2 _ ?_⟩
  simp [Statement.SpellableList, Statement.Spellable, Statement.SpellableBranch, Expr.Spellable,
    Expr.SpellableList, Expr.SpellablePairs, hseven, hname, insideString]

end Monkey
