import Monkey.Proofs.Syntax.Completeness
import Monkey.Proofs.Syntax.Soundness

/-!
# `Monkey.Proofs.Syntax.Acceptance`: which texts are programs

A text is accepted as a program exactly when its lexemes write that
program in the sense of `Monkey.Proofs.Syntax.Grammar`. Two lemmas carry
what is known of single statements over to a whole text.

* `Survey.ofCursor_of_written`: lexemes that write statements give these
  statements and no diagnostic.
* `Survey.written_of_diagnostics`: lexemes that give no diagnostic write
  the statements they give.
-/

set_option autoImplicit false

namespace Monkey

namespace Survey

/-- A well-formed entry puts its statement in front of the others. With the three lemmas beside it
the only way in which proofs look into `Survey.statements` and `Survey.diagnostics`. -/
@[simp] theorem statements_cons_wellFormed (s : Survey) (stmt : Statement) (c k : Cursor) :
    (s.cons (.wellFormed stmt c k)).statements = stmt :: s.statements := rfl

/-- A malformed entry leaves `Survey.statements` as they were: a statement that was given up is not
one of the program's. -/
@[simp] theorem statements_cons_malformed (s : Survey) (d : Diagnostic) (c k : Cursor) :
    (s.cons (.malformed d c k)).statements = s.statements := rfl

/-- A well-formed entry leaves `Survey.diagnostics` as they were, so a survey with none of them has
only such entries. -/
@[simp] theorem diagnostics_cons_wellFormed (s : Survey) (stmt : Statement) (c k : Cursor) :
    (s.cons (.wellFormed stmt c k)).diagnostics = s.diagnostics := rfl

/-- A malformed entry puts its one diagnostic in front of the others: no statement yields two. -/
@[simp] theorem diagnostics_cons_malformed (s : Survey) (d : Diagnostic) (c k : Cursor) :
    (s.cons (.malformed d c k)).diagnostics = d :: s.diagnostics := rfl

/-- A statement that is read in full is followed by what stands behind it, and no `recover` comes
between. The form of `ofCursor_of_some` for inductions in which `h` is known. -/
theorem ofCursor_of_parsed {c k : Cursor} {s : Statement} {t : Lexeme} (hc : c.current = some t)
    (h : Statement.parse c = .parsed s k) :
    ofCursor c = (ofCursor k.next).cons (.wellFormed s c k) := by
  rw [ofCursor_of_some hc, h]

/-- Lexemes that write statements give these statements, and nothing is wrong with them. By
induction on what remains, one statement at a time: `head.parse` reads the first one back, and the
grammar's two ways to end it decide where the next one starts. -/
theorem ofCursor_of_written {c : Cursor} {ts : List Lexeme} {b : Block}
    (h : Block.Written ts b) (hc : c.lexemes = ts) :
    (ofCursor c).diagnostics = [] ∧ (ofCursor c).statements = b := by
  cases h with
  | nil =>
      have hnone : c.current = none := by rw [Cursor.current_eq_head?, hc]; rfl
      rw [ofCursor_of_none hnone]
      exact ⟨rfl, rfl⟩
  | @closed ts us s _ head tail =>
      obtain ⟨t, ht, -⟩ := head.current hc
      obtain ⟨k, hk, hparse⟩ := head.parse hc (leavesAlone_symbol rfl)
      -- The statement ends on its semicolon, and what follows is read from the lexeme behind it.
      rw [Cursor.pastSemicolon_of_peek (Cursor.peek_of_behind hk)] at hparse
      have hus : k.next.next.lexemes = us := by
        rw [Cursor.lexemes_next, Cursor.behind_next_of_behind hk]
      have hpos := Cursor.remaining_of_current ht
      have hle : k.next.remaining ≤ c.remaining := Statement.remaining_le_of_parse hparse
      obtain ⟨hdiagnostics, hstatements⟩ := ofCursor_of_written tail hus
      rw [ofCursor_of_parsed ht hparse]
      exact ⟨hdiagnostics, congrArg (s :: ·) hstatements⟩
  | @bare ts us s _ head apart tail =>
      obtain ⟨t, ht, -⟩ := head.current hc
      have hrest : LeavesAlone .lowest us := by
        simpa using apart.leavesAlone tail leavesAlone_nil
      obtain ⟨k, hk, hparse⟩ := head.parse hc hrest
      -- What follows starts a statement, so that no semicolon is taken for this one.
      have hsemicolon : k.peek ≠ some (.symbol .semicolon) :=
        tail.peek_ne (by simp) (hk.trans (List.append_nil us).symm)
      rw [Cursor.pastSemicolon_of_ne hsemicolon] at hparse
      have hus : k.next.lexemes = us := by rw [Cursor.lexemes_next, hk]
      have hpos := Cursor.remaining_of_current ht
      have hle : k.remaining ≤ c.remaining := Statement.remaining_le_of_parse hparse
      obtain ⟨hdiagnostics, hstatements⟩ := ofCursor_of_written tail hus
      rw [ofCursor_of_parsed ht hparse]
      exact ⟨hdiagnostics, congrArg (s :: ·) hstatements⟩
termination_by c.remaining
decreasing_by all_goals simp only [Cursor.remaining_next] at *; omega

/-- Lexemes with which nothing is wrong write the statements that they give. The converse of
`ofCursor_of_written`, by the same induction: `Statement.written_of_parse` gives the lexemes of the
first statement, and `cons_of_stops` puts it in front of the rest. -/
theorem written_of_diagnostics {c : Cursor} (h : (ofCursor c).diagnostics = []) :
    Block.Written c.lexemes (ofCursor c).statements := by
  cases hc : c.current with
  | none =>
      rw [Cursor.current_eq_head?, List.head?_eq_none_iff] at hc
      rw [hc, ofCursor_of_none (by rw [Cursor.current_eq_head?, hc]; rfl)]
      exact .nil
  | some t =>
      have hpos := Cursor.remaining_of_current hc
      cases hparse : Statement.parse c with
      | failed d k =>
          -- A failed round leaves a diagnostic, and by `h` there is none.
          rw [ofCursor_of_some hc, hparse] at h
          cases h
      | parsed s k =>
          have hle := Statement.remaining_le_of_parse hparse
          rw [ofCursor_of_parsed hc hparse] at h ⊢
          obtain ⟨ts, m, hts, hhead, hstops, rfl⟩ := Statement.written_of_parse hparse
          -- `h` now speaks of the rounds behind `m`, so the induction hypothesis applies there.
          have htail := written_of_diagnostics h
          rw [Cursor.lexemes_next] at htail
          obtain ⟨us, hus, hwritten⟩ := Block.Written.cons_of_stops hhead hstops htail
            (List.append_nil _).symm
          rw [hts, hus, List.append_nil]
          exact hwritten
termination_by c.remaining
decreasing_by rw [Cursor.remaining_next]; omega

end Survey

/-- The lexemes of a program write its statements. This is the soundness half of `Program.parse`
against the grammar, and how every later proof gets at the shape of an accepted text. -/
theorem Program.written_of_parse {text : String} {p : Program} (h : Program.parse text = .ok p) :
    Block.Written (tokenize text).lexemes p.statements := by
  obtain ⟨hdiagnostics, hstatements⟩ := Program.parse_eq_ok_iff.1 h
  rw [← hstatements]
  exact Survey.written_of_diagnostics hdiagnostics

/-- A text whose lexemes write the statements of a program is that program. The completeness half;
it also says that no text writes two programs, since `parse` has one answer. -/
theorem Program.parse_of_written {text : String} {p : Program}
    (h : Block.Written (tokenize text).lexemes p.statements) : Program.parse text = .ok p :=
  Program.parse_eq_ok_iff.2 (Survey.ofCursor_of_written h rfl)

/-- A text is the program `p` exactly when its lexemes write the statements of `p`. The two halves
together: the grammar of `Block.Written` and the parser accept the same texts and build the same
trees. -/
theorem Program.parse_eq_ok_iff_written (text : String) (p : Program) :
    Program.parse text = .ok p ↔ Block.Written (tokenize text).lexemes p.statements := by
  constructor
  · exact Program.written_of_parse
  · exact Program.parse_of_written

end Monkey
