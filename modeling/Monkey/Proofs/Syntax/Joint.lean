import Monkey.Proofs.Syntax.Acceptance
import Monkey.Proofs.Text.Lines

/-!
# `Monkey.Proofs.Syntax.Joint`: one text behind another

Two texts that are programs become one, with a semicolon on a line of its
own between them. The semicolon closes the last statement of the first
text, which must have one and must not be closed already: a semicolon
alone is no statement.

* `Block.Written.join` puts lexemes that write statements one behind the
  other.
* `Program.parse_join` is what the joined text is read as.
-/

set_option autoImplicit false

namespace Monkey

/-- Without lexemes there are no statements, since each of them starts with one
(`Statement.Written.head`). -/
theorem Block.Written.eq_nil {b : Block} (h : Block.Written [] b) : b = [] := by
  generalize hts : ([] : List Lexeme) = ts at h
  cases h with
  | nil => rfl
  | closed head tail => exact absurd hts.symm (by simp)
  | bare head _ tail =>
      obtain ⟨t, us, rfl, -⟩ := head.head
      cases hts

/-- Statements that are there and do not end on a semicolon are closed by one, and any statements
may stand behind it. By induction on the derivation: the two conditions on `ts` are kept by the
tail, unless it is empty, and then they say how its last statement was ended. -/
theorem Block.Written.join {ts us : List Lexeme} {b b' : Block} (h' : Block.Written us b') :
    Block.Written ts b → ts ≠ [] → ts.getLast? ≠ some (.symbol .semicolon) →
      Block.Written (ts ++ .symbol .semicolon :: us) (b ++ b')
  | .nil, hsome, _ => absurd rfl hsome
  | @Block.Written.closed _ ws _ _ head tail, _, hlast => by
      cases ws with
      | nil =>
          -- Nothing stands behind the semicolon, which is then the last lexeme.
          rw [List.getLast?_append] at hlast
          exact absurd rfl hlast
      | cons w ws =>
          have hlast' : (w :: ws).getLast? ≠ some (.symbol .semicolon) := by
            rwa [List.getLast?_append, List.getLast?_cons_cons, List.getLast?_cons,
              Option.some_or, ← List.getLast?_cons] at hlast
          rw [List.append_assoc]
          exact .closed head (Block.Written.join h' tail (List.cons_ne_nil w ws) hlast')
  | @Block.Written.bare _ ws _ _ head apart tail, _, hlast => by
      cases ws with
      | nil =>
          rw [List.append_nil, tail.eq_nil]
          exact .closed head h'
      | cons w ws =>
          have hlast' : (w :: ws).getLast? ≠ some (.symbol .semicolon) := by
            rwa [List.getLast?_append, List.getLast?_cons, Option.some_or,
              ← List.getLast?_cons] at hlast
          rw [List.append_assoc]
          exact .bare head apart (Block.Written.join h' tail (List.cons_ne_nil w ws) hlast')

/-- The lexemes of two texts with a semicolon between them, on a line of its own. The line feeds
keep the semicolon apart from strings that are not closed, so nothing is asked of either text. -/
theorem lexemes_join (a b : String) :
    (tokenize (a ++ "\n;\n" ++ b)).lexemes =
      (tokenize a).lexemes ++ .symbol .semicolon :: (tokenize b).lexemes := by
  have hsemicolon (cs : List Char) :
      scan (';' :: '\n' :: cs) = .symbol .semicolon :: scan cs := by
    have hmark : Symbol.ofChar? ';' = some .semicolon := rfl
    rw [scan_mark_cons hmark (.inr (by decide)), scan_blank_cons rfl]
  have htext : (a ++ "\n;\n" ++ b).toList = a.toList ++ '\n' :: ';' :: '\n' :: b.toList := by
    simp
  rw [lexemes_tokenize, htext, scan_append_lineFeed, hsemicolon]
  rfl

/-- Two programs with a semicolon between them are one, with the statements of both. The grammar's
form `Block.Written.join` of it, carried over by `Program.written_of_parse` and
`Program.parse_of_written`. -/
theorem Program.parse_join {a b : String} {p q : Program} (hp : Program.parse a = .ok p)
    (hq : Program.parse b = .ok q) (hsome : (tokenize a).lexemes ≠ [])
    (hlast : (tokenize a).lexemes.getLast? ≠ some (.symbol .semicolon)) :
    Program.parse (a ++ "\n;\n" ++ b) = .ok ⟨p.statements ++ q.statements⟩ := by
  refine Program.parse_of_written ?_
  rw [lexemes_join]
  exact (Program.written_of_parse hq).join (Program.written_of_parse hp) hsome hlast

end Monkey
