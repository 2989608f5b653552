import Monkey.Expr.Parser

/-!
# `Monkey.Program.Parser`: reading a whole text

A text is a sequence of statements. A statement that is malformed is left
out and gives one diagnostic, and reading goes on behind it, so that one
text may give many diagnostics and still most of its statements.

What belongs to a malformed statement is settled by its braces: it goes
on to the next semicolon outside all braces, or to the brace that closes
its outermost block, and a semicolon right behind that.

* `Cursor.recover` finds the end of a malformed statement.
* `Survey` holds what a text gives, a statement or a diagnostic for each
  of its parts; `Survey.ofCursor` reads from a place on, and
  `Survey.ofText` reads a text. The equations are `ofCursor_of_none` and
  `ofCursor_of_some`.
* `Program.parse` reads a text that has no diagnostic.
-/

set_option autoImplicit false

namespace Monkey

/-- The last token of a malformed statement, or the end of the text. -/
def Cursor.recover (c : Cursor) : Cursor :=
  match h : c.current with
  | none => c
  | some lexeme =>
    have := Cursor.remaining_of_current h
    if c.depth = 0 ∧ lexeme = .symbol .semicolon then c
    else if c.depth = 0 ∧ lexeme = .symbol .rightBrace then
      if c.peek = some (.symbol .semicolon) then c.next else c
    else c.next.recover
termination_by c.remaining
decreasing_by simp only [Cursor.remaining_next]; omega

/-- The end of a malformed statement lies no earlier than the place where it was given up, since
`recover` only moves with `next`. `Survey.ofCursor` ends because of it: behind a diagnostic it goes
on from `recover` and one token further. -/
theorem Cursor.remaining_recover_le (c : Cursor) :
    c.recover.remaining ≤ c.remaining := by
  fun_induction Cursor.recover c with
  | case1 => exact Nat.le_refl _
  | case2 => exact Nat.le_refl _
  | case3 => simp
  | case4 => exact Nat.le_refl _
  | case5 c lexeme _ _ _ _ ih =>
      rw [remaining_next] at ih
      exact Nat.le_trans ih (Nat.sub_le _ _)

/-! ### Surveys -/

/-- What reading makes of one part of a text: a statement that ends on the token at `stop`, or a
diagnostic of a statement that was given up at `stop`. Either was read from `start` on. -/
inductive Entry where
  | wellFormed (statement : Statement) (start stop : Cursor)
  | malformed (diagnostic : Diagnostic) (start stop : Cursor)

namespace Entry

/-- The statement, if it is well-formed. -/
def statement? : Entry → Option Statement
  | wellFormed s _ _ => some s
  | malformed _ _ _ => none

/-- The diagnostic, if the statement is malformed. -/
def diagnostic? : Entry → Option Diagnostic
  | wellFormed _ _ _ => none
  | malformed d _ _ => some d

end Entry

/-- What a text gives, part by part, and the place where reading ended. -/
structure Survey where
  entries : List Entry
  stop : Cursor

namespace Survey

/-- The well-formed statements in order. -/
def statements (s : Survey) : Block := s.entries.filterMap Entry.statement?

/-- The diagnostics in order, one for each malformed statement. -/
def diagnostics (s : Survey) : List Diagnostic := s.entries.filterMap Entry.diagnostic?

/-- The program of the well-formed statements. -/
def program (s : Survey) : Program := ⟨s.statements⟩

/-- A survey with one more entry in front. -/
def cons (e : Entry) (s : Survey) : Survey := { s with entries := e :: s.entries }

/-- Reads statements from a place to the end of the text. -/
def ofCursor (c : Cursor) : Survey :=
  match h : c.current with
  | none => ⟨[], c⟩
  | some _ =>
    have := Cursor.remaining_of_current h
    match Parse.statement c with
    | ⟨.parsed s k, hk⟩ =>
      have : k.next.remaining < c.remaining := by
        simp only [Outcome.place] at hk
        simp only [Cursor.remaining_next]
        omega
      (ofCursor k.next).cons (.wellFormed s c k)
    | ⟨.failed d k, hk⟩ =>
      have : k.recover.next.remaining < c.remaining := by
        simp only [Outcome.place] at hk
        have := k.remaining_recover_le
        simp only [Cursor.remaining_next]
        omega
      (ofCursor k.recover.next).cons (.malformed d c k)
termination_by c.remaining
decreasing_by all_goals assumption

/-- Reads the statements of a whole text. -/
def ofText (text : String) : Survey := ofCursor (Cursor.start (tokenize text))

/-- At the end of a text `Survey.ofCursor` finds nothing to read: no entry, and the place itself as
the last one. The base case of every induction over a survey. -/
theorem ofCursor_of_none {c : Cursor} (h : c.current = none) : ofCursor c = ⟨[], c⟩ := by
  rw [ofCursor]
  split
  · rfl
  · rename_i heq
    rw [h] at heq
    contradiction

/-- Where a lexeme stands `Survey.ofCursor` reads one statement and then what stands behind it,
after `recover` if the statement was malformed. The equation drops the bounds the definition carries
for its termination, so proofs rewrite with it and never unfold `ofCursor`. -/
theorem ofCursor_of_some {c : Cursor} {lexeme : Lexeme} (h : c.current = some lexeme) :
    ofCursor c =
      match Statement.parse c with
      | .parsed s k => (ofCursor k.next).cons (.wellFormed s c k)
      | .failed d k => (ofCursor k.recover.next).cons (.malformed d c k) := by
  rw [ofCursor, Statement.parse]
  split
  · rename_i heq
    rw [h] at heq
    contradiction
  · split <;> rename_i heq <;> rw [heq]

end Survey

/-- The program that a text is, or every diagnostic if some statement of it is malformed. -/
def Program.parse (text : String) : Except (List Diagnostic) Program :=
  let survey := Survey.ofText text
  if survey.diagnostics.isEmpty then .ok survey.program else .error survey.diagnostics

namespace Program

variable {text : String}

/-- A text is accepted by `Program.parse` exactly when its survey has no diagnostic, and the program
is then the survey's statements. The two halves of an acceptance in the form in which proofs about
`Survey.ofText` provide them. -/
theorem parse_eq_ok_iff {p : Program} :
    parse text = .ok p ↔
      (Survey.ofText text).diagnostics = [] ∧ (Survey.ofText text).statements = p.statements := by
  unfold parse
  dsimp only
  split
  · rename_i hempty
    constructor
    · rintro ⟨⟩
      exact ⟨List.isEmpty_iff.1 hempty, rfl⟩
    · rintro ⟨-, hstatements⟩
      rw [Survey.program, hstatements]
  -- With a diagnostic neither side holds.
  · rename_i hsome
    constructor
    · rintro ⟨⟩
    · rintro ⟨hnone, -⟩
      exact absurd (List.isEmpty_iff.2 hnone) hsome

/-- A text is refused by `Program.parse` exactly with the survey's diagnostics, all of them and in
their order, and only if there are any. Statements read beside them play no part in the answer. -/
theorem parse_eq_error_iff {diagnostics : List Diagnostic} :
    parse text = .error diagnostics ↔
      (Survey.ofText text).diagnostics = diagnostics ∧ diagnostics ≠ [] := by
  unfold parse
  dsimp only
  split
  · rename_i hempty
    constructor
    · rintro ⟨⟩
    · rintro ⟨rfl, hsome⟩
      exact absurd (List.isEmpty_iff.1 hempty) hsome
  -- With a diagnostic the list that is reported is the one that was collected.
  · rename_i hsome
    constructor
    · rintro ⟨⟩
      exact ⟨rfl, fun hnone => hsome (List.isEmpty_iff.2 hnone)⟩
    · rintro ⟨rfl, -⟩
      rfl

end Program

end Monkey
