import Monkey.Proofs.Syntax.Acceptance
import Monkey.Proofs.Syntax.Reach
import Monkey.Proofs.Syntax.Settlement
import Monkey.Proofs.Text.Lines

/-!
# `Monkey.Proofs.Syntax.Shift`: lines do not matter to what is read

Put the tokens of a text on other lines. Then it gives the same statements,
and the same diagnostics on these other lines (`Survey.ofCursor_reline`).
No parser is taken apart for this. A parser depends on the lexemes that it
looks at (`Settled`), and those are the same.

A text that stands further down is a case of it (`Survey.ofCursor_shift`):
there every line becomes one that is so much larger.
-/

set_option autoImplicit false

namespace Monkey

/-! ### Other lines -/

/-- The token, with its line replaced. -/
def Token.reline (f : Nat → Nat) (t : Token) : Token := { t with line := f t.line }

/-- What was found, with its line replaced. -/
def Found.reline (f : Nat → Nat) (x : Found) : Found := { x with line := f x.line }

/-- The diagnostic, with its line replaced. -/
def Diagnostic.reline (f : Nat → Nat) (d : Diagnostic) : Diagnostic :=
  { d with found := d.found.reline f }

/-- What was found, some lines further down. -/
def Found.shift (n : Nat) (f : Found) : Found := { f with line := f.line + n }

/-- The diagnostic, some lines further down. -/
def Diagnostic.shift (n : Nat) (d : Diagnostic) : Diagnostic := { d with found := d.found.shift n }

namespace Cursor

/-- The place in the same text some lines further down. -/
def shift (n : Nat) (c : Cursor) : Cursor :=
  ⟨c.tokens.map (Token.shift n), c.endLine + n, c.depth⟩

/-- The place, with every line replaced. -/
def reline (f : Nat → Nat) (c : Cursor) : Cursor :=
  ⟨c.tokens.map (Token.reline f), f c.endLine, c.depth⟩

/-- Some lines further down the first place is the first place of the same tokens, so `shift` passes
from places to streams. The depth is that of the first lexeme, which has no line. -/
theorem shift_start (n : Nat) (s : TokenStream) : (start s).shift n = start (s.shift n) := by
  obtain ⟨tokens, endLine⟩ := s
  cases tokens <;> rfl

variable {f : Nat → Nat} {c : Cursor}

/-- New lines leave the lexemes as they are: `reline` touches nothing but the line of each token. -/
@[simp] theorem lexemes_reline : (c.reline f).lexemes = c.lexemes := by
  unfold lexemes reline
  rw [List.map_map]
  rfl

/-- New lines leave the lexemes behind the current one as they are: `reline` changes the lines of
tokens only. -/
@[simp] theorem behind_reline : (c.reline f).behind = c.behind := by
  rw [behind, lexemes_reline, behind]

/-- New lines by `reline` leave as many tokens to read as there were, so parsers on both sides end
together. -/
@[simp] theorem remaining_reline : (c.reline f).remaining = c.remaining := by
  rw [← length_lexemes, lexemes_reline, length_lexemes]

/-- New lines by `reline` leave the current lexeme as it is, and so the branch a parser takes. -/
@[simp] theorem current_reline : (c.reline f).current = c.current := by
  rw [current_eq_head?, lexemes_reline, ← current_eq_head?]

/-- New lines leave the lexeme ahead as it is, by `behind_reline`. -/
@[simp] theorem peek_reline : (c.reline f).peek = c.peek := by
  rw [peek_eq_head?, behind_reline, ← peek_eq_head?]

/-- Moving on and putting in new lines can be done in either order. Depths agree because `peek`
does. -/
@[simp] theorem next_reline : (c.reline f).next = c.next.reline f := by
  have htokens : (c.reline f).next.tokens = (c.next.reline f).tokens := List.map_tail.symm
  have hdepth : (c.reline f).next.depth = (c.next.reline f).depth := by
    show depthAfter c.depth (c.reline f).peek = depthAfter c.depth c.peek
    rw [peek_reline]
  show Cursor.mk _ (f c.endLine) _ = Cursor.mk _ (f c.endLine) _
  rw [Cursor.mk.injEq]
  exact ⟨htokens, rfl, hdepth⟩

/-- What stands at the place gets a new line from `f` with it; at the end of the text that is the
line on which the text ends. -/
theorem here_reline : (c.reline f).here = c.here.reline f := by
  obtain ⟨tokens, endLine, depth⟩ := c
  cases tokens <;> rfl

/-- What is reached on other lines is what is reached, on other lines. By induction on the way, a
step at a time by `next_reline`. -/
theorem Reaches.reline {k : Cursor} (h : c.Reaches k) : (c.reline f).Reaches (k.reline f) := by
  induction h with
  | here => exact .here
  | next _ ih =>
      rw [← next_reline]
      exact ih.next

/-- On other lines the same is given up of a malformed statement. By induction on what remains,
since every test of `recover` looks at lexemes and depths only. -/
theorem recover_reline (f : Nat → Nat) (c : Cursor) :
    (c.reline f).recover = c.recover.reline f := by
  cases hc : c.current with
  | none => rw [recover_of_none hc, recover_of_none (current_reline.trans hc)]
  | some lexeme =>
      have hpos := remaining_of_current hc
      have hdepth : (c.reline f).depth = c.depth := rfl
      rw [recover_of_some hc, recover_of_some (current_reline.trans hc), hdepth, peek_reline,
        next_reline, recover_reline f c.next]
      simp only [apply_ite (Cursor.reline f)]
termination_by c.remaining
decreasing_by rw [remaining_next]; omega

end Cursor

/-! ### Surveys -/

namespace Survey

/-- At the end of a text there is nothing, neither a statement nor a diagnostic. In terms of
`remaining`, for places that are known by it alone. -/
theorem ofCursor_of_remaining {c : Cursor} (h : c.remaining = 0) :
    (ofCursor c).statements = [] ∧ (ofCursor c).diagnostics = [] := by
  have hnone : c.current = none := by
    rw [Cursor.current_eq_head?, List.head?_eq_none_iff, ← List.length_eq_zero_iff,
      Cursor.length_lexemes, h]
  rw [ofCursor_of_none hnone]
  exact ⟨rfl, rfl⟩

/-- Parsers that give up at the same lexemes, one of them on other lines, look at the same token,
and what is read behind the malformed statement is read from the same place. The place itself is
known only up to what it has not read, hence the second alternative at the end of the text. -/
theorem resume_reline {f : Nat → Nat} {c k k' : Cursor} {sight : Sight} (hreach : c.Reaches k)
    (hreach' : (c.reline f).Reaches k') (hunread : k'.unread sight = k.unread sight) :
    k'.look sight = (k.look sight).reline f ∧
      (k'.recover.next = k.recover.next.reline f ∨
        k'.recover.next.remaining = 0 ∧ k.recover.next.remaining = 0) := by
  cases sight with
  -- The unread lexemes start at the place, so the two places have as many left and are the same.
  | here =>
      have hk' : k' = k.reline f := by
        refine hreach'.unique hreach.reline ?_
        rw [Cursor.remaining_reline, ← Cursor.length_lexemes, ← Cursor.length_lexemes]
        exact congrArg List.length hunread
      rw [hk', Cursor.recover_reline, Cursor.next_reline]
      exact ⟨Cursor.here_reline, .inl rfl⟩
  -- They start one token further, so at first only the next places are known to be the same.
  | ahead =>
      have hbehind : k'.behind = k.behind := hunread
      have hnext : k'.next = k.next.reline f := by
        refine hreach'.next.unique hreach.next.reline ?_
        rw [Cursor.remaining_reline, Cursor.remaining_next_eq, Cursor.remaining_next_eq, hbehind]
      refine ⟨?_, ?_⟩
      · show k'.next.here = k.next.here.reline f
        rw [hnext, Cursor.here_reline]
      · by_cases hempty : k.behind = []
        · -- At the last token there is nothing left behind the malformed statement.
          have hend (m : Cursor) (hm : m.behind = []) : m.recover.next.remaining = 0 := by
            have hle := m.remaining_recover_le
            have hlength := m.remaining_next_eq
            rw [hm, Cursor.remaining_next, List.length_nil] at hlength
            rw [Cursor.remaining_next]
            omega
          exact .inr ⟨hend k' (hbehind.trans hempty), hend k hempty⟩
        · have hk' : k' = k.reline f := by
            refine hreach'.unique hreach.reline ?_
            rw [Cursor.remaining_reline, Cursor.remaining_of_behind hempty,
              Cursor.remaining_of_behind (by rwa [hbehind]), hbehind]
          rw [hk', Cursor.recover_reline, Cursor.next_reline]
          exact .inl rfl

/-- On other lines a text gives the same statements, and the same diagnostics on these lines. By
induction on the rounds: a parser sees lexemes alone (`Statement.settled_parse`), so it takes the
same tokens on both sides. -/
theorem ofCursor_reline (f : Nat → Nat) (c : Cursor) :
    (ofCursor (c.reline f)).statements = (ofCursor c).statements ∧
      (ofCursor (c.reline f)).diagnostics = (ofCursor c).diagnostics.map (Diagnostic.reline f) := by
  cases hc : c.current with
  | none =>
      rw [ofCursor_of_none hc, ofCursor_of_none (Cursor.current_reline.trans hc)]
      exact ⟨rfl, rfl⟩
  | some t =>
      have hpos := Cursor.remaining_of_current hc
      have hcurrent : (c.reline f).current = some t := Cursor.current_reline.trans hc
      cases hparse : Statement.parse c with
      | parsed s k =>
          obtain ⟨us, hus, hrepeat⟩ := (Statement.settled_parse c).parsed hparse
          obtain ⟨k', hk', hbehind⟩ := hrepeat (c.reline f) k.behind
            (Cursor.lexemes_reline.trans hus) rfl
          have hreach := (Statement.reaches_of_parsed hparse).next
          have hreach' := (Statement.reaches_of_parsed hk').next
          -- What stands behind the statement is the same, so that the next place is.
          have hremaining : k'.next.remaining = (k.next.reline f).remaining := by
            rw [Cursor.remaining_reline, Cursor.remaining_next_eq, Cursor.remaining_next_eq,
              hbehind]
          have hnext : k'.next = k.next.reline f :=
            hreach'.unique hreach.reline hremaining
          have hle : k.remaining ≤ c.remaining := Statement.remaining_le_of_parse hparse
          obtain ⟨hstatements, hdiagnostics⟩ := ofCursor_reline f k.next
          rw [ofCursor_of_parsed hc hparse, ofCursor_of_parsed hcurrent hk', hnext]
          exact ⟨congrArg (s :: ·) hstatements, hdiagnostics⟩
      | failed d k =>
          -- The other parser gives up at the same lexemes, and both go on from there by
          -- `resume_reline`.
          obtain ⟨sight, us, hus, hfound, -, hrepeat⟩ := (Statement.settled_parse c).failed hparse
          obtain ⟨k', hk', hunread⟩ := hrepeat (c.reline f) (k.unread sight)
            (Cursor.lexemes_reline.trans hus) rfl
          have hreach := Statement.reaches_of_failed hparse
          obtain ⟨hlook, hresume⟩ :=
            resume_reline hreach (Statement.reaches_of_failed hk') hunread
          have hreline : (⟨d.expected, k'.look sight⟩ : Diagnostic) = d.reline f := by
            rw [hlook, ← hfound]
            rfl
          have hle : k.recover.next.remaining < c.remaining := by
            have hrecover := k.remaining_recover_le
            have hplace := hreach.remaining_le
            rw [Cursor.remaining_next]
            omega
          obtain ⟨hstatements, hdiagnostics⟩ :
              (ofCursor k'.recover.next).statements = (ofCursor k.recover.next).statements ∧
                (ofCursor k'.recover.next).diagnostics =
                  (ofCursor k.recover.next).diagnostics.map (Diagnostic.reline f) := by
            rcases hresume with hplace | ⟨hend', hend⟩
            · rw [hplace]
              exact ofCursor_reline f k.recover.next
            · obtain ⟨hstatements, hdiagnostics⟩ := ofCursor_of_remaining hend
              obtain ⟨hstatements', hdiagnostics'⟩ := ofCursor_of_remaining hend'
              rw [hstatements, hdiagnostics, hstatements', hdiagnostics']
              exact ⟨rfl, rfl⟩
          rw [ofCursor_of_some hc, ofCursor_of_some hcurrent, hparse, hk', hreline]
          exact ⟨hstatements, congrArg (d.reline f :: ·) hdiagnostics⟩
termination_by c.remaining
decreasing_by all_goals (simp only [Cursor.remaining_next] at *; omega)

/-- Some lines further down a text gives the same statements, and the same diagnostics further down:
`shift` is `reline` by adding. -/
theorem ofCursor_shift (n : Nat) (c : Cursor) :
    (ofCursor (c.shift n)).statements = (ofCursor c).statements ∧
      (ofCursor (c.shift n)).diagnostics = (ofCursor c).diagnostics.map (Diagnostic.shift n) :=
  ofCursor_reline (· + n) c

end Survey

end Monkey
