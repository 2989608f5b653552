import Monkey.Proofs.Syntax.Reach

/-!
# `Monkey.Proofs.Syntax.Rounds`: a text is read in rounds

Reading a text takes one round for each of its parts. A round reads one
statement, or gives it up and goes on behind it, and starts where the
round in front of it ended.

* `Entry.start` and `Entry.resume` are where a round starts and where the
  next one does; `Entry.IsRead` says what it makes of the tokens there.
* `Rounds` are rounds one behind the other, up to the end of the text, and
  `Survey.rounds_ofCursor` says that a survey is made of them.
-/

set_option autoImplicit false

namespace Monkey

namespace Entry

/-- Where the round starts. -/
def start : Entry → Cursor
  | wellFormed _ c _ => c
  | malformed _ c _ => c

/-- Where the next round starts: behind the statement, or behind what is given up of it. -/
def resume : Entry → Cursor
  | wellFormed _ _ k => k.next
  | malformed _ _ k => k.recover.next

/-- The round has made of the tokens at its start what a statement there is read as. -/
def IsRead : Entry → Prop
  | wellFormed s c k => Statement.parse c = .parsed s k
  | malformed d c k => Statement.parse c = .failed d k

variable {e : Entry}

/-- A round moves forward, from `start` to `resume`: a statement is read and one more token gone
past, or it is given up and `recover` goes to its end. -/
theorem IsRead.reaches (h : e.IsRead) : e.start.Reaches e.resume := by
  cases e with
  | wellFormed s c k => exact (Statement.reaches_of_parsed h).next
  | malformed d c k => exact ((Statement.reaches_of_failed h).trans k.reaches_recover).next

/-- A round that starts on a token leaves it behind. A statement may end where it starts, so it is
the step behind it that counts. -/
theorem IsRead.remaining_resume_lt (h : e.IsRead) (hstart : e.start.current ≠ none) :
    e.resume.remaining < e.start.remaining := by
  obtain ⟨t, ht⟩ := Option.ne_none_iff_exists'.1 hstart
  have hpos := Cursor.remaining_of_current ht
  cases e with
  -- The place `resume` is one token behind the end in both cases, and neither end lies before the
  -- start.
  | wellFormed s c k =>
      have hle := (Statement.reaches_of_parsed h).remaining_le
      show k.next.remaining < c.remaining
      have hstart : 0 < c.remaining := hpos
      rw [Cursor.remaining_next]
      omega
  | malformed d c k =>
      have hle := ((Statement.reaches_of_failed h).trans k.reaches_recover).remaining_le
      show k.recover.next.remaining < c.remaining
      have hstart : 0 < c.remaining := hpos
      rw [Cursor.remaining_next]
      omega

end Entry

/-- Rounds one behind the other, from the place `c` to `stop` at the end of the text. -/
inductive Rounds : Cursor → List Entry → Cursor → Prop where
  | nil {c : Cursor} (h : c.current = none) : Rounds c [] c
  | cons {e : Entry} {entries : List Entry} {stop : Cursor} (hstart : e.start.current ≠ none)
      (h : e.IsRead) (rest : Rounds e.resume entries stop) : Rounds e.start (e :: entries) stop

namespace Rounds

variable {c stop : Cursor} {entries : List Entry}

/-- The last round ends at the end of the text. By induction on `Rounds`: the empty list of them has
that for its hypothesis. -/
theorem current_stop (h : Rounds c entries stop) : stop.current = none := by
  induction h with
  | nil h => exact h
  | cons _ _ _ ih => exact ih

/-- Every round leaves a token behind, and moves forward. `IsRead.reaches` and
`IsRead.remaining_resume_lt` for each entry of the list. -/
theorem moves (h : Rounds c entries stop) :
    ∀ e ∈ entries, e.start.Reaches e.resume ∧ e.resume.remaining < e.start.remaining := by
  induction h with
  | nil =>
      intro e he
      cases he
  | cons hstart h _ ih =>
      exact List.forall_mem_cons.2 ⟨⟨h.reaches, h.remaining_resume_lt hstart⟩, ih⟩

/-- There are no more rounds than tokens, since each leaves one behind. -/
theorem length_le (h : Rounds c entries stop) : entries.length ≤ c.remaining := by
  induction h with
  | nil => exact Nat.zero_le _
  | cons hstart h _ ih =>
      have hlt := h.remaining_resume_lt hstart
      rw [List.length_cons]
      omega

end Rounds

namespace Survey

/-- A survey is made of rounds: `Survey.ofCursor` reads its entries one behind the other and stops
at the end of the text. By induction on what remains, along `ofCursor_of_some`. -/
theorem rounds_ofCursor (c : Cursor) : Rounds c (ofCursor c).entries (ofCursor c).stop := by
  cases hc : c.current with
  | none =>
      rw [ofCursor_of_none hc]
      exact .nil hc
  | some t =>
      have hstart : c.current ≠ none := by
        rw [hc]
        exact Option.some_ne_none t
      rw [ofCursor_of_some hc]
      cases hparse : Statement.parse c with
      | parsed s k =>
          have hread : (Entry.wellFormed s c k).IsRead := hparse
          have hlt : k.next.remaining < c.remaining := hread.remaining_resume_lt hstart
          show Rounds (Entry.wellFormed s c k).start _ _
          exact .cons hstart hread (rounds_ofCursor k.next)
      | failed d k =>
          have hread : (Entry.malformed d c k).IsRead := hparse
          have hlt : k.recover.next.remaining < c.remaining := hread.remaining_resume_lt hstart
          show Rounds (Entry.malformed d c k).start _ _
          exact .cons hstart hread (rounds_ofCursor k.recover.next)
termination_by c.remaining
decreasing_by all_goals assumption

/-- Each part of a text gives a statement or a diagnostic and never both, so their numbers add up to
that of the entries. By induction on the entries. -/
theorem length_statements_add_diagnostics (s : Survey) :
    s.statements.length + s.diagnostics.length = s.entries.length := by
  obtain ⟨entries, stop⟩ := s
  show (entries.filterMap Entry.statement?).length + (entries.filterMap Entry.diagnostic?).length =
    entries.length
  induction entries with
  | nil => rfl
  | cons e entries ih =>
      cases e with
      | wellFormed s c k =>
          show (s :: entries.filterMap Entry.statement?).length +
            (entries.filterMap Entry.diagnostic?).length = entries.length + 1
          rw [List.length_cons]
          omega
      | malformed d c k =>
          show (entries.filterMap Entry.statement?).length +
            (d :: entries.filterMap Entry.diagnostic?).length = entries.length + 1
          rw [List.length_cons]
          omega

end Survey

end Monkey
