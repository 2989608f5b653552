import Mathlib.Logic.Relation
import Monkey.Proofs.Syntax.Rounds
import Monkey.Proofs.Syntax.Soundness

/-!
# `Monkey.Proofs.Syntax.Agenda`: parsing token by token

While a statement is read, the parsers in `Monkey.Expr.Parser` stand somewhere
inside of each other, and what is left to do is known only to the calls that
wait. Here it is written down. A `Point` of a run is a place and what is done
there: inside of a statement that is an agenda, a list of tasks behind the
current token, the nearest first. `Point.step` is what happens next, and it
moves over one token at most.

A block or a hash literal is on the agenda from its opening brace to its
closing one, as a task that remembers where it was opened (`openers`).

* `Task.perform` does one task: it moves on, gives up, or puts other tasks in
  the place of this one.
* `Point.Visits` are the points of the run over a token stream.
* `Task.moves_perform` says all that a task can do to the place and to the braces
  that are open, a `BraceStep`.
* `Point.step_between` and `Point.step_astray` say what a step does where no
  task is done, and `Point.step_place` that a run goes past one token at a time.
-/

set_option autoImplicit false

namespace Monkey

/-! ### Tasks -/

/-- Whether the symbol opens or closes a block or a hash literal. -/
def Symbol.isBrace : Symbol → Bool
  | leftBrace => true
  | rightBrace => true
  | _ => false

/-- What is to be read behind the current token. What is read up to a closing brace comes with the
place of the opening one. -/
inductive Task where
  | symbol (mark : Symbol) (h : mark.isBrace = false)
  | name
  | expression (p : Precedence)
  /-- What continues the expression that ends on the current token. -/
  | continuations (p : Precedence)
  /-- A list and the symbol that closes it. -/
  | list (close : Symbol) (h : close.isBrace = false)
  | moreItems (close : Symbol) (h : close.isBrace = false)
  /-- The pairs of a hash literal and its closing brace. -/
  | pairs (opener : Cursor)
  /-- What stands behind a pair. -/
  | morePairs (opener : Cursor)
  | parameters
  | moreParameters
  /-- A block with its opening brace. -/
  | block
  /-- The statements of a block and its closing brace. -/
  | statements (opener : Cursor)
  /-- The second branch of a conditional, if there is one. -/
  | alternative
  /-- A semicolon, if there is one. -/
  | semicolon

namespace Task

/-- The opening brace of what the task reads the closing brace of. -/
def opener? : Task → Option Cursor
  | pairs opener => some opener
  | morePairs opener => some opener
  | statements opener => some opener
  | _ => none

/-- What is to be read behind the current token if an operand starts on it. -/
def ofOperand (c : Cursor) : Outcome (List Task) :=
  match c.current with
  | some (.identifier _) => .parsed [] c
  | some (.integer digits) =>
    match Numeral.read? digits with
    | some _ => .parsed [] c
    | none => .failed ⟨.integer, c.here⟩ c
  | some (.string _) => .parsed [] c
  | some (.keyword .trueKw) => .parsed [] c
  | some (.keyword .falseKw) => .parsed [] c
  | some (.symbol .bang) => .parsed [expression .unary] c
  | some (.symbol .minus) => .parsed [expression .unary] c
  | some (.symbol .leftParen) => .parsed [expression .lowest, symbol .rightParen rfl] c
  | some (.symbol .leftBracket) => .parsed [list .rightBracket rfl] c
  | some (.symbol .leftBrace) => .parsed [pairs c] c
  | some (.keyword .ifKw) =>
    .parsed [symbol .leftParen rfl, expression .lowest, symbol .rightParen rfl, block,
      alternative] c
  | some (.keyword .fnKw) => .parsed [symbol .leftParen rfl, parameters, block] c
  | _ => .failed ⟨.expression, c.here⟩ c

/-- What is to be read behind the current token if a statement starts on it. -/
def ofStatement (c : Cursor) : Outcome (List Task) :=
  match c.current with
  | some (.keyword .letKw) =>
    .parsed [name, symbol .assign rfl, expression .lowest, semicolon] c
  | some (.keyword .returnKw) => .parsed [expression .lowest, semicolon] c
  | _ =>
    (ofOperand c).andThen fun ts k => .parsed (ts ++ [continuations .lowest, semicolon]) k

/-- Does a task, and gives the tasks that are left in its place. -/
def perform (c : Cursor) : Task → Outcome (List Task)
  | symbol mark _ => c.require mark fun k => .parsed [] k
  | name => c.requireName fun _ k => .parsed [] k
  | expression p => (ofOperand c.next).andThen fun ts k => .parsed (ts ++ [continuations p]) k
  | continuations p =>
    match c.continuation? with
    | none => .parsed [] c
    | some kind =>
      if p < kind.precedence then
        match kind with
        | .binary op => .parsed [expression op.precedence, continuations p] c.next
        | .call => .parsed [list .rightParen rfl, continuations p] c.next
        | .index =>
          .parsed [expression .lowest, symbol .rightBracket rfl, continuations p] c.next
      else .parsed [] c
  | list close h =>
    if c.peek = some (.symbol close) then .parsed [] c.next
    else .parsed [expression .lowest, moreItems close h] c
  | moreItems close h =>
    if c.peek = some (.symbol .comma) then
      .parsed [expression .lowest, moreItems close h] c.next
    else c.require close fun k => .parsed [] k
  | pairs opener =>
    if c.peek = some (.symbol .rightBrace) then .parsed [] c.next
    else
      .parsed [expression .lowest, symbol .colon rfl, expression .lowest, morePairs opener] c
  | morePairs opener =>
    if c.peek = some (.symbol .rightBrace) then .parsed [] c.next
    else c.require .comma fun k => .parsed [pairs opener] k
  | parameters =>
    if c.peek = some (.symbol .rightParen) then .parsed [] c.next
    else .parsed [name, moreParameters] c
  | moreParameters =>
    if c.peek = some (.symbol .comma) then .parsed [name, moreParameters] c.next
    else c.require .rightParen fun k => .parsed [] k
  | block => c.require .leftBrace fun k => .parsed [statements k] k
  | statements opener =>
    match c.next.current with
    | none => .failed ⟨.symbol .rightBrace, c.next.here⟩ c.next
    | some lexeme =>
      if lexeme = .symbol .rightBrace then .parsed [] c.next
      else
        (ofStatement c.next).andThen fun ts k => .parsed (ts ++ [statements opener]) k
  | alternative =>
    if c.peek = some (.keyword .elseKw) then .parsed [block] c.next else .parsed [] c
  | semicolon => .parsed [] c.pastSemicolon

end Task

/-- The opening braces that have been reached of the blocks and hash literals whose closing braces
have not, the innermost first. -/
def openers (agenda : List Task) : List Cursor := agenda.filterMap Task.opener?

/-- An empty agenda has nothing open. With `openers_append` it computes `openers` of any agenda that
`Task.perform` leaves. -/
@[simp] theorem openers_nil : openers [] = [] := rfl

/-- What is open in two agendas is what is open in the first and then what is open in the second, so
the innermost brace stays in front. -/
@[simp] theorem openers_append (ts us : List Task) :
    openers (ts ++ us) = openers ts ++ openers us := List.filterMap_append

/-! ### Points of a run -/

/-- What is done at a place of a token stream. -/
inductive Stage where
  /-- A statement is about to start, unless the text has ended. -/
  | between
  /-- A statement is being read, and its tasks behind the current token are these. -/
  | within (agenda : List Task)
  /-- A statement has been found to be malformed, and its end is looked for. -/
  | astray (d : Diagnostic)
  /-- The end of a malformed statement has been found. -/
  | regained

/-- A place of a token stream, and what is done there. -/
structure Point where
  place : Cursor
  stage : Stage

/-- The point behind a task, the others being left to do. -/
def Outcome.point (rest : List Task) : Outcome (List Task) → Point
  | parsed ts c => ⟨c, .within (ts ++ rest)⟩
  | failed d c => ⟨c, .astray d⟩

/-- The point behind what a parser reads. -/
def Outcome.pointBehind {α : Type} (rest : List Task) : Outcome α → Point
  | parsed _ c => ⟨c, .within rest⟩
  | failed d c => ⟨c, .astray d⟩

namespace Point

/-- What happens next, none if the text has ended. -/
def step : Point → Option Point
  | ⟨c, .between⟩ =>
    match c.current with
    | none => none
    | some _ => some ((Task.ofStatement c).point [])
  | ⟨c, .within []⟩ => some ⟨c.next, .between⟩
  | ⟨c, .within (t :: rest)⟩ => some ((t.perform c).point rest)
  | ⟨c, .astray d⟩ =>
    match c.current with
    | none => some ⟨c, .regained⟩
    | some lexeme =>
      if c.depth = 0 ∧ lexeme = .symbol .semicolon then some ⟨c, .regained⟩
      else if c.depth = 0 ∧ lexeme = .symbol .rightBrace then some ⟨c.pastSemicolon, .regained⟩
      else some ⟨c.next, .astray d⟩
  | ⟨c, .regained⟩ => some ⟨c.next, .between⟩

/-- The points that a run comes to from a point. -/
def Leads : Point → Point → Prop := Relation.ReflTransGen fun x y => x.step = some y

/-- The points of the run over a token stream. -/
def Visits (s : TokenStream) (x : Point) : Prop := Leads ⟨.start s, .between⟩ x

end Point

/-! ### Braces -/

/-- Whether the lexeme opens or closes a block or a hash literal. -/
def Lexeme.isBrace : Lexeme → Bool
  | .symbol mark => mark.isBrace
  | _ => false

/-- What starts on the current token is open if that token is a brace. -/
inductive Task.Starts (c : Cursor) : List Cursor → Prop where
  | plain {t : Lexeme} (hcurrent : c.current = some t) (ht : t.isBrace = false) :
      Task.Starts c []
  | opened (hcurrent : c.current = some (.symbol .leftBrace)) : Task.Starts c [c]

/-- What becomes of the opening braces on the way from a place to the next point of a run: nothing,
whether or not it lies behind a token that is no brace, or the token ahead is put on the list or
closes what is open innermost. -/
inductive BraceStep (c : Cursor) : Cursor → List Cursor → List Cursor → Prop where
  | stay {os : List Cursor} : BraceStep c c os os
  | past {os : List Cursor} {t : Lexeme} (hpeek : c.peek = some t) (ht : t.isBrace = false) :
      BraceStep c c.next os os
  | opened {os : List Cursor} (hpeek : c.peek = some (.symbol .leftBrace)) :
      BraceStep c c.next os (c.next :: os)
  | closed {o : Cursor} {os : List Cursor} (hpeek : c.peek = some (.symbol .rightBrace)) :
      BraceStep c c.next (o :: os) os

namespace BraceStep

variable {c k : Cursor} {os os' : List Cursor}

/-- A `BraceStep` stays at its place or goes to the next one. The part of it that needs no look at
the braces, which `step_place` and `depth_counts_open_braces` use. -/
theorem place (h : BraceStep c k os os') : k = c ∨ k = c.next := by
  cases h with
  | stay => exact .inl rfl
  | past _ _ => exact .inr rfl
  | opened _ => exact .inr rfl
  | closed _ => exact .inr rfl

/-- What is open around has no part in a `BraceStep`: `around` stays below whatever the step puts on
or takes off. A task sees only its own brace, so its step is stated without the rest of the agenda.
-/
theorem append (h : BraceStep c k os os') (around : List Cursor) :
    BraceStep c k (os ++ around) (os' ++ around) := by
  cases h with
  | stay => exact .stay
  | past hpeek ht => exact .past hpeek ht
  | opened hpeek => exact .opened hpeek
  | closed hpeek => exact .closed hpeek

/-- What starts on the token ahead may be a brace that opens something: `Starts` at `c.next` is a
step from `c` to it. A plain token gives `past`, an opening brace `opened`. -/
theorem of_starts (h : Task.Starts c.next os') : BraceStep c c.next os (os' ++ os) := by
  cases h with
  | plain hcurrent ht => exact .past (c.current_next ▸ hcurrent) ht
  | opened hcurrent => exact .opened (c.current_next ▸ hcurrent)

end BraceStep

/-! ### What a task does -/

/-- What is left to read of something that starts on the current token accounts for that token, or
nothing starts there. -/
inductive Task.Begins (c : Cursor) : Outcome (List Task) → Prop where
  | parsed {ts : List Task} (h : Starts c (openers ts)) : Task.Begins c (.parsed ts c)
  | failed {d : Diagnostic} : Task.Begins c (.failed d c)

/-- What a task does to the place and to the opening braces. It gives up where it stands or on the
next token. -/
inductive Task.Moves (c : Cursor) (os : List Cursor) : Outcome (List Task) → Prop where
  | parsed {k : Cursor} {ts : List Task} (h : BraceStep c k os (openers ts)) :
      Task.Moves c os (.parsed ts k)
  | here {d : Diagnostic} : Task.Moves c os (.failed d c)
  | ahead {d : Diagnostic} : Task.Moves c os (.failed d c.next)

namespace Task

variable {c k : Cursor} {ts : List Task} {o : Outcome (List Task)}

/-- What `ofOperand` leaves to be read accounts for the lexeme the operand starts on. By that
lexeme, one case for each: only the opening brace of a hash literal puts an opener on the agenda. -/
theorem begins_ofOperand (c : Cursor) : Begins c (ofOperand c) := by
  unfold ofOperand
  split
  case h_2 hcurrent =>
    split
    · exact .parsed (.plain hcurrent rfl)
    · exact .failed
  case h_10 hcurrent => exact .parsed (.opened hcurrent)
  case h_13 => exact .failed
  all_goals
    rename_i hcurrent
    exact .parsed (.plain hcurrent rfl)

/-- An account of the current token stays one with tasks behind that have nothing to close.
`continuations` and `semicolon` are such tasks, and `ofStatement` puts both behind an operand. -/
theorem Begins.append {us : List Task} (h : Begins c o) (hus : openers us = []) :
    Begins c (o.andThen fun ts k => .parsed (ts ++ us) k) := by
  cases h with
  | parsed hstarts =>
      refine .parsed ?_
      rw [openers_append, hus, List.append_nil]
      exact hstarts
  | failed => exact .failed

/-- What `ofStatement` leaves to be read accounts for the lexeme the statement starts on. The
reserved words `let` and `return` are no braces; everything else goes by `begins_ofOperand`. -/
theorem begins_ofStatement (c : Cursor) : Begins c (ofStatement c) := by
  unfold ofStatement
  split
  · rename_i hcurrent
    exact .parsed (.plain hcurrent rfl)
  · rename_i hcurrent
    exact .parsed (.plain hcurrent rfl)
  · exact (begins_ofOperand c).append rfl

/-- A task may start something on the next token, in front of the tasks `us` that it leaves itself.
How `Begins`, which speaks of the current token, becomes `Moves`, which speaks of the token ahead.
-/
theorem Begins.moves (us : List Task) (h : Begins c.next o) :
    Moves c (openers us) (o.andThen fun ts k => .parsed (ts ++ us) k) := by
  cases h with
  | parsed hstarts =>
      refine .parsed ?_
      rw [openers_append]
      exact .of_starts hstarts
  | failed => exact .ahead

/-- A required symbol is gone past, or the task gives up in front of it. The hypothesis asks for a
`BraceStep` only where the symbol is there, so each task can say what it is. -/
theorem Moves.require {os : List Cursor} {mark : Symbol} {goOn : Cursor → List Task}
    (h : c.peek = some (.symbol mark) → BraceStep c c.next os (openers (goOn c.next))) :
    Moves c os (c.require mark fun k => .parsed (goOn k) k) := by
  unfold Cursor.require
  split
  · rename_i hpeek
    exact .parsed (h hpeek)
  · exact .here

/-- All that a task can do: it goes past one token at most, and the opening braces in its agenda are
then those of the tasks that are left in its place. One case for each `Task`; the invariants of a
run go by this lemma and not by the definition of `perform`. -/
theorem moves_perform (t : Task) (c : Cursor) : Moves c (openers [t]) (t.perform c) := by
  cases t with
  | symbol mark hmark =>
      rw [perform]
      exact .require fun hpeek => .past hpeek hmark
  | name =>
      rw [perform, Cursor.requireName]
      split
      · rename_i hpeek
        exact .parsed (.past hpeek rfl)
      · exact .here
  | expression p => exact (begins_ofOperand c.next).moves [continuations p]
  -- What continues an expression starts with an operator, a parenthesis or a bracket, never with a
  -- brace.
  | continuations p =>
      rw [perform]
      split
      · exact .parsed .stay
      · rename_i kind hkind
        have hpeek := Cursor.peek_of_behind (Cursor.behind_of_continuation? hkind)
        split
        · cases kind with
          | binary op => exact .parsed (.past hpeek (by cases op <;> rfl))
          | call => exact .parsed (.past hpeek rfl)
          | index => exact .parsed (.past hpeek rfl)
        · exact .parsed .stay
  | list close hclose =>
      rw [perform]
      split
      · rename_i hpeek
        exact .parsed (.past hpeek hclose)
      · exact .parsed .stay
  | moreItems close hclose =>
      rw [perform]
      split
      · rename_i hpeek
        exact .parsed (.past hpeek rfl)
      · exact .require fun hpeek => .past hpeek hclose
  -- The closing brace takes `opener` off; on every other way it is handed to `morePairs`.
  | pairs opener =>
      rw [perform]
      split
      · rename_i hpeek
        exact .parsed (.closed hpeek)
      · exact .parsed .stay
  | morePairs opener =>
      rw [perform]
      split
      · rename_i hpeek
        exact .parsed (.closed hpeek)
      · exact .require fun hpeek => .past hpeek rfl
  | parameters =>
      rw [perform]
      split
      · rename_i hpeek
        exact .parsed (.past hpeek rfl)
      · exact .parsed .stay
  | moreParameters =>
      rw [perform]
      split
      · rename_i hpeek
        exact .parsed (.past hpeek rfl)
      · exact .require fun hpeek => .past hpeek rfl
  -- The opening brace is gone past here, so that its place is the one the new task remembers.
  | block =>
      rw [perform]
      exact .require fun hpeek => .opened hpeek
  | statements opener =>
      rw [perform]
      split
      · exact .ahead
      · rename_i lexeme hcurrent
        split
        · rename_i hbrace
          exact .parsed (.closed (by rw [← Cursor.current_next, hcurrent, hbrace]))
        · exact (begins_ofStatement c.next).moves [statements opener]
  | alternative =>
      rw [perform]
      split
      · rename_i hpeek
        exact .parsed (.past hpeek rfl)
      · exact .parsed .stay
  | semicolon =>
      rw [perform, Cursor.pastSemicolon]
      split
      · rename_i hpeek
        exact .parsed (.past hpeek rfl)
      · exact .parsed .stay

/-- An operand that can start here starts on this token, and its tasks account for it:
`begins_ofOperand` without the `Outcome` around it. -/
theorem starts_ofOperand (h : ofOperand c = .parsed ts k) : k = c ∧ Starts c (openers ts) := by
  have hbegins := begins_ofOperand c
  rw [h] at hbegins
  cases hbegins with
  | parsed hstarts => exact ⟨rfl, hstarts⟩

/-- A statement that can start here starts on this token, and its tasks account for it:
`begins_ofStatement` in the form in which the run of `Point.step` meets it. -/
theorem starts_ofStatement (h : ofStatement c = .parsed ts k) :
    k = c ∧ Starts c (openers ts) := by
  have hbegins := begins_ofStatement c
  rw [h] at hbegins
  cases hbegins with
  | parsed hstarts => exact ⟨rfl, hstarts⟩

/-- A task that is done leaves the braces as a `BraceStep` says. The successful half of
`moves_perform`, by which the invariants of a run pass a task. -/
theorem perform_brace {t : Task} (h : t.perform c = .parsed ts k) :
    BraceStep c k (openers [t]) (openers ts) := by
  have hmoves := moves_perform t c
  rw [h] at hmoves
  cases hmoves with
  | parsed hstep => exact hstep

/-- A statement starts where it stands, and if none can start the parser gives up there too:
`ofStatement` never moves. -/
theorem place_ofStatement (c : Cursor) : (ofStatement c).place = c := by
  have hbegins := begins_ofStatement c
  generalize ofStatement c = o at hbegins
  cases hbegins <;> rfl

/-- A task ends where it stands or on the next token, whether it is done or gives up. The half of
`moves_perform` that says nothing of braces. -/
theorem place_perform (t : Task) (c : Cursor) :
    (t.perform c).place = c ∨ (t.perform c).place = c.next := by
  have hmoves := moves_perform t c
  generalize t.perform c = o at hmoves
  cases hmoves with
  | parsed hstep => exact hstep.place
  | here => exact .inl rfl
  | ahead => exact .inr rfl

end Task

/-! ### What a step does -/

/-- A semicolon is gone past or is not there, so `pastSemicolon` is one of two places. The only step
of `recover` that is not plainly `next` or nothing. -/
theorem Cursor.pastSemicolon_eq_or_next (c : Cursor) :
    c.pastSemicolon = c ∨ c.pastSemicolon = c.next := by
  unfold Cursor.pastSemicolon
  split
  · exact .inr rfl
  · exact .inl rfl

namespace Point

variable {x y : Point} {c : Cursor} {d : Diagnostic}

/-- A statement starts on a token: between two statements a step asks for a current lexeme and goes
to `Task.ofStatement`. At the end of the text there is no such step. -/
theorem step_between (h : step ⟨c, .between⟩ = some y) :
    c.current ≠ none ∧ y = (Task.ofStatement c).point [] := by
  rw [step] at h
  split at h
  · cases h
  · rename_i t hcurrent
    cases h
    exact ⟨hcurrent ▸ Option.some_ne_none t, rfl⟩

/-- The end of a malformed statement is found, or is looked for on the next token. The three ways to
find it are those of `Cursor.recover`, one step of which this is. -/
theorem step_astray (h : step ⟨c, .astray d⟩ = some y) :
    (c.current = none ∧ y = ⟨c, .regained⟩) ∨
      (c.depth = 0 ∧ c.current = some (.symbol .semicolon) ∧ y = ⟨c, .regained⟩) ∨
      (c.depth = 0 ∧ c.current = some (.symbol .rightBrace) ∧ y = ⟨c.pastSemicolon, .regained⟩) ∨
      y = ⟨c.next, .astray d⟩ := by
  rw [step] at h
  split at h
  · rename_i hcurrent
    cases h
    exact .inl ⟨hcurrent, rfl⟩
  · rename_i lexeme hcurrent
    split at h
    · rename_i hsemicolon
      cases h
      exact .inr (.inl ⟨hsemicolon.1, hsemicolon.2 ▸ hcurrent, rfl⟩)
    · split at h
      · rename_i hbrace
        cases h
        exact .inr (.inr (.inl ⟨hbrace.1, hbrace.2 ▸ hcurrent, rfl⟩))
      · cases h
        exact .inr (.inr (.inr rfl))

/-- A run goes past one token at a time: every step stays at its place or goes to the next one. By
the stage of the point, the tasks by `place_perform`. -/
theorem step_place (h : x.step = some y) :
    y.place = x.place ∨ y.place = x.place.next := by
  have hpoint (o : Outcome (List Task)) (rest : List Task) : (o.point rest).place = o.place := by
    cases o <;> rfl
  obtain ⟨c, stage⟩ := x
  cases stage with
  | between =>
      obtain ⟨-, rfl⟩ := step_between h
      rw [hpoint, Task.place_ofStatement]
      exact .inl rfl
  | within agenda =>
      cases agenda with
      | nil =>
          cases h
          exact .inr rfl
      | cons t rest =>
          cases h
          rw [hpoint]
          exact t.place_perform c
  | astray d =>
      -- Behind the brace that ends a remnant one semicolon may be gone past as well.
      obtain ⟨-, rfl⟩ | ⟨-, -, rfl⟩ | ⟨-, -, rfl⟩ | rfl := step_astray h
      · exact .inl rfl
      · exact .inl rfl
      · exact c.pastSemicolon_eq_or_next
      · exact .inr rfl
  | regained =>
      cases h
      exact .inr rfl

end Point

end Monkey
