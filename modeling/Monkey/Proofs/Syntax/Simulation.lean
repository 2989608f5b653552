import Monkey.Proofs.Syntax.Agenda
import Monkey.Proofs.Syntax.Viability

/-!
# `Monkey.Proofs.Syntax.Simulation`: tasks come to what parsers read

What a parser reads in one go is read on the agenda task by task. Whatever else
is on the agenda behind it, the run comes to the point behind what the parser
has read, or goes astray where the parser gives up and with its diagnostic.
`Task.LeadsTo` says so of the tasks that are left to do and a parser's outcome.

* `LeadsTo.andThen`, `LeadsTo.symbol` and `LeadsTo.name` put this together.
* `leadsTo_expression` and its companions are one for each parser.
* `Survey.visits_ofCursor` is the result: the run over a token stream goes
  through the rounds in which the stream is read, and then it ends.
-/

set_option autoImplicit false

namespace Monkey

namespace Task

/-- With `first` left to do, a run comes to the point behind what a parser reads, or gives up with
it. What else is on the agenda plays no part. -/
def LeadsTo {α : Type} (first : Outcome (List Task)) (o : Outcome α) : Prop :=
  ∀ rest, (first.point rest).Leads (o.pointBehind rest)

/-! ### How runs are put together -/

section

variable {α β : Type} {c : Cursor} {t : Task} {us : List Task}

/-- Tasks behind others are tasks that are left to do later: `us` joins what is left anyway. It
brings an agenda into the form in which `LeadsTo` is used of its front. -/
theorem point_andThen (first : Outcome (List Task)) (us rest : List Task) :
    (first.andThen fun ts k => .parsed (ts ++ us) k).point rest = first.point (us ++ rest) := by
  cases first with
  | parsed ts k =>
      show Point.mk k (.within ((ts ++ us) ++ rest)) = Point.mk k (.within (ts ++ (us ++ rest)))
      rw [List.append_assoc]
  | failed d k => rfl

/-- With nothing left to do, a run stands behind what was read. The base case of every simulation.
-/
theorem leadsTo_done (a : α) : LeadsTo (.parsed [] c) (.parsed a c) := fun _ => .refl

/-- A run that gives up is at the point behind a parser that gives up with the same diagnostic `d`,
and every task behind is dropped. -/
theorem leadsTo_failed (d : Diagnostic) : LeadsTo (.failed d c) (.failed d c : Outcome α) :=
  fun _ => .refl

/-- Where a parser goes on behind another one, the tasks of the second stand behind those of the
first. The lemma that takes the equations of the parser and of `perform` apart together. -/
theorem LeadsTo.andThen {first : Outcome (List Task)} {o : Outcome α}
    {f : α → Cursor → Outcome β} (h : LeadsTo first o)
    (hf : ∀ a k, o = .parsed a k → LeadsTo (.parsed us k) (f a k)) :
    LeadsTo (first.andThen fun ts k => .parsed (ts ++ us) k) (o.andThen f) := by
  intro rest
  rw [point_andThen]
  cases o with
  | parsed a k => exact (h (us ++ rest)).trans (hf a k rfl rest)
  | failed d k => exact h (us ++ rest)

/-- A task in front of others is done first, and `LeadsTo.andThen` goes on with the others. The form
for agendas that are written out as a list. -/
theorem LeadsTo.cons {o : Outcome α} {f : α → Cursor → Outcome β}
    (h : LeadsTo (.parsed [t] c) o)
    (hf : ∀ a k, o = .parsed a k → LeadsTo (.parsed us k) (f a k)) :
    LeadsTo (.parsed (t :: us) c) (o.andThen f) := h.andThen hf

/-- The foremost task is done first: one step of the run, by `Task.perform`, with the rest of the
agenda left as it is. -/
theorem LeadsTo.front {o : Outcome α}
    (h : LeadsTo ((t.perform c).andThen fun ts k => .parsed (ts ++ us) k) o) :
    LeadsTo (.parsed (t :: us) c) o := by
  intro rest
  have hstep : ((Outcome.parsed (t :: us) c).point rest).step =
      some (((t.perform c).andThen fun ts k => .parsed (ts ++ us) k).point rest) := by
    rw [point_andThen]
    rfl
  exact .head hstep (h rest)

/-- A single task comes to where what is left in its place comes to. `LeadsTo.front` with nothing
behind. -/
theorem LeadsTo.task {o : Outcome α} (h : LeadsTo (t.perform c) o) :
    LeadsTo (.parsed [t] c) o := fun rest => .head rfl (h rest)

/-- A required symbol `mark` is gone past, or the run goes astray in front of it: both sides make
the same test and fail in the same way. -/
theorem LeadsTo.require {mark : Symbol} {first : Cursor → Outcome (List Task)}
    {goOn : Cursor → Outcome α}
    (h : c.peek = some (.symbol mark) → LeadsTo (first c.next) (goOn c.next)) :
    LeadsTo (c.require mark first) (c.require mark goOn) := by
  unfold Cursor.require
  split
  · rename_i hpeek
    exact h hpeek
  · exact leadsTo_failed _

/-- A required name is gone past, or the run goes astray in front of it. The run forgets the name
that `goOn` is told, which only the tree needs. -/
theorem LeadsTo.requireName {first : String → Cursor → Outcome (List Task)}
    {goOn : String → Cursor → Outcome α}
    (h : ∀ name, c.peek = some (.identifier name) →
      LeadsTo (first name c.next) (goOn name c.next)) :
    LeadsTo (c.requireName first) (c.requireName goOn) := by
  unfold Cursor.requireName
  split
  · rename_i name hpeek
    exact h name hpeek
  · exact leadsTo_failed _

/-- The task for a symbol does what `require` does, and then the tasks behind it are left. Braces
are not read by this task, hence `hmark`. -/
theorem LeadsTo.symbol {mark : Symbol} {hmark : mark.isBrace = false}
    {goOn : Cursor → Outcome α}
    (h : c.peek = some (.symbol mark) → LeadsTo (.parsed us c.next) (goOn c.next)) :
    LeadsTo (.parsed (.symbol mark hmark :: us) c) (c.require mark goOn) := by
  refine .front ?_
  rw [perform, Cursor.require_andThen]
  exact .require h

/-- The task for a name does what `requireName` does, and then the tasks behind it are left. -/
theorem LeadsTo.name {goOn : String → Cursor → Outcome α}
    (h : ∀ name, c.peek = some (.identifier name) →
      LeadsTo (.parsed us c.next) (goOn name c.next)) :
    LeadsTo (.parsed (.name :: us) c) (c.requireName goOn) := by
  refine .front ?_
  rw [perform, Cursor.requireName_andThen]
  exact .requireName h

/-- A block is its statements behind an opening brace. From the brace on, the task `statements`
remembers its place, which no parser knows of. -/
theorem LeadsTo.block {goOn : Cursor → Outcome α}
    (h : c.peek = some (.symbol .leftBrace) →
      LeadsTo (.parsed (.statements c.next :: us) c.next) (goOn c.next)) :
    LeadsTo (.parsed (.block :: us) c) (c.require .leftBrace goOn) := by
  refine .front ?_
  rw [perform, Cursor.require_andThen]
  exact .require h

/-- A statement ends behind its expression, with a semicolon if there is one. The task for the
expression and `semicolon` close all three kinds of statements. -/
theorem LeadsTo.closing {o : Outcome α} (h : LeadsTo (.parsed [t] c) o) (f : α → β) :
    LeadsTo (.parsed [t, .semicolon] c) (o.andThen fun a k => .parsed (f a) k.pastSemicolon) :=
  h.cons fun a _ _ => .task (leadsTo_done (f a))

end

/-! ### Every parser is come to -/

/-- The task for further parameters comes to where `parseMoreParameters` ends. By induction on what
remains, a comma and a name in every round. -/
theorem leadsTo_moreParameters (c : Cursor) :
    LeadsTo (.parsed [moreParameters] c) (Expr.parseMoreParameters c) := by
  refine .task ?_
  rw [perform, Expr.parseMoreParameters_eq]
  split
  · rename_i hcomma
    have hpos := Cursor.remaining_of_peek hcomma
    refine .name fun name _ => ?_
    exact (leadsTo_moreParameters c.next.next).andThen fun names k _ => leadsTo_done _
  · exact .require fun _ => leadsTo_done _
termination_by c.remaining
decreasing_by simp only [Cursor.remaining_next]; omega

/-- The task for parameters comes to where `parseParameters` ends: behind the parenthesis, or behind
a name and what `leadsTo_moreParameters` covers. -/
theorem leadsTo_parameters (c : Cursor) :
    LeadsTo (.parsed [parameters] c) (Expr.parseParameters c) := by
  refine .task ?_
  rw [perform, Expr.parseParameters_eq]
  split
  · exact leadsTo_done _
  · refine .name fun name _ => ?_
    exact (leadsTo_moreParameters c.next).andThen fun names k _ => leadsTo_done _

mutual

/-- The task for an expression comes to where `Expr.parse` ends from the next place. First of
the mutual block over the tasks, which follows the parser's own recursion and its measure. -/
theorem leadsTo_expression (p : Precedence) (c : Cursor) :
    LeadsTo (.parsed [expression p] c) (Expr.parse p c.next) := by
  refine .task ?_
  rw [perform, Expr.parse_eq]
  refine (leadsTo_operand c.next).andThen fun left k hk => ?_
  -- Here and below, what has been read so far bounds what remains, and the recursion ends.
  have hkle := Expr.remaining_le_of_parseOperand hk
  exact leadsTo_continuations p left k
-- An expression stands behind the current token, so that the tokens from there on are counted.
termination_by 8 * c.next.remaining + 2
decreasing_by all_goals (try simp only [Cursor.remaining_next] at *); omega

/-- The task for continuations comes to where `parseContinuations` ends. The run does not know the
left operand, so the statement holds for every `left`. -/
theorem leadsTo_continuations (p : Precedence) (left : Expr) (c : Cursor) :
    LeadsTo (.parsed [continuations p] c) (Expr.parseContinuations p left c) := by
  refine .task ?_
  rw [perform, Expr.parseContinuations_eq]
  cases hkind : c.continuation? with
  | none => exact leadsTo_done _
  | some kind =>
      have hpos := Cursor.remaining_of_continuation? hkind
      dsimp only
      split
      · cases kind with
        | binary op =>
            refine (leadsTo_expression op.precedence c.next).cons fun right k hk => ?_
            have hkle := Expr.remaining_le_of_parse hk
            exact leadsTo_continuations p _ k
        | call =>
            refine (leadsTo_list .rightParen rfl c.next).cons fun arguments k hk => ?_
            have hkle := Expr.remaining_le_of_parseList hk
            exact leadsTo_continuations p _ k
        | index =>
            refine (leadsTo_expression .lowest c.next).cons fun position k hk => ?_
            have hkle := Expr.remaining_le_of_parse hk
            -- An index has one task more than the others, for the bracket behind its position.
            exact .symbol fun _ => leadsTo_continuations p _ k.next
      · exact leadsTo_done _
termination_by 8 * c.remaining + 1
decreasing_by all_goals (try simp only [Cursor.remaining_next] at *); omega

/-- The tasks of an operand come to where `parseOperand` ends. Each lexeme that may start one has
its agenda in `Task.ofOperand`, and the parser reads the same parts in the same order. -/
theorem leadsTo_operand (c : Cursor) : LeadsTo (ofOperand c) (Expr.parseOperand c) := by
  rw [ofOperand, Expr.parseOperand_eq]
  cases hc : c.current with
  | none => exact leadsTo_failed _
  | some t =>
      have hpos := Cursor.remaining_of_current hc
      cases t with
      | illegal text => exact leadsTo_failed _
      | identifier name => exact leadsTo_done _
      | integer digits =>
          dsimp only
          cases Numeral.read? digits with
          | some value => exact leadsTo_done _
          | none => exact leadsTo_failed _
      | string content => exact leadsTo_done _
      | keyword word =>
          cases word with
          | trueKw => exact leadsTo_done _
          | falseKw => exact leadsTo_done _
          | ifKw =>
              refine .symbol fun _ => ?_
              refine (leadsTo_expression .lowest c.next).cons fun condition k hk => ?_
              have hkle := Expr.remaining_le_of_parse hk
              refine .symbol fun _ => .block fun _ => ?_
              -- The first branch starts behind its brace, so it is the statements that are left and
              -- not the block.
              refine (leadsTo_statements k.next.next k.next.next).cons fun consequence m hm => ?_
              have hmle := Block.remaining_le_of_parse hm
              exact (leadsTo_alternative m).andThen fun other n _ => leadsTo_done _
          | fnKw =>
              refine .symbol fun _ => ?_
              refine (leadsTo_parameters c.next).cons fun names k hk => ?_
              have hkle := Expr.remaining_le_of_parseParameters hk
              refine .block fun _ => ?_
              exact (leadsTo_statements k.next k.next).andThen fun body m _ => leadsTo_done _
          | _ => exact leadsTo_failed _
      | symbol mark =>
          cases mark with
          | bang => exact (leadsTo_expression .unary c).andThen fun e k _ => leadsTo_done _
          | minus => exact (leadsTo_expression .unary c).andThen fun e k _ => leadsTo_done _
          | leftParen =>
              refine (leadsTo_expression .lowest c).cons fun e k _ => ?_
              exact .symbol fun _ => leadsTo_done _
          | leftBracket =>
              exact (leadsTo_list .rightBracket rfl c).andThen fun es k _ => leadsTo_done _
          | leftBrace => exact (leadsTo_pairs c c).andThen fun ps k _ => leadsTo_done _
          | _ => exact leadsTo_failed _
termination_by 8 * c.remaining + 1
decreasing_by all_goals (try simp only [Cursor.remaining_next] at *); omega

/-- The task for a second branch comes to where `parseAlternative` ends, without moving if there is
no `else`. -/
theorem leadsTo_alternative (c : Cursor) :
    LeadsTo (.parsed [alternative] c) (Block.parseAlternative c) := by
  refine .task ?_
  rw [perform, Block.parseAlternative_eq]
  split
  · rename_i helse
    have hpos := Cursor.remaining_of_peek helse
    refine .block fun _ => ?_
    exact (leadsTo_statements c.next.next c.next.next).andThen fun other m _ => leadsTo_done _
  · exact leadsTo_done _
termination_by 8 * c.remaining
decreasing_by all_goals (try simp only [Cursor.remaining_next] at *); omega

/-- The task for a list comes to where `parseList` ends from the next place, the closing mark
included. -/
theorem leadsTo_list (close : Symbol) (hclose : close.isBrace = false) (c : Cursor) :
    LeadsTo (.parsed [list close hclose] c) (Expr.parseList close c.next) := by
  refine .task ?_
  rw [perform, Expr.parseList_eq, Cursor.current_next]
  split
  · exact leadsTo_done _
  · refine (leadsTo_expression .lowest c).cons fun e k hk => ?_
    have hkle := Expr.remaining_le_of_parse hk
    exact (leadsTo_moreItems close hclose k).andThen fun es m _ => leadsTo_done _
termination_by 8 * c.next.remaining + 3
decreasing_by all_goals (try simp only [Cursor.remaining_next] at *); omega

/-- The task for further expressions comes to where `parseMoreItems` ends. It puts itself on the
agenda again behind each expression. -/
theorem leadsTo_moreItems (close : Symbol) (hclose : close.isBrace = false) (c : Cursor) :
    LeadsTo (.parsed [moreItems close hclose] c) (Expr.parseMoreItems close c) := by
  refine .task ?_
  rw [perform, Expr.parseMoreItems_eq]
  split
  · rename_i hcomma
    have hpos := Cursor.remaining_of_peek hcomma
    refine (leadsTo_expression .lowest c.next).cons fun e k hk => ?_
    have hkle := Expr.remaining_le_of_parse hk
    exact (leadsTo_moreItems close hclose k).andThen fun es m _ => leadsTo_done _
  · exact .require fun _ => leadsTo_done _
termination_by 8 * c.remaining
decreasing_by all_goals (try simp only [Cursor.remaining_next] at *); omega

/-- The task for pairs comes to where `parsePairs` ends from the next place. What the task remembers
of its opening brace plays no part in that. -/
theorem leadsTo_pairs (opener c : Cursor) :
    LeadsTo (.parsed [pairs opener] c) (Expr.parsePairs c.next) := by
  refine .task ?_
  rw [perform, Expr.parsePairs_eq, Cursor.current_next]
  split
  · exact leadsTo_done _
  · refine (leadsTo_expression .lowest c).cons fun key k hk => ?_
    have hkle := Expr.remaining_le_of_parse hk
    refine .symbol fun hcolon => ?_
    have hpos := Cursor.remaining_of_peek hcolon
    -- Behind a pair the task looks ahead for the brace; the comma is only required without it.
    refine (leadsTo_expression .lowest k.next).cons fun value m hm => .task ?_
    have hmle := Expr.remaining_le_of_parse hm
    rw [perform]
    split
    · exact leadsTo_done _
    · refine .require fun _ => ?_
      exact (leadsTo_pairs opener m.next).andThen fun rest n _ => leadsTo_done _
termination_by 8 * c.next.remaining + 3
decreasing_by all_goals (try simp only [Cursor.remaining_next] at *); omega

/-- The task for the statements of a block comes to where `Block.parse` ends from the next place,
the closing brace included. -/
theorem leadsTo_statements (opener c : Cursor) :
    LeadsTo (.parsed [statements opener] c) (Block.parse c.next) := by
  refine .task ?_
  rw [perform, Block.parse_eq]
  cases hcurrent : c.next.current with
  | none => exact leadsTo_failed _
  | some lexeme =>
      have hpos := Cursor.remaining_of_current hcurrent
      dsimp only
      split
      · exact leadsTo_done _
      -- The tasks of one statement come first, and behind them this same task once more.
      · refine (leadsTo_statement c.next).andThen fun s k hk => ?_
        have hkle := Statement.remaining_le_of_parse hk
        exact (leadsTo_statements opener k).andThen fun rest m _ => leadsTo_done _
termination_by 8 * c.next.remaining + 4
decreasing_by all_goals (try simp only [Cursor.remaining_next] at *); omega

/-- The tasks of a statement come to where `Statement.parse` ends. An expression statement is
already past its first lexeme when its tasks are made, so it goes by `leadsTo_operand`. -/
theorem leadsTo_statement (c : Cursor) : LeadsTo (ofStatement c) (Statement.parse c) := by
  rw [ofStatement, Statement.parse_eq]
  -- All statements without a reserved word of their own go by this.
  have hexpression : LeadsTo
      ((ofOperand c).andThen fun ts k => .parsed (ts ++ [continuations .lowest, semicolon]) k)
      ((Expr.parse .lowest c).andThen fun e k =>
        .parsed (Statement.expression e) k.pastSemicolon) := by
    rw [Expr.parse_eq, Outcome.andThen_assoc]
    refine (leadsTo_operand c).andThen fun left k hk => ?_
    have hkle := Expr.remaining_le_of_parseOperand hk
    exact (leadsTo_continuations .lowest left k).closing Statement.expression
  cases hcurrent : c.current with
  | none => exact hexpression
  | some t =>
      have hpos := Cursor.remaining_of_current hcurrent
      cases t with
      | keyword word =>
          cases word with
          | letKw =>
              refine .name fun name _ => .symbol fun _ => ?_
              exact (leadsTo_expression .lowest c.next.next).closing (Statement.binding name)
          | returnKw => exact (leadsTo_expression .lowest c).closing Statement.returning
          | _ => exact hexpression
      | _ => exact hexpression
termination_by 8 * c.remaining + 3
decreasing_by all_goals (try simp only [Cursor.remaining_next] at *); omega

end

end Task

/-! ### A run goes through the rounds -/

namespace Point

/-- A run gets from a malformed statement to the end of it: step by step it goes where `recover`
goes. By induction on what remains, along `recover_of_some`. -/
theorem leads_recover (d : Diagnostic) (c : Cursor) :
    Leads ⟨c, .astray d⟩ ⟨c.recover, .regained⟩ := by
  cases hc : c.current with
  | none =>
      have hstep : step ⟨c, .astray d⟩ = some ⟨c, .regained⟩ := by simp only [step, hc]
      rw [Cursor.recover_of_none hc]
      exact .single hstep
  | some lexeme =>
      have hpos := Cursor.remaining_of_current hc
      rw [Cursor.recover_of_some hc]
      split
      -- The three tests are those of `recover`, in its order, and each is one step.
      · rename_i hsemicolon
        have hstep : step ⟨c, .astray d⟩ = some ⟨c, .regained⟩ := by
          simp only [step, hc, if_pos hsemicolon]
        exact .single hstep
      · rename_i hsemicolon
        split
        · rename_i hbrace
          have hstep : step ⟨c, .astray d⟩ = some ⟨c.pastSemicolon, .regained⟩ := by
            simp only [step, hc, if_neg hsemicolon, if_pos hbrace]
          exact .single hstep
        · rename_i hbrace
          have hstep : step ⟨c, .astray d⟩ = some ⟨c.next, .astray d⟩ := by
            simp only [step, hc, if_neg hsemicolon, if_neg hbrace]
          exact .head hstep (leads_recover d c.next)
termination_by c.remaining
decreasing_by rw [Cursor.remaining_next]; omega

end Point

namespace Entry

/-- The points at which a run starts a round and ends it. -/
def points : Entry → List Point
  | wellFormed _ c k => [⟨c, .between⟩, ⟨k, .within []⟩]
  | malformed d c k => [⟨c, .between⟩, ⟨k, .astray d⟩, ⟨k.recover, .regained⟩]

variable {e : Entry}

/-- A run that starts a round ends it, and goes on where the next one starts; on the way it comes to
the `points` of the entry. By `leadsTo_statement`, and for a malformed statement by `leads_recover`.
-/
theorem IsRead.leads (h : e.IsRead) (hstart : e.start.current ≠ none) :
    (∀ x ∈ e.points, Point.Leads ⟨e.start, .between⟩ x) ∧
      Point.Leads ⟨e.start, .between⟩ ⟨e.resume, .between⟩ := by
  have hfirst : Point.Leads ⟨e.start, .between⟩ ((Task.ofStatement e.start).point []) := by
    obtain ⟨t, ht⟩ := Option.ne_none_iff_exists'.1 hstart
    have hstep : Point.step ⟨e.start, .between⟩ = some ((Task.ofStatement e.start).point []) := by
      simp only [Point.step, ht]
    exact .single hstep
  -- From here on only the two ways for a statement to end have to be told apart.
  have hread := hfirst.trans (Task.leadsTo_statement e.start [])
  cases e with
  | wellFormed s c k =>
      replace h : Statement.parse c = .parsed s k := h
      have hend : Point.Leads ⟨c, .between⟩ ⟨k, .within []⟩ := by
        rwa [show (Entry.wellFormed s c k).start = c from rfl, h] at hread
      refine ⟨fun x hx => ?_, hend.tail rfl⟩
      simp only [points, List.mem_cons, List.not_mem_nil, or_false] at hx
      obtain rfl | rfl := hx
      · exact .refl
      · exact hend
  | malformed d c k =>
      replace h : Statement.parse c = .failed d k := h
      have hastray : Point.Leads ⟨c, .between⟩ ⟨k, .astray d⟩ := by
        rwa [show (Entry.malformed d c k).start = c from rfl, h] at hread
      have hend := hastray.trans (Point.leads_recover d k)
      refine ⟨fun x hx => ?_, hend.tail rfl⟩
      simp only [points, List.mem_cons, List.not_mem_nil, or_false] at hx
      obtain rfl | rfl | rfl := hx
      · exact .refl
      · exact hastray
      · exact hend

end Entry

/-- A run starts and ends each of the rounds, and comes to where the last one ends. The run lemma to
the step lemma `IsRead.leads`, by induction on `Rounds`. -/
theorem Rounds.leads {c stop : Cursor} {entries : List Entry} (h : Rounds c entries stop) :
    (∀ e ∈ entries, ∀ x ∈ e.points, Point.Leads ⟨c, .between⟩ x) ∧
      Point.Leads ⟨c, .between⟩ ⟨stop, .between⟩ := by
  induction h with
  | nil hcurrent =>
      refine ⟨?_, .refl⟩
      intro e he
      cases he
  | @cons e entries stop hstart hread _ ih =>
      obtain ⟨hpoints, hresume⟩ := hread.leads hstart
      refine ⟨?_, hresume.trans ih.2⟩
      intro e' he x hx
      obtain rfl | he := List.mem_cons.1 he
      · exact hpoints x hx
      · exact hresume.trans (ih.1 e' he x hx)

/-- The run over a token stream goes through the rounds that `Survey.ofCursor` reads it in, and then
it is over. So what holds along runs holds of the parser's own survey. -/
theorem Survey.visits_ofCursor (s : TokenStream) :
    (∀ e ∈ (Survey.ofCursor (.start s)).entries, ∀ x ∈ e.points, Point.Visits s x) ∧
      Point.Visits s ⟨(Survey.ofCursor (.start s)).stop, .between⟩ ∧
      Point.step ⟨(Survey.ofCursor (.start s)).stop, .between⟩ = none := by
  have hrounds := Survey.rounds_ofCursor (.start s)
  obtain ⟨hpoints, hstop⟩ := hrounds.leads
  refine ⟨hpoints, hstop, ?_⟩
  simp only [Point.step, hrounds.current_stop]

end Monkey
