import Monkey.Proofs.Syntax.Viability

/-!
# `Monkey.Proofs.Syntax.Settlement`: every parser is settled

How a parser ends depends on nothing that it has not looked at, and what
it has accepted when it gives up can be completed. There is one statement
for each parser, and they follow the recursion of the parsers, with the
measure of `Monkey.Proofs.Syntax.Soundness`. `Statement.settled_parse` and
`Statement.settled_parseBare` are what whole texts are read with.

What continues an expression is, as in soundness, told what the
expression so far is written with.
-/

set_option autoImplicit false

namespace Monkey

mutual

/-- Whatever becomes of an expression is `Settled`, and what has been accepted when it is given up
is `Begun`. First of the mutual block over the parsers, in which the composition lemmas of
`Monkey.Proofs.Syntax.Viability` are applied; the measure is that of the other such blocks. -/
theorem Expr.settled_parse (s : Precedence) (c : Cursor) :
    Settled Cursor.lexemes (Expr.parse s) (Begun (Expr.Form s)) c := by
  rw [funext (Expr.parse_eq s)]
  refine .andThen (Expr.settled_parseOperand c) ?_ ?_
  · intro us hus
    exact hus.mono fun _ h => h.form s
  · intro left k us hk hus
    have hkle := Expr.remaining_le_of_parseOperand hk
    obtain ⟨p, ts, hts, hwritten, htight, hstops⟩ := Expr.written_of_parseOperand hk
    obtain rfl : ts = us := List.append_cancel_right (hts.symm.trans hus)
    exact Expr.settled_parseContinuations hwritten hstops
termination_by 8 * c.remaining + 2

/-- Whatever becomes of what continues a written expression is `Settled`. The lexemes `ts` of what
has been read stand in front, so that what is accepted begins the larger expression. -/
theorem Expr.settled_parseContinuations {s p : Precedence} {left : Expr} {c : Cursor}
    {ts : List Lexeme} (hleft : Expr.Written p ts left) (hstops : c.Stops p) :
    Settled Cursor.behind (Expr.parseContinuations s left)
      (fun us => Begun (Expr.Form s) (ts ++ us)) c := by
  cases hkind : c.continuation? with
  | none =>
      -- Nothing ahead continues an expression.
      refine .congr ?_ (.done left)
      intro c' hc'
      rw [Expr.parseContinuations_eq, Cursor.continuation?_congr hc', hkind]
  | some kind =>
      have hpos := Cursor.remaining_of_continuation? hkind
      have hpeek := Cursor.peek_of_behind (Cursor.behind_of_continuation? hkind)
      -- What stands on the left stopped here, so it binds at least as tightly as this continuation.
      have hkindle := hstops kind hkind
      have hexpr (q : Precedence) :
          Settled Cursor.lexemes (Expr.parse q) (Begun (Expr.Form q)) c.next.next :=
        Expr.settled_parse q c.next.next
      have hmore : Expr.ContinuationsSettled s c.remaining :=
        fun k q ts e _ h hstops => Expr.settled_parseContinuations h hstops
      by_cases hs : s < kind.precedence
      · cases kind with
        | binary op =>
            refine .congr ?_ (Expr.settled_binary hleft hkindle hs hpeek (hexpr _) hmore)
            intro c' hc'
            rw [Expr.parseContinuations_eq, Cursor.continuation?_congr hc', hkind]
            exact if_pos hs
        | call =>
            have hlist := Expr.settled_parseList .rightParen c.next.next
            refine .congr ?_ (Expr.settled_call hleft hkindle hpeek hlist hmore)
            intro c' hc'
            rw [Expr.parseContinuations_eq, Cursor.continuation?_congr hc', hkind]
            exact if_pos hs
        | index =>
            refine .congr ?_ (Expr.settled_index hleft hkindle hpeek (hexpr _) hmore)
            intro c' hc'
            rw [Expr.parseContinuations_eq, Cursor.continuation?_congr hc', hkind]
            exact if_pos hs
      · -- What is ahead binds too loosely for the strength asked for.
        refine .congr ?_ (.done left)
        intro c' hc'
        rw [Expr.parseContinuations_eq, Cursor.continuation?_congr hc', hkind]
        exact if_neg hs
termination_by 8 * c.remaining + 1
decreasing_by all_goals (try simp only [Cursor.remaining_next] at *); omega

/-- Whatever becomes of an operand is `Settled`. One case for each lexeme it may start with, by what
`Monkey.Proofs.Syntax.Viability` says of that kind of operand; all others give up with nothing
accepted, which begins any operand. -/
theorem Expr.settled_parseOperand (c : Cursor) :
    Settled Cursor.lexemes Expr.parseOperand (Begun Expr.OperandForm) c := by
  have hexpr (s : Precedence) (k : Cursor) (_ : k.remaining < c.remaining) :
      Settled Cursor.lexemes (Expr.parse s) (Begun (Expr.Form s)) k :=
    Expr.settled_parse s k
  have hblock (k : Cursor) (_ : k.remaining < c.remaining) :
      Settled Cursor.lexemes Block.parse (Begun (Block.Form Block.close)) k :=
    Block.settled_parse k
  -- Nothing has been accepted yet, and any operand would do.
  have hnone : Begun Expr.OperandForm [] :=
    .of_append [Lexeme.filler] (by simp) Expr.written_filler.operandForm
  -- All lexemes that start no operand are given up at in the same way.
  have hfail : (∀ c' : Cursor, c'.current = c.current →
      Expr.parseOperand c' = .failed ⟨.expression, c'.here⟩ c') →
      Settled Cursor.lexemes Expr.parseOperand (Begun Expr.OperandForm) c :=
    fun h =>
      .congr (fun c' hc' => h c' (Cursor.current_congr hc')) (.giveUp .here .expression hnone)
  cases hc : c.current with
  | none =>
      refine hfail fun c' hc' => ?_
      rw [Expr.parseOperand_eq, hc', hc]
  | some t =>
      have hpos := Cursor.remaining_of_current hc
      have hnext : c.next.remaining < c.remaining := by
        rw [Cursor.remaining_next]
        omega
      cases t with
      | illegal text =>
          refine hfail fun c' hc' => ?_
          rw [Expr.parseOperand_eq, hc', hc]
      | identifier name =>
          refine .operand hc (.done (.identifier name)) fun c' hc' => ?_
          rw [Expr.parseOperand_eq, hc']
      | integer digits =>
          cases hread : Numeral.read? digits with
          | some value =>
              refine .operand hc (.done (.integer value)) fun c' hc' => ?_
              rw [Expr.parseOperand_eq, hc']
              simp only [hread]
          | none =>
              refine .congr ?_ (.giveUp .here .integer hnone)
              intro c' hc'
              rw [Expr.parseOperand_eq, Cursor.current_congr hc', hc]
              simp only [hread]
              rfl
      | string content =>
          refine .operand hc (.done (.string content)) fun c' hc' => ?_
          rw [Expr.parseOperand_eq, hc']
      | keyword word =>
          cases word with
          | trueKw =>
              refine .operand hc (.done (.boolean true)) fun c' hc' => ?_
              rw [Expr.parseOperand_eq, hc']
          | falseKw =>
              refine .operand hc (.done (.boolean false)) fun c' hc' => ?_
              rw [Expr.parseOperand_eq, hc']
          | ifKw =>
              refine .operand hc (Expr.settled_conditional (hexpr .lowest) hblock ?_) ?_
              · intro k _
                exact Block.settled_parseAlternative k
              · intro c' hc'
                rw [Expr.parseOperand_eq, hc']
          | fnKw =>
              refine .operand hc (Expr.settled_function hblock) fun c' hc' => ?_
              rw [Expr.parseOperand_eq, hc']
          | _ =>
              refine hfail fun c' hc' => ?_
              rw [Expr.parseOperand_eq, hc', hc]
      | symbol mark =>
          cases mark with
          | bang =>
              refine .operand hc (Expr.settled_unary .not (hexpr .unary _ hnext)) ?_
              intro c' hc'
              rw [Expr.parseOperand_eq, hc']
          | minus =>
              refine .operand hc (Expr.settled_unary .negate (hexpr .unary _ hnext)) ?_
              intro c' hc'
              rw [Expr.parseOperand_eq, hc']
          | leftParen =>
              refine .operand hc (Expr.settled_parenthesized (hexpr .lowest _ hnext)) ?_
              intro c' hc'
              rw [Expr.parseOperand_eq, hc']
          | leftBracket =>
              refine .operand hc (Expr.settled_array (Expr.settled_parseList _ c.next)) ?_
              intro c' hc'
              rw [Expr.parseOperand_eq, hc']
          | leftBrace =>
              refine .operand hc (Expr.settled_hash (Expr.settled_parsePairs c.next)) ?_
              intro c' hc'
              rw [Expr.parseOperand_eq, hc']
          | _ =>
              refine hfail fun c' hc' => ?_
              rw [Expr.parseOperand_eq, hc', hc]
termination_by 8 * c.remaining + 1
decreasing_by all_goals (try simp only [Cursor.remaining_next] at *); omega

/-- Whatever becomes of a second branch is `Settled`. Only the lexeme ahead decides whether there is
one. -/
theorem Block.settled_parseAlternative (c : Cursor) :
    Settled Cursor.behind Block.parseAlternative (Begun Block.AlternativeForm) c := by
  rw [funext Block.parseAlternative_eq]
  refine .ifPeek (fun helse => ?_) fun _ => .done none
  have hpos := Cursor.remaining_of_peek helse
  refine .step helse (.require ?_ fun hbrace =>
    .andThen (.onward (Block.settled_parse c.next.next.next)) ?_ fun _ _ _ _ _ => .done _)
  · exact .of_append [.symbol .leftBrace, .symbol .rightBrace] (by simp) ⟨some [], .some .nil⟩
  · intro us hus
    refine hus.prepend [.keyword .elseKw, .symbol .leftBrace] ?_
    rintro _ ⟨xs, b, rfl, hwritten⟩
    exact ⟨some b, .some hwritten⟩
termination_by 8 * c.remaining
decreasing_by simp only [Cursor.remaining_next]; omega

/-- Whatever becomes of a list is `Settled`. What is accepted of its first expression begins a list
of that one expression, closed by `close`. -/
theorem Expr.settled_parseList (close : Symbol) (c : Cursor) :
    Settled Cursor.lexemes (Expr.parseList close) (Begun (Expr.ListForm close)) c := by
  -- `parseList` looks at its first lexeme and is then one of two parsers; `Settled.congr` puts the
  -- settled one in its place on either side.
  by_cases hclose : c.current = some (.symbol close)
  · refine .congr ?_ (.lexeme hclose (.done []))
    intro c' hc'
    rw [Expr.parseList_eq]
    exact if_pos ((Cursor.current_congr hc').trans hclose)
  · have h : Settled Cursor.lexemes
        (fun c => (Expr.parse .lowest c).andThen fun e k =>
          (Expr.parseMoreItems close k).andThen fun es m => .parsed (e :: es) m)
        (Begun (Expr.ListForm close)) c := by
      refine .andThen (Expr.settled_parse .lowest c) ?_ ?_
      · intro us hus
        refine hus.enclose [] [.symbol close] (by simp) ?_
        rintro ts ⟨p, e, hwritten, -⟩
        exact ⟨ts ++ [], [e], by simp, .cons hwritten .nil⟩
      · intro e k us hk hus
        have hkle := Expr.remaining_le_of_parse hk
        obtain ⟨p, hwritten, -, -⟩ := Expr.written_between hk hus
        refine .andThen (Expr.settled_parseMoreItems close k) ?_ fun _ _ _ _ _ => .done _
        intro vs hvs
        refine hvs.prepend us ?_
        rintro _ ⟨xs, es, rfl, hmore⟩
        exact ⟨us ++ xs, e :: es, by simp, .cons hwritten hmore⟩
    refine .congr ?_ h
    intro c' hc'
    rw [Expr.parseList_eq]
    exact if_neg (by rw [Cursor.current_congr hc']; exact hclose)
termination_by 8 * c.remaining + 3

/-- Whatever becomes of further expressions of a list is `Settled`. Behind a comma an expression is
completed as it would be by itself, and then closed. -/
theorem Expr.settled_parseMoreItems (close : Symbol) (c : Cursor) :
    Settled Cursor.behind (Expr.parseMoreItems close) (Begun (Expr.MoreForm close)) c := by
  -- Where nothing has been read yet, `close` alone still makes a whole list.
  have hnone : Begun (Expr.MoreForm close) [] :=
    .of_append [.symbol close] (by simp) ⟨[], [], rfl, .nil⟩
  rw [funext (Expr.parseMoreItems_eq close)]
  refine .ifPeek (fun hcomma => ?_) fun _ => .require hnone fun _ => .done []
  have hpos := Cursor.remaining_of_peek hcomma
  refine .step hcomma (.andThen (.onward (Expr.settled_parse .lowest c.next.next)) ?_ ?_)
  · intro us hus
    refine hus.enclose [.symbol .comma] [.symbol close] (by simp) ?_
    rintro ts ⟨p, e, hwritten, -⟩
    exact ⟨.symbol .comma :: (ts ++ []), [e], by simp, .cons hwritten .nil⟩
  · intro e k us hk hus
    have hkle := Expr.remaining_le_of_parse hk
    rw [← Cursor.lexemes_next] at hus
    obtain ⟨p, hwritten, -, -⟩ := Expr.written_between hk hus
    refine .andThen (Expr.settled_parseMoreItems close k) ?_ fun _ _ _ _ _ => .done _
    intro vs hvs
    refine hvs.prepend (.symbol .comma :: us) ?_
    rintro _ ⟨xs, es, rfl, hmore⟩
    exact ⟨.symbol .comma :: (us ++ xs), e :: es, by simp, .cons hwritten hmore⟩
termination_by 8 * c.remaining
decreasing_by all_goals (try simp only [Cursor.remaining_next] at *); omega

/-- Whatever becomes of the pairs of a hash literal is `Settled`. There are five places at which
reading may stop, and for each of them the shortest completion is given. -/
theorem Expr.settled_parsePairs (c : Cursor) :
    Settled Cursor.lexemes Expr.parsePairs (Begun Expr.PairsForm) c := by
  by_cases hclose : c.current = some (.symbol .rightBrace)
  · refine .congr ?_ (.lexeme hclose (.done []))
    intro c' hc'
    rw [Expr.parsePairs_eq]
    exact if_pos ((Cursor.current_congr hc').trans hclose)
  · have h : Settled Cursor.lexemes
        (fun c => (Expr.parse .lowest c).andThen fun key k =>
          k.require .colon fun k₁ =>
            (Expr.parse .lowest k₁.next).andThen fun value m =>
              if m.peek = some (.symbol .rightBrace) then .parsed [(key, value)] m.next
              else
                m.require .comma fun m₁ =>
                  (Expr.parsePairs m₁.next).andThen fun rest n =>
                    .parsed ((key, value) :: rest) n)
        (Begun Expr.PairsForm) c := by
      refine .andThen (Expr.settled_parse .lowest c) ?_ ?_
      · intro us hus
        refine hus.enclose [] [.symbol .colon, Lexeme.filler, .symbol .rightBrace] (by simp) ?_
        rintro ts ⟨p, e, hkey, -⟩
        exact ⟨ts ++ [.symbol .colon, Lexeme.filler], _, by simp, .last hkey Expr.written_filler⟩
      -- Behind the key they are still missing, and from here on the key is known.
      intro key k us hk hus
      have hkle := Expr.remaining_le_of_parse hk
      obtain ⟨p, hkey, -, -⟩ := Expr.written_between hk hus
      refine .require ?_ fun hcolon =>
        .andThen (.onward (Expr.settled_parse .lowest k.next.next)) ?_ ?_
      · refine .of_append [.symbol .colon, Lexeme.filler, .symbol .rightBrace] (by simp) ?_
        exact ⟨us ++ [.symbol .colon, Lexeme.filler], _, by simp, .last hkey Expr.written_filler⟩
      · intro vs hvs
        have hbegun : Begun Expr.PairsForm ((us ++ [.symbol .colon]) ++ vs) := by
          refine hvs.enclose _ [.symbol .rightBrace] (by simp) ?_
          rintro ts ⟨q, e, hvalue, -⟩
          exact ⟨us ++ .symbol .colon :: ts, _, by simp, .last hkey hvalue⟩
        simpa using hbegun
      -- Behind the value either the brace follows or a comma with further pairs.
      intro value m vs hm hvs
      have hpos := Cursor.remaining_of_peek hcolon
      have hmle := Expr.remaining_le_of_parse hm
      simp only [Cursor.remaining_next] at hmle
      rw [← Cursor.lexemes_next] at hvs
      obtain ⟨q, hvalue, -, -⟩ := Expr.written_between hm hvs
      refine .ifPeek (fun hbrace => .step hbrace (.done _)) fun _ => .require ?_ fun _ =>
        .andThen (.onward (Expr.settled_parsePairs m.next.next)) ?_ fun _ _ _ _ _ => .done _
      · refine .of_append [.symbol .rightBrace] (by simp) ?_
        exact ⟨us ++ .symbol .colon :: vs, _, by simp, .last hkey hvalue⟩
      · intro ws hws
        have hbegun : Begun Expr.PairsForm
            ((us ++ .symbol .colon :: (vs ++ [.symbol .comma])) ++ ws) := by
          refine hws.prepend _ ?_
          rintro _ ⟨xs, ps, rfl, hrest⟩
          exact ⟨us ++ .symbol .colon :: (vs ++ .symbol .comma :: xs), _, by simp,
            .cons hkey hvalue hrest⟩
        simpa using hbegun
    refine .congr ?_ h
    intro c' hc'
    rw [Expr.parsePairs_eq]
    exact if_neg (by rw [Cursor.current_congr hc']; exact hclose)
termination_by 8 * c.remaining + 3
decreasing_by all_goals (try simp only [Cursor.remaining_next] at *); omega

/-- Whatever becomes of the statements of a block is `Settled`. A block may stop between
statements, where its closing brace is missing, or inside one of them. -/
theorem Block.settled_parse (c : Cursor) :
    Settled Cursor.lexemes Block.parse (Begun (Block.Form Block.close)) c := by
  have hnone : Begun (Block.Form Block.close) [] :=
    .of_append Block.close (by simp) Block.form_close
  cases hc : c.current with
  | none =>
      refine .congr ?_ (.giveUp .here (.symbol .rightBrace) hnone)
      intro c' hc'
      rw [Block.parse_eq, Cursor.current_congr hc', hc]
      rfl
  | some t =>
      have hpos := Cursor.remaining_of_current hc
      by_cases ht : t = .symbol .rightBrace
      · refine .congr ?_ (.lexeme hc (.done []))
        intro c' hc'
        rw [Block.parse_eq, Cursor.current_congr hc', hc]
        exact if_pos ht
      · have h : Settled Cursor.lexemes
            (fun c => (Statement.parse c).andThen fun s k =>
              (Block.parse k.next).andThen fun rest m => .parsed (s :: rest) m)
            (Begun (Block.Form Block.close)) c := by
          refine .andThen (Statement.settled_parse c) ?_ ?_
          · intro us hus
            refine hus.enclose [] Block.close (by simp) ?_
            rintro ts ⟨s, hwritten⟩
            exact ⟨ts ++ [], [s], by simp, .bare hwritten standsApart_nil .nil⟩
          · intro s k us hk hus
            have hkle := Statement.remaining_le_of_parse hk
            refine .andThen (.weaken (.onward (Block.settled_parse k.next)) ?_)
              (fun _ h => h) fun _ _ _ _ _ => .done _
            -- The statement was read in front of lexemes that start as `vs` does, so both may be
            -- put together.
            intro vs hstarts hvs
            exact Block.begun_cons (by simp) hk hus hstarts hvs
        refine .congr ?_ h
        intro c' hc'
        rw [Block.parse_eq, Cursor.current_congr hc', hc]
        exact if_neg ht
termination_by 8 * c.remaining + 5
decreasing_by all_goals (try simp only [Cursor.remaining_next] at *); omega

/-- Whatever becomes of a statement is `Settled`, its semicolon included. From `settled_parseBare`,
since the semicolon is never what a statement is given up for. -/
theorem Statement.settled_parse (c : Cursor) :
    Settled Cursor.lexemes Statement.parse (Begun Statement.Form) c := by
  rw [funext Statement.parse_eq_andThen]
  exact .andThen (Statement.settled_parseBare c) (fun _ h => h) fun s _ _ _ _ => .closing s
termination_by 8 * c.remaining + 4

/-- Whatever becomes of a statement is `Settled`, its semicolon left aside. `step_of_parsed` needs
this form, where the semicolon behind the statement is the one that stays. -/
theorem Statement.settled_parseBare (c : Cursor) :
    Settled Cursor.lexemes Statement.parseBare (Begun Statement.Form) c := by
  by_cases hlet : c.current = some (.keyword .letKw)
  · have hpos := Cursor.remaining_of_current hlet
    have h : Settled Cursor.behind
        (fun c => c.requireName fun name c₁ =>
          c₁.require .assign fun c₂ =>
            (Expr.parse .lowest c₂.next).andThen fun value k =>
              .parsed (Statement.binding name value) k)
        (fun us => Begun Statement.Form (.keyword .letKw :: us)) c := by
      refine .requireName ?_ fun name _ => .require ?_ fun _ =>
        .andThen (.onward (Expr.settled_parse .lowest c.next.next.next)) ?_ fun _ _ _ _ _ => .done _
      -- Behind `let` alone, a name, an equals sign and a value still make a statement.
      · exact .of_append [Lexeme.filler, .symbol .assign, Lexeme.filler] (by simp)
          ⟨_, .binding "x" Expr.written_filler⟩
      · exact .of_append [.symbol .assign, Lexeme.filler] (by simp)
          ⟨_, .binding name Expr.written_filler⟩
      · intro us hus
        refine hus.prepend [.keyword .letKw, .identifier name, .symbol .assign] ?_
        rintro ts ⟨p, e, hwritten, -⟩
        exact ⟨_, .binding name hwritten⟩
    refine .congr ?_ (.lexeme hlet h)
    intro c' hc'
    rw [Statement.parseBare, Cursor.current_congr hc', hlet]
  · by_cases hreturn : c.current = some (.keyword .returnKw)
    · have hpos := Cursor.remaining_of_current hreturn
      have h : Settled Cursor.behind
          (fun c => (Expr.parse .lowest c.next).andThen fun value k =>
            .parsed (Statement.returning value) k)
          (fun us => Begun Statement.Form (.keyword .returnKw :: us)) c := by
        refine .andThen (.onward (Expr.settled_parse .lowest c.next)) ?_ fun _ _ _ _ _ => .done _
        intro us hus
        refine hus.prepend [.keyword .returnKw] ?_
        rintro ts ⟨p, e, hwritten, -⟩
        exact ⟨_, .returning hwritten⟩
      refine .congr ?_ (.lexeme hreturn h)
      intro c' hc'
      rw [Statement.parseBare, Cursor.current_congr hc', hreturn]
    · have h : Settled Cursor.lexemes
          (fun c => (Expr.parse .lowest c).andThen fun value k =>
            .parsed (Statement.expression value) k)
          (Begun Statement.Form) c := by
        refine .andThen (Expr.settled_parse .lowest c) ?_ fun _ _ _ _ _ => .done _
        intro us hus
        refine hus.mono ?_
        rintro ts ⟨p, e, hwritten, -⟩
        exact ⟨_, .expression hwritten⟩
      refine .congr ?_ h
      intro c' hc'
      rw [← Cursor.current_congr hc'] at hlet hreturn
      rw [Statement.parseBare]
      split
      · contradiction
      · contradiction
      · rfl
termination_by 8 * c.remaining + 3
decreasing_by all_goals (try simp only [Cursor.remaining_next] at *); omega

end

end Monkey
