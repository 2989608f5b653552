import Monkey.Proofs.Syntax.Rounds

/-!
# `Monkey.Proofs.Syntax.Procedure`: parsing with loops

The parsers once more, as procedures that stand on a token, look at the
one ahead of it and move on, in loops that go on until some token comes.
Nothing in them counts the tokens that are left, and nothing says that a
loop ends: at the end of a text moving on stays there, so a loop that waits
for a token could wait for ever.

None does. Each procedure ends from every place, and its outcome is that of
the parser in `Monkey.Expr.Parser` that it tells of. What is counted to show
it is `8 * c.remaining` and a rank of the procedure, since a procedure calls
another one on fewer tokens, or in the order of the ranks.

* `Phrase` lists what the procedures read, and `Phrase.read` is the
  procedure for each of them; they call one another through it.
* `Procedure.Ends` says that a procedure ends and how; `Ends.bind`,
  `ends_expect` and `ends_expectName` put this together.
* `ends_expression` and its companions are one lemma for each phrase, and
  `ends_program` is the loop over the statements of a text.
* `Procedure.parsing_ends` is the result.
-/

set_option autoImplicit false

namespace Monkey

/-- A procedure that moves through a token stream. It ends with a value or gives up with a
diagnostic, at some place in either case, or it does not end. -/
abbrev Procedure (α : Type) := ExceptT Diagnostic (StateT Cursor Option) α

namespace Procedure

/-! ### Moves -/

/-- Moves to the next token. -/
def advance : Procedure Unit := modify Cursor.next

/-- Gives up where the procedure stands. -/
def giveUp {α : Type} (d : Cursor → Diagnostic) : Procedure α := do
  throw (d (← get))

/-- Moves to the symbol ahead if it is the one asked for. -/
def expect (mark : Symbol) : Procedure Unit := do
  if (← get).peek = some (.symbol mark) then advance
  else giveUp fun c => ⟨.symbol mark, c.ahead⟩

/-- Moves to the identifier ahead. -/
def expectName : Procedure String := do
  match (← get).peek with
  | some (.identifier name) => do
    advance
    pure name
  | _ => giveUp fun c => ⟨.identifier, c.ahead⟩

/-- Moves to the semicolon ahead, if there is one. -/
def skipSemicolon : Procedure Unit := do
  if (← get).peek = some (.symbol .semicolon) then advance

/-- Goes on from where a procedure has given up. -/
def attempt {α : Type} (x : Procedure α) : Procedure (Except Diagnostic α) :=
  ExceptT.lift x.run

end Procedure

/-! ### Phrases -/

/-- What there is to read in a token stream, and what it is read as. -/
inductive Phrase : Type → Type where
  /-- An expression at a strength. -/
  | expression (p : Precedence) : Phrase Expr
  /-- What goes on behind an operand, as long as it binds more tightly than the strength. -/
  | continuations (p : Precedence) (left : Expr) : Phrase Expr
  | operand : Phrase Expr
  /-- The second branch of a conditional, if there is one. -/
  | alternative : Phrase (Option Block)
  /-- The expressions of a list, from the symbol that opens it. -/
  | list (close : Symbol) : Phrase (List Expr)
  /-- The further expressions of a list, as long as there are commas. -/
  | moreItems (close : Symbol) : Phrase (List Expr)
  /-- The pairs of a hash literal, from the brace that opens it, a comma or the last value. -/
  | pairs : Phrase (List (Expr × Expr))
  /-- The parameters of a function, from the parenthesis that opens them. -/
  | parameters : Phrase (List String)
  /-- The further parameters of a function, as long as there are commas. -/
  | moreParameters : Phrase (List String)
  /-- A block, from the brace that opens it. -/
  | block : Phrase Block
  /-- The statements of a block, up to a closing brace. -/
  | statements : Phrase Block
  | statement : Phrase Statement
  /-- What is given up of a malformed statement: up to a semicolon outside all braces, or to the
  brace that closes the outermost one, and a semicolon behind that. -/
  | remnant : Phrase Unit

namespace Phrase

open Procedure

/-- The procedure that reads a phrase. -/
def read {α : Type} : Phrase α → Procedure α
  | expression p => do
    let left ← operand |>.read
    continuations p left |>.read
  | continuations p left => do
    match (← get).continuation? with
    | none => pure left
    | some kind =>
      if p < kind.precedence then do
        advance
        match kind with
        | .binary op => do
          advance
          let right ← expression op.precedence |>.read
          continuations p (.binary op left right) |>.read
        | .call => do
          -- A list is read from its parenthesis on, an operand from behind its operator.
          let arguments ← list .rightParen |>.read
          continuations p (.call left arguments) |>.read
        | .index => do
          advance
          let position ← expression .lowest |>.read
          expect .rightBracket
          continuations p (.index left position) |>.read
      else pure left
  | operand => do
    match (← get).current with
    | some (.identifier name) => pure (.identifier name)
    | some (.integer digits) =>
      match Numeral.read? digits with
      | some value => pure (.integer value)
      | none => giveUp fun c => ⟨.integer, c.here⟩
    | some (.string content) => pure (.string content)
    | some (.keyword .trueKw) => pure (.boolean true)
    | some (.keyword .falseKw) => pure (.boolean false)
    | some (.symbol .bang) => do
      advance
      let e ← expression .unary |>.read
      pure (.unary .not e)
    | some (.symbol .minus) => do
      advance
      let e ← expression .unary |>.read
      pure (.unary .negate e)
    | some (.symbol .leftParen) => do
      advance
      let e ← expression .lowest |>.read
      expect .rightParen
      pure e
    | some (.symbol .leftBracket) => do
      let elements ← list .rightBracket |>.read
      pure (.array elements)
    | some (.symbol .leftBrace) => do
      let entries ← pairs |>.read
      pure (.hash entries)
    | some (.keyword .ifKw) => do
      expect .leftParen
      advance
      let condition ← expression .lowest |>.read
      expect .rightParen
      expect .leftBrace
      let consequence ← block |>.read
      let other ← alternative |>.read
      pure (.conditional condition consequence other)
    | some (.keyword .fnKw) => do
      expect .leftParen
      let names ← parameters |>.read
      expect .leftBrace
      let body ← block |>.read
      pure (.function names body)
    | _ => giveUp fun c => ⟨.expression, c.here⟩
  | alternative => do
    if (← get).peek = some (.keyword .elseKw) then do
      advance
      expect .leftBrace
      let other ← block |>.read
      pure (some other)
    else pure none
  | list close => do
    if (← get).peek = some (.symbol close) then do
      advance
      pure []
    else do
      advance
      let e ← expression .lowest |>.read
      let es ← moreItems close |>.read
      pure (e :: es)
  | moreItems close => do
    if (← get).peek = some (.symbol .comma) then do
      advance
      advance
      let e ← expression .lowest |>.read
      let es ← moreItems close |>.read
      pure (e :: es)
    else do
      expect close
      pure []
  | pairs => do
    if (← get).peek = some (.symbol .rightBrace) then do
      advance
      pure []
    else do
      advance
      let key ← expression .lowest |>.read
      expect .colon
      advance
      let value ← expression .lowest |>.read
      -- A brace ahead is left to the loop, and everything else has to be a comma.
      if (← get).peek = some (.symbol .rightBrace) then do
        let rest ← pairs |>.read
        pure ((key, value) :: rest)
      else do
        expect .comma
        let rest ← pairs |>.read
        pure ((key, value) :: rest)
  | parameters => do
    if (← get).peek = some (.symbol .rightParen) then do
      advance
      pure []
    else do
      let name ← expectName
      let names ← moreParameters |>.read
      pure (name :: names)
  | moreParameters => do
    if (← get).peek = some (.symbol .comma) then do
      advance
      let name ← expectName
      let names ← moreParameters |>.read
      pure (name :: names)
    else do
      expect .rightParen
      pure []
  | block => do
    advance
    statements |>.read
  | statements => do
    match (← get).current with
    -- Without this the loop would go on for ever behind a block that nothing closes.
    | none => giveUp fun c => ⟨.symbol .rightBrace, c.here⟩
    | some lexeme =>
      if lexeme = .symbol .rightBrace then pure []
      else do
        let s ← statement |>.read
        advance
        let rest ← statements |>.read
        pure (s :: rest)
  | statement => do
    match (← get).current with
    | some (.keyword .letKw) => do
      let name ← expectName
      expect .assign
      advance
      let value ← expression .lowest |>.read
      skipSemicolon
      pure (.binding name value)
    | some (.keyword .returnKw) => do
      advance
      let value ← expression .lowest |>.read
      skipSemicolon
      pure (.returning value)
    | _ => do
      let value ← expression .lowest |>.read
      skipSemicolon
      pure (.expression value)
  | remnant => do
    let c ← get
    match c.current with
    | none => pure ()
    | some lexeme =>
      if c.depth = 0 ∧ lexeme = .symbol .semicolon then pure ()
      else if c.depth = 0 ∧ lexeme = .symbol .rightBrace then skipSemicolon
      else do
        advance
        remnant |>.read
partial_fixpoint

/-- One round of the loop over a text: a statement, or what is wrong with it. -/
def entry (p : Phrase Statement) : Procedure Entry := do
  let start ← get
  match ← attempt p.read with
  | .ok s => do
    let stop ← get
    pure (.wellFormed s start stop)
  | .error d => do
    let stop ← get
    remnant.read
    pure (.malformed d start stop)

/-- The loop over a text, which goes on until the text ends. -/
def entries (p : Phrase Statement) : Procedure (List Entry) := do
  match (← get).current with
  | none => pure []
  | some _ => do
    let e ← p.entry
    advance
    let rest ← p |>.entries
    pure (e :: rest)
partial_fixpoint

end Phrase

namespace Procedure

/-- The loop over the statements of a text. -/
def program : Procedure (List Entry) := Phrase.statement.entries

/-! ### Ends -/

/-- What a procedure leaves behind that ends with an outcome. -/
def left {α : Type} : Outcome α → Except Diagnostic α × Cursor
  | .parsed a k => (.ok a, k)
  | .failed d k => (.error d, k)

/-- The procedure ends from the place `c`, and with this outcome. -/
def Ends {α : Type} (x : Procedure α) (c : Cursor) (o : Outcome α) : Prop :=
  x.run c = some (left o)

section Ends

variable {α β : Type} {c : Cursor}

/-- A procedure that only gives a value ends where it stands. The last step of nearly every proof
that a phrase `Ends`. -/
theorem ends_pure (a : α) : Ends (pure a) c (.parsed a c) := rfl

/-- A procedure that gives up ends where it stands, with the diagnostic that `d` makes of the place.
-/
theorem ends_giveUp (d : Cursor → Diagnostic) : Ends (giveUp d : Procedure α) c (.failed (d c) c) :=
  rfl

/-- What is done behind a procedure that ends starts where it ended, if it did not give up. The
outcome is `andThen` of the two, so equations of the parser and binds of the procedure are taken
apart together. -/
theorem Ends.bind {x : Procedure α} {f : α → Procedure β} {o : Outcome α}
    {g : α → Cursor → Outcome β} (h : x.Ends c o)
    (hf : ∀ a k, o = .parsed a k → (f a).Ends k (g a k)) : (x >>= f).Ends c (o.andThen g) := by
  have hx : x.run c = some (left o) := h
  show (x.run c >>= _) = _
  rw [hx]
  cases o with
  | parsed a k => exact hf a k rfl
  | failed d k => rfl

/-- What is done behind a procedure that ends with a value starts where it ended. `Ends.bind` for an
outcome that is known, with no `andThen` left in the conclusion. -/
theorem Ends.bind_parsed {x : Procedure α} {f : α → Procedure β} {a : α} {k : Cursor}
    {o : Outcome β} (h : x.Ends c (.parsed a k)) (hf : (f a).Ends k o) : (x >>= f).Ends c o := by
  have hx : x.run c = some (left (.parsed a k)) := h
  show (x.run c >>= _) = _
  rw [hx]
  exact hf

/-- Looking at the tokens moves nowhere, and what follows is told the place. -/
theorem ends_get {f : Cursor → Procedure α} {o : Outcome α} (h : (f c).Ends c o) :
    (get >>= f).Ends c o := h

/-- Moving on is followed by what ends from the next place. At the end of the text that is the same
place. -/
theorem ends_advance {f : Unit → Procedure α} {o : Outcome α} (h : (f ()).Ends c.next o) :
    (advance >>= f).Ends c o := h

/-- A symbol that is asked for is gone past, or the procedure gives up: `expect` in the procedure
does what `require` does in the parser. What follows may rest on the symbol being there, which
bounds `remaining`. -/
theorem ends_expect {mark : Symbol} {f : Unit → Procedure α} {goOn : Cursor → Outcome α}
    (h : c.peek = some (.symbol mark) → (f ()).Ends c.next (goOn c.next)) :
    (expect mark >>= f).Ends c (c.require mark goOn) := by
  rw [expect, bind_assoc]
  refine ends_get ?_
  unfold Cursor.require
  split
  · rename_i hpeek
    exact ends_advance (h hpeek)
  · rfl

/-- A name that is asked for is gone past, or the procedure gives up, as `requireName` does in the
parser. -/
theorem ends_expectName {f : String → Procedure α} {goOn : String → Cursor → Outcome α}
    (h : ∀ name, c.peek = some (.identifier name) → (f name).Ends c.next (goOn name c.next)) :
    (expectName >>= f).Ends c (c.requireName goOn) := by
  rw [expectName, bind_assoc]
  refine ends_get ?_
  unfold Cursor.requireName
  cases hpeek : c.peek with
  | none => rfl
  | some lexeme =>
      cases lexeme with
      | identifier name => exact h name hpeek
      | _ => rfl

/-- A semicolon is gone past if it is there, so that what follows starts from `pastSemicolon`. -/
theorem ends_skipSemicolon {f : Unit → Procedure α} {o : Outcome α}
    (h : (f ()).Ends c.pastSemicolon o) : (skipSemicolon >>= f).Ends c o := by
  rw [skipSemicolon, bind_assoc]
  refine ends_get ?_
  unfold Cursor.pastSemicolon at h
  split
  · rename_i hpeek
    rw [if_pos hpeek] at h
    exact ends_advance h
  · rename_i hpeek
    rw [if_neg hpeek] at h
    exact h

/-- Behind a value a semicolon is gone past if it is there. The way all three kinds of
statements end, with `f` the constructor of the kind. -/
theorem Ends.closing {x : Procedure α} {o : Outcome α} (h : x.Ends c o) (f : α → β) :
    (x >>= fun a => skipSemicolon >>= fun _ => pure (f a)).Ends c
      (o.andThen fun a k => .parsed (f a) k.pastSemicolon) :=
  h.bind fun _ _ _ => ends_skipSemicolon (ends_pure _)

end Ends

/-! ### Expressions and statements end -/

/-- The loop over further parameters ends as `parseMoreParameters` says. By induction on what
remains: each round goes past a comma and a name. -/
theorem ends_moreParameters (c : Cursor) :
    Phrase.moreParameters.read.Ends c (Expr.parseMoreParameters c) := by
  rw [Phrase.read, Expr.parseMoreParameters_eq]
  refine ends_get ?_
  split
  · rename_i hcomma
    have hpos := Cursor.remaining_of_peek hcomma
    refine ends_advance (ends_expectName fun name _ => ?_)
    exact (ends_moreParameters c.next.next).bind fun names k _ => ends_pure _
  · exact ends_expect fun _ => ends_pure _
termination_by c.remaining
decreasing_by simp only [Cursor.remaining_next]; omega

/-- The procedure for parameters ends as `parseParameters` says: at once, or behind one name with
the loop of `ends_moreParameters`. -/
theorem ends_parameters (c : Cursor) : Phrase.parameters.read.Ends c (Expr.parseParameters c) := by
  rw [Phrase.read, Expr.parseParameters_eq]
  refine ends_get ?_
  split
  · exact ends_advance (ends_pure _)
  · refine ends_expectName fun name _ => ?_
    exact (ends_moreParameters c.next).bind fun names k _ => ends_pure _

mutual

/-- The procedure for an expression ends as `Expr.parse` says. First of a mutual block over the ten
procedures that call each other; the measure puts those that call without moving above those they
call. -/
theorem ends_expression (p : Precedence) (c : Cursor) :
    (Phrase.expression p).read.Ends c (Expr.parse p c) := by
  rw [Phrase.read, Expr.parse_eq]
  refine (ends_operand c).bind fun left k hk => ?_
  -- Here and below, what has been read so far bounds what remains, and the recursion ends.
  have hkle := Expr.remaining_le_of_parseOperand hk
  exact ends_continuations p left k
termination_by 8 * c.remaining + 2

/-- The loop over continuations ends as `parseContinuations` says. Every round goes past an operator
or an opening mark before it calls an expression, so it has less left to read. -/
theorem ends_continuations (p : Precedence) (left : Expr) (c : Cursor) :
    (Phrase.continuations p left).read.Ends c (Expr.parseContinuations p left c) := by
  rw [Phrase.read, Expr.parseContinuations_eq]
  refine ends_get ?_
  cases hkind : c.continuation? with
  | none => exact ends_pure _
  | some kind =>
      have hpos := Cursor.remaining_of_continuation? hkind
      dsimp only
      split
      · refine ends_advance ?_
        cases kind with
        | binary op =>
            refine ends_advance ?_
            refine (ends_expression op.precedence c.next.next).bind fun right k hk => ?_
            have hkle := Expr.remaining_le_of_parse hk
            exact ends_continuations p _ k
        | call =>
            -- The opening parenthesis is the token the list starts on, so nothing more is gone past
            -- here.
            refine (ends_list .rightParen c.next).bind fun arguments k hk => ?_
            have hkle := Expr.remaining_le_of_parseList hk
            exact ends_continuations p _ k
        | index =>
            refine ends_advance ?_
            refine (ends_expression .lowest c.next.next).bind fun position k hk => ?_
            have hkle := Expr.remaining_le_of_parse hk
            exact ends_expect fun _ => ends_continuations p _ k.next
      · exact ends_pure _
termination_by 8 * c.remaining + 1
decreasing_by all_goals (try simp only [Cursor.remaining_next] at *); omega

/-- The procedure for an operand ends as `parseOperand` says, by the lexeme it starts with. Lists,
pairs and blocks start on their opening mark here and behind it in the parser. -/
theorem ends_operand (c : Cursor) : Phrase.operand.read.Ends c (Expr.parseOperand c) := by
  rw [Phrase.read, Expr.parseOperand_eq]
  refine ends_get ?_
  cases hc : c.current with
  | none => exact ends_giveUp _
  | some t =>
      have hpos := Cursor.remaining_of_current hc
      cases t with
      | illegal text => exact ends_giveUp _
      | identifier name => exact ends_pure _
      | integer digits =>
          dsimp only
          cases Numeral.read? digits with
          | some value => exact ends_pure _
          | none => exact ends_giveUp _
      | string content => exact ends_pure _
      | keyword word =>
          cases word with
          | trueKw => exact ends_pure _
          | falseKw => exact ends_pure _
          | ifKw =>
              refine ends_expect fun _ => ends_advance ?_
              -- Each part starts where the one before it ended, with no more left to read than that
              -- one had.
              refine (ends_expression .lowest c.next.next).bind fun condition k hk => ?_
              have hkle := Expr.remaining_le_of_parse hk
              refine ends_expect fun _ => ends_expect fun _ => ?_
              refine (ends_block k.next.next).bind fun consequence m hm => ?_
              have hmle := Block.remaining_le_of_parse hm
              exact (ends_alternative m).bind fun other n _ => ends_pure _
          | fnKw =>
              refine ends_expect fun _ => ?_
              refine (ends_parameters c.next).bind fun names k hk => ?_
              have hkle := Expr.remaining_le_of_parseParameters hk
              refine ends_expect fun _ => ?_
              exact (ends_block k.next).bind fun body m _ => ends_pure _
          | _ => exact ends_giveUp _
      | symbol mark =>
          cases mark with
          | bang =>
              exact ends_advance ((ends_expression .unary c.next).bind fun e k _ => ends_pure _)
          | minus =>
              exact ends_advance ((ends_expression .unary c.next).bind fun e k _ => ends_pure _)
          | leftParen =>
              refine ends_advance ((ends_expression .lowest c.next).bind fun e k _ => ?_)
              exact ends_expect fun _ => ends_pure _
          | leftBracket => exact (ends_list .rightBracket c).bind fun es k _ => ends_pure _
          | leftBrace => exact (ends_pairs c).bind fun ps k _ => ends_pure _
          | _ => exact ends_giveUp _
termination_by 8 * c.remaining + 1
decreasing_by all_goals (try simp only [Cursor.remaining_next] at *); omega

/-- The procedure for a second branch ends as `parseAlternative` says: without moving if there is no
`else`, and else behind a block. -/
theorem ends_alternative (c : Cursor) :
    Phrase.alternative.read.Ends c (Block.parseAlternative c) := by
  rw [Phrase.read, Block.parseAlternative_eq]
  refine ends_get ?_
  split
  · rename_i helse
    have hpos := Cursor.remaining_of_peek helse
    refine ends_advance (ends_expect fun _ => ?_)
    exact (ends_block c.next.next).bind fun other m _ => ends_pure _
  · exact ends_pure _
termination_by 8 * c.remaining
decreasing_by simp only [Cursor.remaining_next]; omega

/-- The procedure for a list starts on the opening mark and ends as `parseList` does from the next
place. -/
theorem ends_list (close : Symbol) (c : Cursor) :
    (Phrase.list close).read.Ends c (Expr.parseList close c.next) := by
  rw [Phrase.read, Expr.parseList_eq, Cursor.current_next]
  refine ends_get ?_
  split
  · exact ends_advance (ends_pure _)
  · refine ends_advance ((ends_expression .lowest c.next).bind fun e k hk => ?_)
    have hkle := Expr.remaining_le_of_parse hk
    exact (ends_moreItems close k).bind fun es m _ => ends_pure _
-- A list stands in front of its first expression, so that the tokens behind it are counted.
termination_by 8 * c.next.remaining + 3
decreasing_by all_goals (try simp only [Cursor.remaining_next] at *); omega

/-- The loop over further expressions ends as `parseMoreItems` says. It goes past a comma in every
round and gives up if neither a comma nor `close` is ahead. -/
theorem ends_moreItems (close : Symbol) (c : Cursor) :
    (Phrase.moreItems close).read.Ends c (Expr.parseMoreItems close c) := by
  rw [Phrase.read, Expr.parseMoreItems_eq]
  refine ends_get ?_
  split
  · rename_i hcomma
    have hpos := Cursor.remaining_of_peek hcomma
    refine ends_advance (ends_advance ?_)
    refine (ends_expression .lowest c.next.next).bind fun e k hk => ?_
    have hkle := Expr.remaining_le_of_parse hk
    exact (ends_moreItems close k).bind fun es m _ => ends_pure _
  · exact ends_expect fun _ => ends_pure _
termination_by 8 * c.remaining
decreasing_by all_goals (try simp only [Cursor.remaining_next] at *); omega

/-- The loop over pairs starts on the opening brace and ends as `parsePairs` does from the next
place. It looks for the closing brace twice a round, in front of a pair and behind it, where the
parser compares once. -/
theorem ends_pairs (c : Cursor) : Phrase.pairs.read.Ends c (Expr.parsePairs c.next) := by
  rw [Phrase.read, Expr.parsePairs_eq, Cursor.current_next]
  refine ends_get ?_
  split
  · exact ends_advance (ends_pure _)
  · refine ends_advance ((ends_expression .lowest c.next).bind fun key k hk => ?_)
    have hkle := Expr.remaining_le_of_parse hk
    refine ends_expect fun hcolon => ends_advance ?_
    have hpos := Cursor.remaining_of_peek hcolon
    refine (ends_expression .lowest k.next.next).bind fun value m hm => ends_get ?_
    have hmle := Expr.remaining_le_of_parse hm
    split
    · -- The loop comes to its end with the closing brace ahead.
      rename_i hbrace
      have hrest := ends_pairs m
      rw [Expr.parsePairs_eq, if_pos (by rw [Cursor.current_next, hbrace])] at hrest
      exact hrest.bind fun rest n _ => ends_pure _
    · refine ends_expect fun _ => ?_
      exact (ends_pairs m.next).bind fun rest n _ => ends_pure _
termination_by 8 * c.next.remaining + 3
decreasing_by all_goals (try simp only [Cursor.remaining_next] at *); omega

/-- The procedure for a block starts on its opening brace and ends as `Block.parse` does from the
next place. -/
theorem ends_block (c : Cursor) : Phrase.block.read.Ends c (Block.parse c.next) := by
  rw [Phrase.read]
  exact ends_advance (ends_statements c.next)
termination_by 8 * c.next.remaining + 5

/-- The loop over the statements of a block ends as `Block.parse` says. A statement may end where it
starts, so the token gone past behind it is what makes the rounds fewer. -/
theorem ends_statements (c : Cursor) : Phrase.statements.read.Ends c (Block.parse c) := by
  rw [Phrase.read, Block.parse_eq]
  refine ends_get ?_
  cases hcurrent : c.current with
  | none => exact ends_giveUp _
  | some lexeme =>
      have hpos := Cursor.remaining_of_current hcurrent
      dsimp only
      split
      · exact ends_pure _
      -- The procedure moves past the statement it read, and the parser calls itself one token
      -- further.
      · refine (ends_statement c).bind fun s k hk => ends_advance ?_
        have hkle := Statement.remaining_le_of_parse hk
        exact (ends_statements k.next).bind fun rest m _ => ends_pure _
termination_by 8 * c.remaining + 4
decreasing_by all_goals (try simp only [Cursor.remaining_next] at *); omega

/-- The procedure for a statement ends as `Statement.parse` says, by the reserved word it starts
with or as an expression. -/
theorem ends_statement (c : Cursor) : Phrase.statement.read.Ends c (Statement.parse c) := by
  rw [Phrase.read, Statement.parse_eq]
  refine ends_get ?_
  cases hcurrent : c.current with
  | none => exact (ends_expression .lowest c).closing Statement.expression
  | some t =>
      have hpos := Cursor.remaining_of_current hcurrent
      cases t with
      | keyword word =>
          cases word with
          | letKw =>
              refine ends_expectName fun name _ => ?_
              refine ends_expect fun _ => ends_advance ?_
              exact (ends_expression .lowest c.next.next.next).closing (Statement.binding name)
          | returnKw =>
              exact ends_advance ((ends_expression .lowest c.next).closing Statement.returning)
          | _ => exact (ends_expression .lowest c).closing Statement.expression
      | _ => exact (ends_expression .lowest c).closing Statement.expression
termination_by 8 * c.remaining + 3
decreasing_by all_goals (try simp only [Cursor.remaining_next] at *); omega

end

/-! ### Whole texts end -/

/-- The loop that gives up the rest of a malformed statement ends where `recover` does. By induction
on what remains, along `recover_of_some`. -/
theorem ends_remnant (c : Cursor) : Phrase.remnant.read.Ends c (.parsed () c.recover) := by
  rw [Phrase.read]
  refine ends_get ?_
  cases hc : c.current with
  | none =>
      rw [Cursor.recover_of_none hc]
      exact ends_pure ()
  | some lexeme =>
      have hpos := Cursor.remaining_of_current hc
      rw [Cursor.recover_of_some hc]
      dsimp only
      split
      · exact ends_pure ()
      · split
        -- `ends_skipSemicolon` is about what comes behind it, and here nothing does.
        · have hskip : (skipSemicolon >>= pure).Ends c (.parsed () c.pastSemicolon) :=
            ends_skipSemicolon (ends_pure ())
          rw [bind_pure] at hskip
          exact hskip
        · exact ends_advance (ends_remnant c.next)
termination_by c.remaining
decreasing_by rw [Cursor.remaining_next]; omega

section Attempt

variable {α : Type} {x : Procedure α} {c k : Cursor}

/-- An attempt at what ends with a value ends with that value, and at the same place. -/
theorem ends_attempt_of_parsed {a : α} (h : x.Ends c (.parsed a k)) :
    (attempt x).Ends c (.parsed (.ok a) k) := by
  have hx : x.run c = some (.ok a, k) := h
  show (x.run c >>= _) = _
  rw [hx]
  rfl

/-- What has given up goes on with its diagnostic: the attempt ends with it as a value, at the
place where it was given up. -/
theorem ends_attempt_of_failed {d : Diagnostic} (h : x.Ends c (.failed d k)) :
    (attempt x).Ends c (.parsed (.error d) k) := by
  have hx : x.run c = some (.error d, k) := h
  show (x.run c >>= _) = _
  rw [hx]
  rfl

end Attempt

section Round

variable {c k : Cursor}

/-- A round ends with its statement, on the last token of it. The place it started from is kept in
the entry. -/
theorem ends_entry_of_parsed {s : Statement} (h : Statement.parse c = .parsed s k) :
    Phrase.statement.entry.Ends c (.parsed (.wellFormed s c k) k) := by
  have hstatement : Phrase.statement.read.Ends c (.parsed s k) := by
    rw [← h]
    exact ends_statement c
  rw [Phrase.entry]
  refine ends_get ((ends_attempt_of_parsed hstatement).bind_parsed ?_)
  exact ends_get (ends_pure _)

/-- A round with a malformed statement ends with the last token that is given up, which is where
`recover` ends. -/
theorem ends_entry_of_failed {d : Diagnostic} (h : Statement.parse c = .failed d k) :
    Phrase.statement.entry.Ends c (.parsed (.malformed d c k) k.recover) := by
  have hstatement : Phrase.statement.read.Ends c (.failed d k) := by
    rw [← h]
    exact ends_statement c
  rw [Phrase.entry]
  refine ends_get ((ends_attempt_of_failed hstatement).bind_parsed ?_)
  exact ends_get ((ends_remnant k).bind_parsed (ends_pure _))

end Round

/-- The loop over a text ends with the survey of it. By induction on what remains: each round leaves
a token behind, by `IsRead.remaining_resume_lt`. -/
theorem ends_program (c : Cursor) :
    program.Ends c (.parsed (Survey.ofCursor c).entries (Survey.ofCursor c).stop) := by
  rw [program, Phrase.entries]
  refine ends_get ?_
  cases hc : c.current with
  | none =>
      rw [Survey.ofCursor_of_none hc]
      exact ends_pure []
  | some t =>
      have hstart : c.current ≠ none := by
        rw [hc]
        exact Option.some_ne_none t
      rw [Survey.ofCursor_of_some hc]
      cases h : Statement.parse c with
      | parsed s k =>
          have hread : (Entry.wellFormed s c k).IsRead := h
          have hlt : k.next.remaining < c.remaining := hread.remaining_resume_lt hstart
          refine (ends_entry_of_parsed h).bind_parsed (ends_advance ?_)
          exact (ends_program k.next).bind_parsed (ends_pure _)
      | failed d k =>
          have hread : (Entry.malformed d c k).IsRead := h
          have hlt : k.recover.next.remaining < c.remaining := hread.remaining_resume_lt hstart
          -- Behind a malformed statement the loop goes on as it does behind any other.
          refine (ends_entry_of_failed h).bind_parsed (ends_advance ?_)
          exact (ends_program k.recover.next).bind_parsed (ends_pure _)
termination_by c.remaining
decreasing_by all_goals assumption

/-- Parsing ends, with no bound on its rounds put in from outside: the procedures are loops without
fuel, and `Ends` says that they come to their end.

From every place and at every strength, the procedure that reads an expression ends, and no earlier
than it started. From the first token of any stream, the procedure that reads a whole text ends, at
the end of the text. It goes in rounds, each of which starts on a token and leaves at least that one
behind. Each round gives a statement or a diagnostic, so that there are no more of both than tokens.
-/
theorem parsing_ends :
    (∀ p c, (Phrase.expression p).read.Ends c (Expr.parse p c) ∧ c.Reaches (Expr.parse p c).place) ∧
    ∀ s : TokenStream,
      let survey := Survey.ofCursor (Cursor.start s)
      program.Ends (Cursor.start s) (.parsed survey.entries survey.stop) ∧
      survey.stop.current = none ∧
      survey.statements.length + survey.diagnostics.length ≤ s.tokens.length ∧
      Rounds (Cursor.start s) survey.entries survey.stop ∧
      ∀ e ∈ survey.entries, e.start.Reaches e.resume ∧
        e.resume.remaining < e.start.remaining := by
  constructor
  · intro p c
    exact ⟨ends_expression p c, Expr.reaches_parse p c⟩
  · intro s survey
    have hrounds : Rounds (Cursor.start s) survey.entries survey.stop := Survey.rounds_ofCursor _
    have hlength : survey.statements.length + survey.diagnostics.length ≤ s.tokens.length := by
      rw [Survey.length_statements_add_diagnostics]
      exact hrounds.length_le
    exact ⟨ends_program _, hrounds.current_stop, hlength, hrounds, hrounds.moves⟩

/-- A text that is cut short inside a call, a hash literal, a list and a parameter list is read in
one round, and `parsing_ends` has its loops end all the same. -/
theorem parsing_ends_of_truncated :
    let s := tokenize "f(\x7b1: [2, fn(x,"
    ∃ entries stop, program.Ends (Cursor.start s) (.parsed entries stop) ∧ stop.current = none ∧
      Rounds (Cursor.start s) entries stop ∧ entries.length = 1 ∧
      ∀ e ∈ entries, e.resume.remaining < e.start.remaining := by
  intro s
  obtain ⟨hends, hstop, -, hrounds, hmoves⟩ := parsing_ends.2 s
  have hlength : (Survey.ofCursor (Cursor.start s)).entries.length = 1 := by
    subst s
    decide +kernel
  exact ⟨_, _, hends, hstop, hrounds, hlength, fun e he => (hmoves e he).2⟩

end Procedure

end Monkey
