import Monkey.Expr.Parser

/-!
# `Monkey.Expr.Parser.Equations`: the parsers as functions on places

The parsers of `Monkey.Expr.Parser` return the reason why they end no
earlier than they start, which their own recursion needs and nobody else.
Here each has a form without it, a function from a place to an outcome,
and an equation that says what it does in terms of the others. Whoever
reasons about parsing starts from these equations, and inducts on
`Cursor.remaining`.
-/

set_option autoImplicit false

namespace Monkey

/-! ### Forms without reasons -/

/-- What continues an expression at a strength. -/
def Expr.parseContinuations (p : Precedence) (left : Expr) (c : Cursor) : Outcome Expr :=
  (Parse.continuations p left c).val

/-- An operand. -/
def Expr.parseOperand (c : Cursor) : Outcome Expr := (Parse.operand c).val

/-- A list of expressions up to its closing symbol. -/
def Expr.parseList (close : Symbol) (c : Cursor) : Outcome (List Expr) := (Parse.list close c).val

/-- The further expressions of a list and its closing symbol. -/
def Expr.parseMoreItems (close : Symbol) (c : Cursor) : Outcome (List Expr) :=
  (Parse.moreItems close c).val

/-- The pairs of a hash literal up to its closing brace. -/
def Expr.parsePairs (c : Cursor) : Outcome (List (Expr × Expr)) := (Parse.pairs c).val

/-- The statements of a block up to its closing brace. -/
def Block.parse (c : Cursor) : Outcome Block := (Parse.block c).val

/-- The alternative of a conditional, if there is one. -/
def Block.parseAlternative (c : Cursor) : Outcome (Option Block) := (Parse.alternative c).val

/-- The parameters of a function. -/
def Expr.parseParameters (c : Cursor) : Outcome (List String) := (Parse.parameters c).val

/-- The further parameters of a function. -/
def Expr.parseMoreParameters (c : Cursor) : Outcome (List String) := (Parse.moreParameters c).val

/-! ### Equations -/

/-- An expression is an operand and what continues it. The strength `p` asked for plays no part in
the operand and is handed on to `parseContinuations`. -/
theorem Expr.parse_eq (p : Precedence) (c : Cursor) :
    Expr.parse p c =
      (Expr.parseOperand c).andThen fun left k => Expr.parseContinuations p left k := by
  unfold Expr.parse
  rw [Parse.expression]
  exact Parse.val_andThen _ _

/-- What continues an expression is the continuation ahead, if it binds tighter than the strength
asked for, and then what continues the larger expression. Each of the three kinds ends in a call of
`parseContinuations` on that larger expression, so inductions over `remaining` go through here. -/
theorem Expr.parseContinuations_eq (p : Precedence) (left : Expr) (c : Cursor) :
    Expr.parseContinuations p left c =
      match c.continuation? with
      | none => .parsed left c
      | some kind =>
        if p < kind.precedence then
          match kind with
          | .binary op =>
            (Expr.parse op.precedence c.next.next).andThen fun right k =>
              Expr.parseContinuations p (.binary op left right) k
          | .call =>
            (Expr.parseList .rightParen c.next.next).andThen fun arguments k =>
              Expr.parseContinuations p (.call left arguments) k
          | .index =>
            (Expr.parse .lowest c.next.next).andThen fun position k =>
              k.require .rightBracket fun m =>
                Expr.parseContinuations p (.index left position) m
        else .parsed left c := by
  unfold Expr.parseContinuations
  -- The procedures carry a bound on what remains; `val` forgets it, branch by branch.
  rw [Parse.continuations]
  split
  · rename_i h
    simp [h]
  · rename_i kind h
    simp only [h]
    split
    · cases kind with
      | binary op => simp only [Parse.val_onward, Parse.val_andThen]; rfl
      | call => simp only [Parse.val_onward, Parse.val_andThen]; rfl
      | index => simp only [Parse.val_onward, Parse.val_andThen, Cursor.val_expect]; rfl
    · rfl

/-- An operand is settled by the lexeme it starts with, one branch for each lexeme that can start
one and a diagnostic `expression` for all others. Digits that are no 64-bit number get a diagnostic
of their own. -/
theorem Expr.parseOperand_eq (c : Cursor) :
    Expr.parseOperand c =
      match c.current with
      | some (.identifier name) => .parsed (.identifier name) c
      | some (.integer digits) =>
        match Numeral.read? digits with
        | some value => .parsed (.integer value) c
        | none => .failed ⟨.integer, c.here⟩ c
      | some (.string content) => .parsed (.string content) c
      | some (.keyword .trueKw) => .parsed (.boolean true) c
      | some (.keyword .falseKw) => .parsed (.boolean false) c
      | some (.symbol .bang) =>
        (Expr.parse .unary c.next).andThen fun e k => .parsed (.unary .not e) k
      | some (.symbol .minus) =>
        (Expr.parse .unary c.next).andThen fun e k => .parsed (.unary .negate e) k
      | some (.symbol .leftParen) =>
        (Expr.parse .lowest c.next).andThen fun e k => k.require .rightParen fun m => .parsed e m
      | some (.symbol .leftBracket) =>
        (Expr.parseList .rightBracket c.next).andThen fun es k => .parsed (.array es) k
      | some (.symbol .leftBrace) =>
        (Expr.parsePairs c.next).andThen fun ps k => .parsed (.hash ps) k
      | some (.keyword .ifKw) =>
        c.require .leftParen fun c₁ =>
          (Expr.parse .lowest c₁.next).andThen fun condition k =>
            k.require .rightParen fun k₁ =>
              k₁.require .leftBrace fun k₂ =>
                (Block.parse k₂.next).andThen fun consequence m =>
                  (Block.parseAlternative m).andThen fun alternative n =>
                    .parsed (.conditional condition consequence alternative) n
      | some (.keyword .fnKw) =>
        c.require .leftParen fun c₁ =>
          (Expr.parseParameters c₁).andThen fun parameters k =>
            k.require .leftBrace fun k₁ =>
              (Block.parse k₁.next).andThen fun body m => .parsed (.function parameters body) m
      | _ => .failed ⟨.expression, c.here⟩ c := by
  unfold Expr.parseOperand
  rw [Parse.operand]
  split
  · rename_i h
    simp only [h]
    rfl
  · rename_i lexeme h
    simp only [h]
    -- One branch for each lexeme; those that only give a literal are equal by computation.
    cases lexeme with
    | illegal text => rfl
    | identifier name => rfl
    | integer digits =>
      dsimp only
      cases Numeral.read? digits <;> rfl
    | string content => rfl
    | keyword word =>
      cases word with
      | fnKw => simp; rfl
      | ifKw => simp; rfl
      | _ => rfl
    | symbol mark =>
      cases mark with
      | bang => simp; rfl
      | minus => simp; rfl
      | leftParen => simp; rfl
      | leftBracket => simp; rfl
      | leftBrace => simp; rfl
      | _ => rfl

/-- The alternative is a block behind its reserved word. Without `else` ahead there is none and the
place stays; behind `else` an opening brace is required. -/
theorem Block.parseAlternative_eq (c : Cursor) :
    Block.parseAlternative c =
      if c.peek = some (.keyword .elseKw) then
        c.next.require .leftBrace fun k =>
          (Block.parse k.next).andThen fun block m => .parsed (some block) m
      else .parsed none c := by
  unfold Block.parseAlternative
  rw [Parse.alternative]
  split
  · simp; rfl
  · rfl

/-- A list is closed at once or has an expression and further ones. The mark `close` tells the
arguments of a call from the elements of an array; nothing else does. -/
theorem Expr.parseList_eq (close : Symbol) (c : Cursor) :
    Expr.parseList close c =
      if c.current = some (.symbol close) then .parsed [] c
      else
        (Expr.parse .lowest c).andThen fun e k =>
          (Expr.parseMoreItems close k).andThen fun es m => .parsed (e :: es) m := by
  unfold Expr.parseList
  rw [Parse.list]
  split
  · rfl
  · simp; rfl

/-- A further expression stands behind a comma; without one the list is closed. A comma must be
followed by an expression, so a list never ends in one. -/
theorem Expr.parseMoreItems_eq (close : Symbol) (c : Cursor) :
    Expr.parseMoreItems close c =
      if c.peek = some (.symbol .comma) then
        (Expr.parse .lowest c.next.next).andThen fun e k =>
          (Expr.parseMoreItems close k).andThen fun es m => .parsed (e :: es) m
      else c.require close fun k => .parsed [] k := by
  unfold Expr.parseMoreItems
  rw [Parse.moreItems]
  split
  · simp; rfl
  · exact Cursor.val_expect _ _ _

/-- Pairs are closed at once or have a key, a colon, a value, and either the closing brace or a
comma and further pairs. Behind that comma `parsePairs` starts anew, so a hash literal may end in
one, which no list may. -/
theorem Expr.parsePairs_eq (c : Cursor) :
    Expr.parsePairs c =
      if c.current = some (.symbol .rightBrace) then .parsed [] c
      else
        (Expr.parse .lowest c).andThen fun key k =>
          k.require .colon fun k₁ =>
            (Expr.parse .lowest k₁.next).andThen fun value m =>
              if m.peek = some (.symbol .rightBrace) then .parsed [(key, value)] m.next
              else
                m.require .comma fun m₁ =>
                  (Expr.parsePairs m₁.next).andThen fun rest n =>
                    .parsed ((key, value) :: rest) n := by
  unfold Expr.parsePairs
  rw [Parse.pairs]
  split
  · rfl
  · simp [apply_ite Subtype.val]; rfl

/-- A block is closed at once or has a statement and further ones. The end of the text in front of
the closing brace is a diagnostic at the place where the brace is missing. -/
theorem Block.parse_eq (c : Cursor) :
    Block.parse c =
      match c.current with
      | none => .failed ⟨.symbol .rightBrace, c.here⟩ c
      | some lexeme =>
        if lexeme = .symbol .rightBrace then .parsed [] c
        else
          (Statement.parse c).andThen fun s k =>
            (Block.parse k.next).andThen fun rest m => .parsed (s :: rest) m := by
  unfold Block.parse
  rw [Parse.block]
  split
  · rename_i h
    simp [h]
  · rename_i lexeme h
    simp only [h]
    split
    · rfl
    · simp; rfl

/-- A statement is settled by the lexeme it starts with: `let`, `return`, or an expression for
everything else. All three end in `pastSemicolon`. -/
theorem Statement.parse_eq (c : Cursor) :
    Statement.parse c =
      match c.current with
      | some (.keyword .letKw) =>
        c.requireName fun name c₁ =>
          c₁.require .assign fun c₂ =>
            (Expr.parse .lowest c₂.next).andThen fun value k =>
              .parsed (.binding name value) k.pastSemicolon
      | some (.keyword .returnKw) =>
        (Expr.parse .lowest c.next).andThen fun value k =>
          .parsed (.returning value) k.pastSemicolon
      | _ =>
        (Expr.parse .lowest c).andThen fun value k =>
          .parsed (.expression value) k.pastSemicolon := by
  unfold Statement.parse
  rw [Parse.statement]
  cases c.current with
  | none => simp; rfl
  | some lexeme =>
    -- Only the two reserved words of statements lead elsewhere than to an expression.
    cases lexeme with
    | keyword word => cases word <;> simp <;> rfl
    | _ => simp; rfl

/-- The parameters of a function are closed at once or have a name and further ones. Only an
identifier may stand for a parameter, which `requireName` checks. -/
theorem Expr.parseParameters_eq (c : Cursor) :
    Expr.parseParameters c =
      if c.peek = some (.symbol .rightParen) then .parsed [] c.next
      else
        c.requireName fun name k =>
          (Expr.parseMoreParameters k).andThen fun names m => .parsed (name :: names) m := by
  unfold Expr.parseParameters Parse.parameters
  split
  · rfl
  · simp; rfl

/-- A further parameter stands behind a comma; without one the parameters are closed by the
parenthesis `require` asks for. As in `parseMoreItems` no comma may end them. -/
theorem Expr.parseMoreParameters_eq (c : Cursor) :
    Expr.parseMoreParameters c =
      if c.peek = some (.symbol .comma) then
        c.next.requireName fun name k =>
          (Expr.parseMoreParameters k).andThen fun names m => .parsed (name :: names) m
      else c.require .rightParen fun k => .parsed [] k := by
  unfold Expr.parseMoreParameters
  rw [Parse.moreParameters]
  split
  · simp; rfl
  · exact Cursor.val_expect _ _ _

end Monkey
