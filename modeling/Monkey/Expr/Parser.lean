import Monkey.Cursor
import Monkey.Expr.Precedence
import Monkey.Numeral

/-!
# `Monkey.Expr.Parser`: reading trees from tokens

An expression is an operand and what continues it. The operand is read
first; then, as long as the token ahead starts a continuation that binds
tighter than the strength asked for, the continuation takes in what has
been read so far. A binary operator reads its right operand at its own
strength, so that a second operator of that strength is left to the
outer reading and operators of one strength group to the left.

Every parse starts with its first token as the current one and ends with
its last token as the current one; the parts of a list, a hash literal or
a block start behind the token that opens or separates them, and end on
the token that closes them.

* `Expr.parse` reads an expression at a strength, `Statement.parse` one
  statement.
* Both come from one family of mutually recursive parsers. Each of those
  calls the others later in the stream, or at the same place in a fixed
  order of kinds, which is why reading ends.
-/

set_option autoImplicit false

namespace Monkey

/-- The continuation that the lexeme ahead starts, if it starts one. -/
def Cursor.continuation? (c : Cursor) : Option Continuation := c.peek.bind Continuation.ofLexeme?

/-- Where `continuation?` finds a continuation ahead there are two tokens left, by
`remaining_of_peek`. The bound with which `Expr.parseContinuations` moves past an operator, a
parenthesis or a bracket. -/
theorem Cursor.remaining_of_continuation? {c : Cursor} {kind : Continuation}
    (h : c.continuation? = some kind) : 1 < c.remaining := by
  obtain ⟨lexeme, hpeek, _⟩ := Option.bind_eq_some_iff.1 h
  exact Cursor.remaining_of_peek hpeek

namespace Parse

/-- The further parameters of a function and the parenthesis that closes them, the current token
being a parameter. -/
def moreParameters (c : Cursor) : Parse c (List String) :=
  if h : c.peek = some (.symbol .comma) then
    have := Cursor.remaining_of_peek h
    .onward <| c.next.expectName fun name _ =>
      (moreParameters c.next.next).andThen fun names _ _ => .done (name :: names)
  else c.expect .rightParen fun _ => .done []
termination_by c.remaining
decreasing_by simp only [Cursor.remaining_next]; omega

/-- The parameters of a function, the current token being the opening parenthesis. -/
def parameters (c : Cursor) : Parse c (List String) :=
  if c.peek = some (.symbol .rightParen) then .onward (.done [])
  else c.expectName fun name _ =>
    (moreParameters c.next).andThen fun names _ _ => .done (name :: names)

mutual

/-- An expression at a strength. -/
def expression (p : Precedence) (c : Cursor) : Parse c Expr :=
  (operand c).andThen fun left k _ => continuations p left k
termination_by 8 * c.remaining + 2

/-- What continues an expression at a strength, the current token being its last so far. -/
def continuations (p : Precedence) (left : Expr) (c : Cursor) : Parse c Expr :=
  match h : c.continuation? with
  | none => .done left
  | some kind =>
    have := Cursor.remaining_of_continuation? h
    if p < kind.precedence then
      match kind with
      | .binary op =>
        .onward <| .onward <|
          (expression op.precedence c.next.next).andThen fun right k _ =>
            continuations p (.binary op left right) k
      | .call =>
        .onward <| .onward <|
          (list .rightParen c.next.next).andThen fun arguments k _ =>
            continuations p (.call left arguments) k
      | .index =>
        .onward <| .onward <|
          (expression .lowest c.next.next).andThen fun position k _ =>
            k.expect .rightBracket fun _ =>
              continuations p (.index left position) k.next
    else .done left
termination_by 8 * c.remaining + 1
decreasing_by all_goals (try simp only [Cursor.remaining_next] at *); omega

/-- An operand: all of an expression that starts it and needs no continuation. -/
def operand (c : Cursor) : Parse c Expr :=
  match h : c.current with
  | none => .fail ⟨.expression, c.here⟩
  | some lexeme =>
    have := Cursor.remaining_of_current h
    match lexeme with
    | .identifier name => .done (.identifier name)
    | .integer digits =>
      match Numeral.read? digits with
      | some value => .done (.integer value)
      | none => .fail ⟨.integer, c.here⟩
    | .string content => .done (.string content)
    | .keyword .trueKw => .done (.boolean true)
    | .keyword .falseKw => .done (.boolean false)
    | .symbol .bang =>
      .onward <| (expression .unary c.next).andThen fun e _ _ => .done (.unary .not e)
    | .symbol .minus =>
      .onward <| (expression .unary c.next).andThen fun e _ _ => .done (.unary .negate e)
    | .symbol .leftParen =>
      .onward <| (expression .lowest c.next).andThen fun e k _ =>
        k.expect .rightParen fun _ => .done e
    | .symbol .leftBracket =>
      .onward <| (list .rightBracket c.next).andThen fun elements _ _ =>
        .done (.array elements)
    | .symbol .leftBrace =>
      .onward <| (pairs c.next).andThen fun entries _ _ => .done (.hash entries)
    | .keyword .ifKw =>
      c.expect .leftParen fun _ =>
        .onward <| (expression .lowest c.next.next).andThen fun condition k _ =>
          k.expect .rightParen fun _ =>
            k.next.expect .leftBrace fun _ =>
              .onward <| (block k.next.next.next).andThen fun consequence m _ =>
                (alternative m).andThen fun other _ _ =>
                  .done (.conditional condition consequence other)
    | .keyword .fnKw =>
      c.expect .leftParen fun _ =>
        (parameters c.next).andThen fun names k _ =>
          k.expect .leftBrace fun _ =>
            .onward <| (block k.next.next).andThen fun body _ _ =>
              .done (.function names body)
    | _ => .fail ⟨.expression, c.here⟩
termination_by 8 * c.remaining + 1
decreasing_by all_goals (try simp only [Cursor.remaining_next] at *); omega

/-- The alternative of a conditional, if the token ahead starts one. -/
def alternative (c : Cursor) : Parse c (Option Block) :=
  if h : c.peek = some (.keyword .elseKw) then
    have := Cursor.remaining_of_peek h
    .onward <| c.next.expect .leftBrace fun _ =>
      .onward <| (block c.next.next.next).andThen fun other _ _ => .done (some other)
  else .done none
termination_by 8 * c.remaining
decreasing_by simp only [Cursor.remaining_next]; omega

/-- A list of expressions up to its closing symbol, the current token being behind the one that
opens it. -/
def list (close : Symbol) (c : Cursor) : Parse c (List Expr) :=
  if c.current = some (.symbol close) then .done []
  else (expression .lowest c).andThen fun e k _ =>
    (moreItems close k).andThen fun es _ _ => .done (e :: es)
termination_by 8 * c.remaining + 3
decreasing_by all_goals omega

/-- The further expressions of a list and its closing symbol, the current token being the last of
an expression. -/
def moreItems (close : Symbol) (c : Cursor) : Parse c (List Expr) :=
  if h : c.peek = some (.symbol .comma) then
    have := Cursor.remaining_of_peek h
    .onward <| .onward <| (expression .lowest c.next.next).andThen fun e k _ =>
      (moreItems close k).andThen fun es _ _ => .done (e :: es)
  else c.expect close fun _ => .done []
termination_by 8 * c.remaining
decreasing_by all_goals (try simp only [Cursor.remaining_next] at *); omega

/-- The pairs of a hash literal up to its closing brace, the current token being behind the brace
that opens it or behind a comma. -/
def pairs (c : Cursor) : Parse c (List (Expr × Expr)) :=
  if c.current = some (.symbol .rightBrace) then .done []
  else (expression .lowest c).andThen fun key k _ =>
    k.expect .colon fun _ =>
      .onward <| (expression .lowest k.next.next).andThen fun value m _ =>
        if m.peek = some (.symbol .rightBrace) then .onward (.done [(key, value)])
        else m.expect .comma fun _ =>
          .onward <| (pairs m.next.next).andThen fun rest _ _ =>
            .done ((key, value) :: rest)
termination_by 8 * c.remaining + 3
decreasing_by all_goals (try simp only [Cursor.remaining_next] at *); omega

/-- The statements of a block up to its closing brace, the current token being behind the brace
that opens it or behind a statement. -/
def block (c : Cursor) : Parse c Block :=
  match h : c.current with
  | none => .fail ⟨.symbol .rightBrace, c.here⟩
  | some lexeme =>
    have := Cursor.remaining_of_current h
    if lexeme = .symbol .rightBrace then .done []
    else (statement c).andThen fun s k _ =>
      .onward <| (block k.next).andThen fun rest _ _ => .done (s :: rest)
termination_by 8 * c.remaining + 4
decreasing_by all_goals (try simp only [Cursor.remaining_next] at *); omega

/-- A statement, with the semicolon that closes it if there is one. -/
def statement (c : Cursor) : Parse c Statement :=
  match c.current with
  | some (.keyword .letKw) =>
    c.expectName fun name _ =>
      c.next.expect .assign fun _ =>
        .onward <| (expression .lowest c.next.next.next).andThen fun value k _ =>
          k.closing (.binding name value)
  | some (.keyword .returnKw) =>
    .onward <| (expression .lowest c.next).andThen fun value k _ => k.closing (.returning value)
  | _ => (expression .lowest c).andThen fun value k _ => k.closing (.expression value)
termination_by 8 * c.remaining + 3
decreasing_by all_goals (try simp only [Cursor.remaining_next] at *); omega

end

end Parse

/-- Reads an expression at a strength. -/
def Expr.parse (p : Precedence) (c : Cursor) : Outcome Expr := (Parse.expression p c).val

/-- Reads one statement. -/
def Statement.parse (c : Cursor) : Outcome Statement := (Parse.statement c).val

end Monkey
