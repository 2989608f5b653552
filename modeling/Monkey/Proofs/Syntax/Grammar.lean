import Monkey.Expr.Precedence
import Monkey.Numeral

/-!
# `Monkey.Proofs.Syntax.Grammar`: which lexemes write which tree

The grammar of the language as relations between lexemes and trees, said
without any parser. `Expr.Written p ts e` says that the lexemes `ts` are a
way to write the expression `e`, and that this way binds as tightly as
`p`: a binary operator as tightly as its own strength, a unary operator
as `Precedence.unary`, and everything else as `Precedence.tightest`. An
atom stands for itself, and a call or an index only reaches to its left,
so nothing on their left or right can tear them apart.

* A binary operator takes a left operand that binds at least as tightly
  as itself and a right operand that binds more tightly, which is what
  groups operators of one strength to the left.
* A unary operator takes an operand that binds at least as tightly as
  itself. What is called or indexed binds as tightly as can be.
* Parentheses around any way to write an expression give an atom.

`Statement.Written` leaves the semicolon out. `Block.Written` puts
semicolons in: each statement may have one, and a statement without one
may not be followed by a lexeme that would go on with its expression
(`StandsApart`).
-/

set_option autoImplicit false

namespace Monkey

/-! ### Strengths -/

namespace Precedence

/-- The strength of what no operator can tear apart: atoms, calls and indexing. -/
def tightest : Precedence := .index

/-- Nothing binds more tightly than `tightest`, the strength of indexing. So what is written at that
strength may stand wherever an operand is asked for. -/
theorem le_tightest (p : Precedence) : p ≤ tightest := by
  cases p <;> decide

end Precedence

/-- Every binary operator binds, and less tightly than a unary one. The lower bound lets any of them
continue an expression read at `lowest`, the upper one keeps it out of the operand of `-` and `!`.
-/
theorem BinaryOp.precedence_bounds (op : BinaryOp) :
    .lowest < op.precedence ∧ op.precedence < .unary := by
  cases op <;> decide

/-! ### The grammar -/

/-- The parameters of a function as they are written, a comma between two of them. -/
def parameterLexemes (names : List String) : List Lexeme :=
  (names.map Lexeme.identifier).intersperse (.symbol .comma)

/-- Behind the first parameter each further one stands behind a comma. The parser reads them in this
form, while the definition intersperses the commas. -/
theorem parameterLexemes_cons (name : String) (names : List String) :
    parameterLexemes (name :: names) =
      .identifier name :: names.flatMap (fun name => [.symbol .comma, .identifier name]) := by
  induction names generalizing name with
  | nil => rfl
  | cons next names ih =>
      have h := ih next
      unfold parameterLexemes at h ⊢
      rw [List.map_cons, List.map_cons, List.intersperse_cons_cons, ← List.map_cons, h]
      rfl

/-- Lexemes that do not go on with an expression in front of them: they start with no binary
operator, no opening parenthesis and no opening bracket. -/
def StandsApart (ts : List Lexeme) : Prop :=
  ∀ t, ts.head? = some t → Continuation.ofLexeme? t = none

mutual

/-- `Expr.Written p ts e`: the lexemes `ts` write the expression `e` and bind as tightly as `p`. -/
inductive Expr.Written : Precedence → List Lexeme → Expr → Prop where
  | identifier (name : String) :
      Expr.Written .tightest [.identifier name] (.identifier name)
  /-- Digits whose value is an integer of the language. -/
  | integer (digits : String) (small : Numeral.value digits.toList < Numeral.bound) :
      Expr.Written .tightest [.integer digits]
        (.integer (Int64.ofNat (Numeral.value digits.toList)))
  | string (content : String) :
      Expr.Written .tightest [.string content] (.string content)
  | truth : Expr.Written .tightest [.keyword .trueKw] (.boolean true)
  | falsity : Expr.Written .tightest [.keyword .falseKw] (.boolean false)
  | parenthesized {p : Precedence} {ts : List Lexeme} {e : Expr} (inner : Expr.Written p ts e) :
      Expr.Written .tightest (.symbol .leftParen :: (ts ++ [.symbol .rightParen])) e
  | array {ts : List Lexeme} {es : List Expr} (elements : Expr.ListWritten ts es) :
      Expr.Written .tightest (.symbol .leftBracket :: (ts ++ [.symbol .rightBracket])) (.array es)
  | hash {ts : List Lexeme} {ps : List (Expr × Expr)} (pairs : Expr.PairsWritten ts ps) :
      Expr.Written .tightest (.symbol .leftBrace :: (ts ++ [.symbol .rightBrace])) (.hash ps)
  | conditional {p : Precedence} {ts us vs : List Lexeme} {e : Expr} {b : List Statement}
      {other : Option (List Statement)} (condition : Expr.Written p ts e)
      (consequence : Block.Written us b) (alternative : Block.AlternativeWritten vs other) :
      Expr.Written .tightest
        (.keyword .ifKw :: .symbol .leftParen :: (ts ++ .symbol .rightParen :: .symbol .leftBrace ::
          (us ++ .symbol .rightBrace :: vs)))
        (.conditional e b other)
  | function {us : List Lexeme} {b : List Statement} (names : List String)
      (body : Block.Written us b) :
      Expr.Written .tightest
        (.keyword .fnKw :: .symbol .leftParen :: (parameterLexemes names ++
          .symbol .rightParen :: .symbol .leftBrace :: (us ++ [.symbol .rightBrace])))
        (.function names b)
  | call {ts us : List Lexeme} {f : Expr} {es : List Expr} (callee : Expr.Written .tightest ts f)
      (arguments : Expr.ListWritten us es) :
      Expr.Written .tightest (ts ++ .symbol .leftParen :: (us ++ [.symbol .rightParen]))
        (.call f es)
  | index {p : Precedence} {ts us : List Lexeme} {e i : Expr}
      (indexed : Expr.Written .tightest ts e) (position : Expr.Written p us i) :
      Expr.Written .tightest (ts ++ .symbol .leftBracket :: (us ++ [.symbol .rightBracket]))
        (.index e i)
  | unary {p : Precedence} {ts : List Lexeme} {e : Expr} (op : UnaryOp)
      (operand : Expr.Written p ts e) (tight : .unary ≤ p) :
      Expr.Written .unary (.symbol op.symbol :: ts) (.unary op e)
  | binary {p q : Precedence} {ts us : List Lexeme} {e f : Expr} (op : BinaryOp)
      (left : Expr.Written p ts e) (leftTight : op.precedence ≤ p)
      (right : Expr.Written q us f) (rightTight : op.precedence < q) :
      Expr.Written op.precedence (ts ++ .symbol op.symbol :: us) (.binary op e f)

/-- Expressions with a comma between two of them, none behind the last. -/
inductive Expr.ListWritten : List Lexeme → List Expr → Prop where
  | nil : Expr.ListWritten [] []
  | cons {p : Precedence} {ts us : List Lexeme} {e : Expr} {es : List Expr}
      (head : Expr.Written p ts e) (tail : Expr.MoreWritten us es) :
      Expr.ListWritten (ts ++ us) (e :: es)

/-- Further expressions of a list, a comma in front of each. -/
inductive Expr.MoreWritten : List Lexeme → List Expr → Prop where
  | nil : Expr.MoreWritten [] []
  | cons {p : Precedence} {ts us : List Lexeme} {e : Expr} {es : List Expr}
      (head : Expr.Written p ts e) (tail : Expr.MoreWritten us es) :
      Expr.MoreWritten (.symbol .comma :: (ts ++ us)) (e :: es)

/-- Keys and values with a comma between two pairs. A comma may stand behind the last pair too. -/
inductive Expr.PairsWritten : List Lexeme → List (Expr × Expr) → Prop where
  | nil : Expr.PairsWritten [] []
  | last {p q : Precedence} {ts us : List Lexeme} {k v : Expr}
      (key : Expr.Written p ts k) (value : Expr.Written q us v) :
      Expr.PairsWritten (ts ++ .symbol .colon :: us) [(k, v)]
  | cons {p q : Precedence} {ts us ws : List Lexeme} {k v : Expr} {rest : List (Expr × Expr)}
      (key : Expr.Written p ts k) (value : Expr.Written q us v)
      (tail : Expr.PairsWritten ws rest) :
      Expr.PairsWritten (ts ++ .symbol .colon :: (us ++ .symbol .comma :: ws)) ((k, v) :: rest)

/-- The lexemes write a statement, without a semicolon behind it. -/
inductive Statement.Written : List Lexeme → Statement → Prop where
  | binding {p : Precedence} {ts : List Lexeme} {e : Expr} (name : String)
      (value : Expr.Written p ts e) :
      Statement.Written (.keyword .letKw :: .identifier name :: .symbol .assign :: ts)
        (.binding name e)
  | returning {p : Precedence} {ts : List Lexeme} {e : Expr} (value : Expr.Written p ts e) :
      Statement.Written (.keyword .returnKw :: ts) (.returning e)
  | expression {p : Precedence} {ts : List Lexeme} {e : Expr} (value : Expr.Written p ts e) :
      Statement.Written ts (.expression e)

/-- Statements in order, each closed by a semicolon or followed by what stands apart from it. -/
inductive Block.Written : List Lexeme → List Statement → Prop where
  | nil : Block.Written [] []
  | closed {ts us : List Lexeme} {s : Statement} {rest : List Statement}
      (head : Statement.Written ts s) (tail : Block.Written us rest) :
      Block.Written (ts ++ .symbol .semicolon :: us) (s :: rest)
  | bare {ts us : List Lexeme} {s : Statement} {rest : List Statement}
      (head : Statement.Written ts s) (apart : StandsApart us) (tail : Block.Written us rest) :
      Block.Written (ts ++ us) (s :: rest)

/-- The lexemes behind the first branch of a conditional: none, or a second branch. -/
inductive Block.AlternativeWritten : List Lexeme → Option (List Statement) → Prop where
  | none : Block.AlternativeWritten [] none
  | some {us : List Lexeme} {b : List Statement} (block : Block.Written us b) :
      Block.AlternativeWritten
        (.keyword .elseKw :: .symbol .leftBrace :: (us ++ [.symbol .rightBrace])) (some b)

end

/-! ### Strengths of what is written -/

/-- What writes an expression binds more tightly than nothing, so a parse at `lowest` takes in all
of it. By the constructors: only operators have a strength below `tightest`, and
`BinaryOp.precedence_bounds` bounds theirs. -/
theorem Expr.Written.lowest_lt {p : Precedence} {ts : List Lexeme} {e : Expr}
    (h : Expr.Written p ts e) : .lowest < p := by
  cases h with
  | unary => decide
  | binary op => exact op.precedence_bounds.1
  | _ => decide

/-- What binds at least as tightly as a call binds as tightly as can be, since no operator has a
strength as high. A callee read in front of a parenthesis gets the strength of `Expr.Written.call`
from it. -/
theorem Expr.Written.eq_tightest {p : Precedence} {ts : List Lexeme} {e : Expr}
    (h : Expr.Written p ts e) (hp : .call ≤ p) : p = .tightest := by
  cases h with
  | unary => exact absurd hp (by decide)
  | binary op => exact absurd op.precedence_bounds.2 (Nat.not_lt.2 (Nat.le_trans (by decide) hp))
  | _ => rfl

/-! ### First lexemes -/

/-- Whether an expression may start with the lexeme. -/
def Lexeme.startsExpression : Lexeme → Bool
  | .identifier _ => true
  | .integer _ => true
  | .string _ => true
  | .keyword .trueKw => true
  | .keyword .falseKw => true
  | .keyword .ifKw => true
  | .keyword .fnKw => true
  | .symbol .bang => true
  | .symbol .minus => true
  | .symbol .leftParen => true
  | .symbol .leftBracket => true
  | .symbol .leftBrace => true
  | _ => false

/-- Whether a statement may start with the lexeme. -/
def Lexeme.startsStatement : Lexeme → Bool
  | .keyword .letKw => true
  | .keyword .returnKw => true
  | t => t.startsExpression

/-- A statement may start with what an expression may start with: `startsStatement` only adds `let`
and `return`. -/
theorem Lexeme.startsStatement_of_startsExpression {t : Lexeme} (h : t.startsExpression = true) :
    t.startsStatement = true := by
  unfold startsStatement
  split
  · rfl
  · rfl
  · exact h

/-- What writes an expression starts with a lexeme that `startsExpression` accepts; in particular it
is not empty. By induction on the derivation, since a binary operator, a call and an index start
with what stands on their left. -/
theorem Expr.Written.head {p : Precedence} {ts : List Lexeme} {e : Expr} :
    Expr.Written p ts e → ∃ t us, ts = t :: us ∧ t.startsExpression = true
  | .identifier _ => ⟨_, _, rfl, rfl⟩
  | .integer _ _ => ⟨_, _, rfl, rfl⟩
  | .string _ => ⟨_, _, rfl, rfl⟩
  | .truth => ⟨_, _, rfl, rfl⟩
  | .falsity => ⟨_, _, rfl, rfl⟩
  | .parenthesized _ => ⟨_, _, rfl, rfl⟩
  | .array _ => ⟨_, _, rfl, rfl⟩
  | .hash _ => ⟨_, _, rfl, rfl⟩
  | .conditional _ _ _ => ⟨_, _, rfl, rfl⟩
  | .function _ _ => ⟨_, _, rfl, rfl⟩
  | .call callee _ => by
      obtain ⟨t, us, rfl, ht⟩ := callee.head
      exact ⟨t, _, rfl, ht⟩
  | .index indexed _ => by
      obtain ⟨t, us, rfl, ht⟩ := indexed.head
      exact ⟨t, _, rfl, ht⟩
  | .unary op _ _ => by
      cases op with
      | negate => exact ⟨_, _, rfl, rfl⟩
      | not => exact ⟨_, _, rfl, rfl⟩
  | .binary _ left _ _ _ => by
      obtain ⟨t, us, rfl, ht⟩ := left.head
      exact ⟨t, _, rfl, ht⟩

/-- What writes a statement starts with a lexeme that `startsStatement` accepts, a reserved word of
its own or the start of its expression. -/
theorem Statement.Written.head {ts : List Lexeme} {s : Statement} (h : Statement.Written ts s) :
    ∃ t us, ts = t :: us ∧ t.startsStatement = true := by
  cases h with
  | binding name value => exact ⟨_, _, rfl, rfl⟩
  | returning value => exact ⟨_, _, rfl, rfl⟩
  | expression value =>
      obtain ⟨t, us, rfl, ht⟩ := value.head
      exact ⟨t, us, rfl, Lexeme.startsStatement_of_startsExpression ht⟩

/-- What writes statements is empty or starts with a lexeme that `startsStatement` accepts. Stated
of `head?`, since the lexemes of a block are met as what stands behind something. -/
theorem Block.Written.head {ts : List Lexeme} {b : Block} (h : Block.Written ts b) {t : Lexeme}
    (ht : ts.head? = some t) : t.startsStatement = true := by
  cases h with
  | nil => cases ht
  | closed head _ =>
      obtain ⟨u, us, rfl, hu⟩ := head.head
      cases ht
      exact hu
  | bare head _ _ =>
      obtain ⟨u, us, rfl, hu⟩ := head.head
      cases ht
      exact hu

end Monkey
