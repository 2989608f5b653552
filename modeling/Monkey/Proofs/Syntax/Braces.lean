import Monkey.Cursor
import Monkey.Proofs.Syntax.Grammar

/-!
# `Monkey.Proofs.Syntax.Braces`: semicolons outside all braces

A semicolon outside all braces stands behind a statement of the text and
nowhere else: what writes an expression or a statement closes every brace
that it opens, and holds a semicolon only between its own braces. It
holds no illegal lexeme either.

`Orderly d ts` says so of lexemes that are read with `d` braces open, and
`Balanced n ts` that the lexemes are orderly and close what they open
whenever at least `n` braces are open in front of them.

How parts are put together is said once, in `Nested`: such a property
holds of expressions and statements at any depth (`Expr.Written.nested`,
`Statement.Written.nested`), and of the statements of a block inside one
brace (`Block.Written.nested`). Being balanced is one (`nested_balanced`).
-/

set_option autoImplicit false

namespace Monkey

/-! ### Depths -/

/-- The number of open braces behind the lexemes, with `d` open in front of them. -/
def depthFrom (d : Nat) (ts : List Lexeme) : Nat :=
  ts.foldl (fun depth t => Cursor.depthAfter depth (some t)) d

/-- Behind no lexemes as many braces are open as in front of them. One of the three equations by
which proofs compute `depthFrom` without its fold. -/
@[simp] theorem depthFrom_nil (d : Nat) : depthFrom d [] = d := rfl

/-- The first lexeme changes the depth by `Cursor.depthAfter`, and the others go on from there.
`Orderly` recurses in the same way, so the two are always opened together. -/
@[simp] theorem depthFrom_cons (d : Nat) (t : Lexeme) (ts : List Lexeme) :
    depthFrom d (t :: ts) = depthFrom (Cursor.depthAfter d (some t)) ts := rfl

/-- Behind two runs of lexemes the depth is that behind the second one, started from the depth
behind the first. It cuts a text in two wherever a statement ends. -/
@[simp] theorem depthFrom_append (d : Nat) (ts us : List Lexeme) :
    depthFrom d (ts ++ us) = depthFrom (depthFrom d ts) us := List.foldl_append

/-- No lexeme is illegal, and no semicolon stands outside all braces, with `d` of them open in front
of the lexemes. -/
def Orderly : Nat → List Lexeme → Prop
  | _, [] => True
  | d, t :: ts =>
    (∀ text, t ≠ .illegal text) ∧ (t = .symbol .semicolon → 0 < d) ∧
      Orderly (Cursor.depthAfter d (some t)) ts

namespace Orderly

/-- No lexemes are in order at any depth. A `simp` lemma beside `append`, so that `Orderly` of a
concrete list of lexemes needs no unfolding. -/
@[simp] theorem nil (d : Nat) : Orderly d [] := trivial

/-- Two runs of lexemes are in order exactly when each is, the second one at the depth `depthFrom d
ts` that the first leaves behind. By induction on `ts` with the depth left free, since every lexeme
may change it. -/
theorem append {d : Nat} {ts us : List Lexeme} :
    Orderly d (ts ++ us) ↔ Orderly d ts ∧ Orderly (depthFrom d ts) us := by
  induction ts generalizing d with
  | nil => simp
  | cons t ts ih => simp only [List.cons_append, Orderly, ih, depthFrom_cons, and_assoc]

/-- Where the lexemes are `Orderly` none of them is illegal, whatever the depth.
`FirstFaultAt.of_survey` uses it to rule out an illegal lexeme in front of the first fault. -/
theorem legal {d : Nat} {ts : List Lexeme} (h : Orderly d ts) {t : Lexeme} (ht : t ∈ ts) :
    ∀ text, t ≠ .illegal text := by
  induction ts generalizing d with
  | nil => cases ht
  | cons u us ih =>
      obtain ⟨hlegal, -, hrest⟩ := h
      rcases List.mem_cons.1 ht with rfl | ht
      · exact hlegal
      · exact ih hrest ht

end Orderly

/-! ### Delimiters -/

/-- The pairs of symbols that stand around a part of a text. -/
inductive Delimiter where
  | paren
  | bracket
  | brace
  deriving DecidableEq

namespace Delimiter

/-- The symbol in front of what is enclosed. -/
def opener : Delimiter → Symbol
  | paren => .leftParen
  | bracket => .leftBracket
  | brace => .leftBrace

/-- The symbol behind what is enclosed. -/
def closer : Delimiter → Symbol
  | paren => .rightParen
  | bracket => .rightBracket
  | brace => .rightBrace

/-- The number of braces around what is enclosed, with `n` of them around the whole. -/
def bracesInside (n : Nat) : Delimiter → Nat
  | brace => n + 1
  | paren => n
  | bracket => n

end Delimiter

/-- Whether a lexeme is legal, and neither a delimiter nor a semicolon. -/
def Lexeme.isPlain : Lexeme → Bool
  | .illegal _ => false
  | .symbol .leftParen => false
  | .symbol .rightParen => false
  | .symbol .leftBracket => false
  | .symbol .rightBracket => false
  | .symbol .leftBrace => false
  | .symbol .rightBrace => false
  | .symbol .semicolon => false
  | _ => true

/-- Operators are plain: `UnaryOp.symbol` is never a delimiter or a semicolon, so `Nested.plain`
covers the operator in front of its operand. -/
theorem UnaryOp.isPlain_symbol (op : UnaryOp) : (Lexeme.symbol op.symbol).isPlain = true := by
  cases op <;> rfl

/-- Operators are plain: `BinaryOp.symbol` is never a delimiter or a semicolon, so `Nested.plain`
covers the operator between its operands. -/
theorem BinaryOp.isPlain_symbol (op : BinaryOp) : (Lexeme.symbol op.symbol).isPlain = true := by
  cases op <;> rfl

/-! ### What holds of all that is written -/

/-- A property of lexemes inside a number of braces that passes from parts to the whole: plain
lexemes have no influence on it, semicolons have none inside braces, and delimiters have none around
what has the property. -/
structure Nested (P : Nat → List Lexeme → Prop) : Prop where
  nil : ∀ {n : Nat}, P n []
  append : ∀ {n : Nat} {ts us : List Lexeme}, P n ts → P n us → P n (ts ++ us)
  plain : ∀ {n : Nat} {t : Lexeme} {ts : List Lexeme}, t.isPlain = true → P n ts → P n (t :: ts)
  semicolon : ∀ {n : Nat} {ts : List Lexeme}, P (n + 1) ts → P (n + 1) (.symbol .semicolon :: ts)
  enclose : ∀ {n : Nat} (d : Delimiter) {ts us : List Lexeme}, P (d.bracesInside n) ts → P n us →
    P n (.symbol d.opener :: (ts ++ .symbol d.closer :: us))

section

variable {P : Nat → List Lexeme → Prop}

/-- What is `Nested` holds of `parameterLexemes`: names and the commas between them are all plain.
By induction on the names, two lexemes at a time. -/
theorem Nested.parameters (h : Nested P) (n : Nat) (names : List String) :
    P n (parameterLexemes names) := by
  cases names with
  | nil => exact h.nil
  | cons name names =>
      rw [parameterLexemes_cons]
      refine h.plain rfl ?_
      induction names with
      | nil => exact h.nil
      | cons next names ih => exact h.plain rfl (h.plain rfl ih)

mutual

/-- Whatever is `Nested` holds of the lexemes that write an expression. One case for each
constructor of `Expr.Written`, by the field of `Nested` that fits it; the blocks of a conditional or
a function stand inside one brace more. -/
theorem Expr.Written.nested {p : Precedence} {ts : List Lexeme} {e : Expr} (h : Nested P)
    (n : Nat) : Expr.Written p ts e → P n ts
  | .identifier _ => h.plain rfl h.nil
  | .integer _ _ => h.plain rfl h.nil
  | .string _ => h.plain rfl h.nil
  | .truth => h.plain rfl h.nil
  | .falsity => h.plain rfl h.nil
  | .parenthesized inner => h.enclose .paren (inner.nested h n) h.nil
  | .array elements => h.enclose .bracket (elements.nested h n) h.nil
  | .hash pairs => h.enclose .brace (pairs.nested h (n + 1)) h.nil
  | .conditional condition consequence alternative =>
      h.plain rfl (h.enclose .paren (condition.nested h n)
        (h.enclose .brace (consequence.nested h n) (alternative.nested h n)))
  | .function names body =>
      h.plain rfl (h.enclose .paren (h.parameters n names)
        (h.enclose .brace (body.nested h n) h.nil))
  | .call callee arguments =>
      h.append (callee.nested h n) (h.enclose .paren (arguments.nested h n) h.nil)
  | .index indexed position =>
      h.append (indexed.nested h n) (h.enclose .bracket (position.nested h n) h.nil)
  | .unary op operand _ => h.plain op.isPlain_symbol (operand.nested h n)
  | .binary op left _ right _ =>
      h.append (left.nested h n) (h.plain op.isPlain_symbol (right.nested h n))

/-- Whatever is `Nested` holds of the lexemes of a list. The brackets around it belong to the
expression, so only `Nested.append` is needed here. -/
theorem Expr.ListWritten.nested {ts : List Lexeme} {es : List Expr} (h : Nested P) (n : Nat) :
    Expr.ListWritten ts es → P n ts
  | .nil => h.nil
  | .cons head tail => h.append (head.nested h n) (tail.nested h n)

/-- Whatever is `Nested` holds of further expressions, each behind its comma. The comma is plain and
so is no obstacle. -/
theorem Expr.MoreWritten.nested {ts : List Lexeme} {es : List Expr} (h : Nested P) (n : Nat) :
    Expr.MoreWritten ts es → P n ts
  | .nil => h.nil
  | .cons head tail => h.plain rfl (h.append (head.nested h n) (tail.nested h n))

/-- Whatever is `Nested` holds of the pairs of a hash literal. Colons and commas are plain; the
braces around the pairs are closed in `Expr.Written.nested`, so `n` counts them already. -/
theorem Expr.PairsWritten.nested {ts : List Lexeme} {ps : List (Expr × Expr)} (h : Nested P)
    (n : Nat) : Expr.PairsWritten ts ps → P n ts
  | .nil => h.nil
  | .last key value => h.append (key.nested h n) (h.plain rfl (value.nested h n))
  | .cons key value tail =>
      h.append (key.nested h n)
        (h.plain rfl (h.append (value.nested h n) (h.plain rfl (tail.nested h n))))

/-- Whatever is `Nested` holds of the lexemes of a statement without its semicolon. The reserved
word, the name and the equals sign are plain, and the rest is an expression. -/
theorem Statement.Written.nested {ts : List Lexeme} {s : Statement} (h : Nested P) (n : Nat) :
    Statement.Written ts s → P n ts
  | .binding _ value => h.plain rfl (h.plain rfl (h.plain rfl (value.nested h n)))
  | .returning value => h.plain rfl (value.nested h n)
  | .expression value => value.nested h n

/-- Inside a brace, whatever is `Nested` holds of the lexemes of a block. The conclusion is at `n +
1` because a block has semicolons, and `Nested.semicolon` passes them only there. -/
theorem Block.Written.nested {ts : List Lexeme} {b : Block} (h : Nested P) (n : Nat) :
    Block.Written ts b → P (n + 1) ts
  | .nil => h.nil
  | .closed head tail => h.append (head.nested h (n + 1)) (h.semicolon (tail.nested h n))
  | .bare head _ tail => h.append (head.nested h (n + 1)) (tail.nested h n)

/-- Whatever is `Nested` holds of a second branch: the reserved word `else` is plain, and the block
behind it is enclosed in braces of its own. -/
theorem Block.AlternativeWritten.nested {ts : List Lexeme} {other : Option Block} (h : Nested P)
    (n : Nat) : Block.AlternativeWritten ts other → P n ts
  | .none => h.nil
  | .some block => h.plain rfl (h.enclose .brace (block.nested h n) h.nil)

end

end

/-! ### Balanced lexemes -/

/-- Inside at least `n` braces the lexemes are in order and close every brace that they open. -/
def Balanced (n : Nat) (ts : List Lexeme) : Prop :=
  ∀ d, n ≤ d → Orderly d ts ∧ depthFrom d ts = d

namespace Balanced

variable {n : Nat} {t : Lexeme} {ts us : List Lexeme}

/-- Two runs of lexemes that are `Balanced` stay so behind one another, since the first leaves the
depth as it found it. -/
theorem append (h : Balanced n ts) (h' : Balanced n us) : Balanced n (ts ++ us) := by
  intro d hd
  obtain ⟨horderly, hdepth⟩ := h d hd
  rw [Orderly.append, depthFrom_append, hdepth]
  obtain ⟨horderly', hdepth'⟩ := h' d hd
  exact ⟨⟨horderly, horderly'⟩, hdepth'⟩

/-- In front of what is `Balanced` any legal lexeme may stand that is no brace and no semicolon. The
three hypotheses say just that of `t`; `plain` and the parentheses of `nested_balanced` are its
uses. -/
theorem cons (hlegal : ∀ text, t ≠ .illegal text) (hmark : t ≠ .symbol .semicolon)
    (hdepth : ∀ d, Cursor.depthAfter d (some t) = d) (h : Balanced n ts) :
    Balanced n (t :: ts) := by
  intro d hd
  obtain ⟨horderly, hrest⟩ := h d hd
  rw [Orderly, depthFrom_cons, hdepth]
  exact ⟨⟨hlegal, fun heq => absurd heq hmark, horderly⟩, hrest⟩

/-- In front of what is `Balanced` a plain lexeme may stand: `Lexeme.isPlain` excludes all that
`cons` excludes. The split is over `Cursor.depthAfter`, whose two brace cases contradict `ht`. -/
theorem plain (ht : t.isPlain = true) (h : Balanced n ts) : Balanced n (t :: ts) := by
  refine cons ?_ ?_ (fun d => ?_) h
  · rintro text rfl
    cases ht
  · rintro rfl
    cases ht
  -- Only the two braces change the depth, and neither of them is plain.
  · unfold Cursor.depthAfter
    split
    · rename_i heq
      cases heq
      cases ht
    · rename_i heq
      cases heq
      cases ht
    · rfl

/-- What is `Balanced` inside one more brace is balanced with braces around it. The only place where
the depth really changes; every other constructor of `Nested` leaves it alone. -/
theorem braces (h : Balanced (n + 1) ts) (h' : Balanced n us) :
    Balanced n (.symbol .leftBrace :: (ts ++ .symbol .rightBrace :: us)) := by
  intro d hd
  -- The left brace takes what is inside to a depth of `d + 1`, and the right one takes it back.
  obtain ⟨horderly, hdepth⟩ := h (d + 1) (Nat.succ_le_succ hd)
  obtain ⟨horderly', hdepth'⟩ := h' d hd
  have hopen : Cursor.depthAfter d (some (.symbol .leftBrace)) = d + 1 := rfl
  have hclose : Cursor.depthAfter (d + 1) (some (.symbol .rightBrace)) = d := rfl
  simp [Orderly, Orderly.append, hopen, hclose, horderly, hdepth, horderly', hdepth']

end Balanced

/-- What is written is `Balanced`, by one proof for each field of `Nested`. Together with
`Expr.Written.nested` and its companions it says that every statement closes the braces it opens. -/
theorem nested_balanced : Nested Balanced where
  nil := fun _ _ => ⟨trivial, rfl⟩
  append := Balanced.append
  plain := Balanced.plain
  semicolon := by
    intro n ts h d hd
    obtain ⟨horderly, hdepth⟩ := h d hd
    exact ⟨⟨by simp, fun _ => by omega, horderly⟩, hdepth⟩
  enclose := by
    intro n d ts us h h'
    -- Parentheses and brackets are nothing to braces.
    have hcons (mark : Symbol) (hmark : mark ≠ .semicolon)
        (hdepth : ∀ d, Cursor.depthAfter d (some (.symbol mark)) = d) {vs : List Lexeme}
        (hvs : Balanced n vs) : Balanced n (.symbol mark :: vs) :=
      .cons (by simp) (by simpa using hmark) hdepth hvs
    cases d with
    | paren =>
        exact hcons .leftParen (by decide) (fun _ => rfl)
          (h.append (hcons .rightParen (by decide) (fun _ => rfl) h'))
    | bracket =>
        exact hcons .leftBracket (by decide) (fun _ => rfl)
          (h.append (hcons .rightBracket (by decide) (fun _ => rfl) h'))
    | brace => exact h.braces h'

end Monkey
