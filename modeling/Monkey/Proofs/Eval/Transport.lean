import Monkey.Proofs.Eval.Answers
import Monkey.Proofs.Eval.Sequence

/-!
# `Monkey.Proofs.Eval.Transport`: relations that evaluation respects

A relation between evaluations that is closed under the few ways in which
evaluations are put together holds between any two evaluations of one
tree. `Congruent` lists these ways, one field for each; the theorems below
go through the tree once and for all. What is to be shown of every program
is then shown of a step, of a value handed on, of a primitive and of a
call.

A class `V` of values goes along: it is closed under what the language
does with values (`Hereditary`), and only values of it are handed on. Where
no such class is wanted, it is the class of all values.

* `Congruent.statement`, `Congruent.block`, `Congruent.apply`,
  `Congruent.node` are one level of evaluation.
* `Congruent.expr`, `Congruent.blockAt` are every level, for relations that
  depend on the depth.
-/

set_option autoImplicit false

namespace Monkey

/-! ### Classes of values -/

/-- A class of values that holds the simple ones, and an array or a hash exactly when it holds all
that they contain. With a value on its way to a caller it holds the value itself. -/
structure Hereditary (V : Value → Prop) : Prop where
  integer (n : Int64) : V (.integer n)
  boolean (b : Bool) : V (.boolean b)
  string (content : String) : V (.string content)
  null : V .null
  builtin (b : Builtin) : V (.builtin b)
  function (i : Identity) (c : Closure) : V (.function i c)
  array {i : Identity} {vs : List Value} : V (.array i vs) ↔ ∀ v ∈ vs, V v
  hash {i : Identity} {t : Table Value} : V (.hash i t) ↔ ∀ p ∈ t.pairs, V p.1 ∧ V p.2
  returned {v : Value} : V (.returned v) → V v

/-- Every value is in the class of all values. With this class, `Congruent` asks nothing of the
values and speaks of how evaluations go. -/
theorem hereditary_true : Hereditary fun _ => True := by
  constructor <;> simp

/-- A class that holds all that a value contains is closed downward. `Hereditary` is stated with
equivalences, since relations between evaluations need to build values too. -/
theorem Hereditary.downward {V : Value → Prop} (hV : Hereditary V) : DownwardClosed V where
  integer := hV.integer
  boolean := hV.boolean
  string := hV.string
  null := hV.null
  builtin := hV.builtin
  element := hV.array.1
  entry := hV.hash.1
  returned := hV.returned

/-! ### Primitives -/

/-- Evaluations that go no further down the tree, on values of a class. -/
inductive Primitive (V : Value → Prop) : Eval Value → Prop where
  | give {v : Value} (h : v.Answers V) : Primitive V (pure v)
  | identifier (scope : ScopeId) (name : String) : Primitive V (evalIdentifier scope name)
  | array {vs : List Value} (h : ∀ v ∈ vs, V v) : Primitive V (Eval.newArray vs)
  | hash {t : Table Value} (h : ∀ p ∈ t.pairs, V p.1 ∧ V p.2) : Primitive V (Eval.newHash t)
  | function (c : Closure) : Primitive V (Eval.newFunction c)
  | bind (scope : ScopeId) (name : String) {v : Value} (h : V v) :
      Primitive V (do modify (·.bind scope name v); pure .null)
  | print (text : String) : Primitive V (do modify (·.print text); pure .null)

/-- What a native function does is a primitive, constructor by constructor: it gives a value, makes
an array, or prints a text. -/
theorem Native.primitive {V : Value → Prop} {x : Eval Value} (hx : Native V x) :
    Primitive V x := by
  cases hx with
  | give hanswers => exact .give hanswers
  | array hvs => exact .array hvs
  | print text => exact .print text

/-- Every native function is a primitive, whatever its arguments are, by `Native.builtin` for the
downward closure of the class. -/
theorem Primitive.builtin {V : Value → Prop} (hV : Hereditary V) (b : Builtin)
    {args : List Value} (h : ∀ v ∈ args, V v) : Primitive V (b.apply args) :=
  (Native.builtin hV.downward b h).primitive

/-! ### Relations -/

/-- A relation `R` between evaluations respects the ways in which they are put together, on values
of the class `V`. What is counted as a step is related by `R'`, which implies `R`. -/
structure Congruent (limit limit' : Option Nat) (V : Value → Prop)
    (R R' : Eval Value → Eval Value → Prop) : Prop where
  hereditary : Hereditary V
  weaken {x y : Eval Value} : R' x y → R x y
  counted {x y : Eval Value} : R x y → R' (counted limit x) (counted limit' y)
  unlessSignal {x y : Eval Value} {f g : Value → Eval Value} : R x y →
    (∀ v, v.isSignal = false → V v → R (f v) (g v)) → R (unlessSignal x f) (unlessSignal y g)
  primitive {x : Eval Value} : Primitive V x → R x x
  returned {v : Value} : V v → R (pure (.returned v)) (pure (.returned v))
  inScope (outer : ScopeId) (names : List String) {args : List Value}
    {body body' : ScopeId → Eval Value} : (∀ v ∈ args, V v) →
    (∀ scope, R (body scope) (body' scope)) →
    R (inScope outer names args body) (inScope outer names args body')

namespace Congruent

variable {limit limit' : Option Nat} {V : Value → Prop} {R R' : Eval Value → Eval Value → Prop}
  {eval eval' : Evaluator}

/-- Statements are related if the expressions in them are. A `let` and a `return` go on from a value
by the field `unlessSignal`; an expression is related as it is. -/
theorem statement (hR : Congruent limit limit' V R R')
    (h : ∀ scope e, R (eval scope e) (eval' scope e)) (scope : ScopeId) (s : Statement) :
    R' (evalStatement limit eval scope s) (evalStatement limit' eval' scope s) := by
  refine hR.counted ?_
  cases s with
  | binding name e =>
      -- What is bound has been handed on, so that it is of the class.
      exact hR.unlessSignal (h scope e) fun v _ hv => hR.primitive (.bind scope name hv)
  | returning e =>
      exact hR.unlessSignal (h scope e) fun v _ hv => hR.returned hv
  | expression e => exact h scope e

/-- Blocks are related if the expressions in them are, whatever value `last` they begin with.
Induction on the block, with `statement` for the first one. -/
theorem blockFrom (hR : Congruent limit limit' V R R')
    (h : ∀ scope e, R (eval scope e) (eval' scope e)) (scope : ScopeId) (b : Block) {last : Value}
    (hlast : V last) :
    R (evalBlockFrom limit eval scope last b) (evalBlockFrom limit' eval' scope last b) := by
  induction b generalizing last with
  | nil => exact hR.primitive (.give (.inr hlast))
  | cons s rest ih =>
      exact hR.unlessSignal (hR.weaken (hR.statement h scope s)) fun v _ hv => ih hv

/-- A block is related as `blockFrom` is, begun with `null`, which every hereditary class holds. -/
theorem block (hR : Congruent limit limit' V R R')
    (h : ∀ scope e, R (eval scope e) (eval' scope e)) (scope : ScopeId) (b : Block) :
    R (evalBlock limit eval scope b) (evalBlock limit' eval' scope b) :=
  hR.blockFrom h scope b hR.hereditary.null

/-- What is done with the values of a list of expressions is related if it is for all values. The
continuation `next` is part of the statement, so that induction can lengthen the list. -/
theorem each (hR : Congruent limit limit' V R R')
    (h : ∀ scope e, R (eval scope e) (eval' scope e)) (scope : ScopeId) (es : List Expr)
    {next next' : List Value → Eval Value}
    (hnext : ∀ vs, (∀ v ∈ vs, V v) → R (next vs) (next' vs)) :
    R (evalEach eval scope es >>= orSignal next) (evalEach eval' scope es >>= orSignal next') := by
  induction es generalizing next next' with
  | nil =>
      rw [evalEach_nil_bind, evalEach_nil_bind]
      exact hnext [] fun v hv => absurd hv List.not_mem_nil
  | cons e es ih =>
      rw [evalEach_cons_bind, evalEach_cons_bind]
      refine hR.unlessSignal (h scope e) fun v _ hv => ih fun vs hvs => hnext (v :: vs) ?_
      exact List.forall_mem_cons.2 ⟨hv, hvs⟩

/-- What is done with the table of a hash literal is related if it is for all tables of such values.
Filing a pair keeps the table such a one, by `Table.mem_insert`. -/
theorem pairs (hR : Congruent limit limit' V R R')
    (h : ∀ scope e, R (eval scope e) (eval' scope e)) (scope : ScopeId)
    (ps : List (Expr × Expr)) {table : Table Value}
    (htable : ∀ p ∈ table.pairs, V p.1 ∧ V p.2) {next next' : Table Value → Eval Value}
    (hnext : ∀ t : Table Value, (∀ p ∈ t.pairs, V p.1 ∧ V p.2) → R (next t) (next' t)) :
    R (evalPairs eval scope table ps >>= orSignal next)
      (evalPairs eval' scope table ps >>= orSignal next') := by
  induction ps generalizing table with
  | nil =>
      rw [evalPairs_nil_bind, evalPairs_nil_bind]
      exact hnext table htable
  | cons p ps ih =>
      obtain ⟨k, v⟩ := p
      rw [evalPairs_cons_bind, evalPairs_cons_bind]
      -- A key that cannot be used ends the loop before its value is evaluated.
      refine hR.unlessSignal (h scope k) fun key _ hkey => ?_
      cases key.hashKey? with
      | none => exact hR.primitive (.give (.inl rfl))
      | some slot =>
          refine hR.unlessSignal (h scope v) fun value _ hvalue => ih fun q hq => ?_
          rcases Table.mem_insert hq with rfl | hq
          · exact ⟨hkey, hvalue⟩
          · exact htable q hq

/-- Calls are related if the bodies of functions are: the field `inScope` takes the body, and native
functions are primitives. All else is an error on both sides. -/
theorem apply (hR : Congruent limit limit' V R R')
    (h : ∀ scope e, R (eval scope e) (eval' scope e)) (callee : Value) {args : List Value}
    (hargs : ∀ v ∈ args, V v) :
    R (applyValue limit eval callee args) (applyValue limit' eval' callee args) := by
  cases callee with
  | function i f =>
      rw [applyValue, applyValue]
      split
      · -- The body is evaluated at the depth of the call, in a scope of its own.
        exact hR.inScope f.scope f.parameters hargs fun frame => hR.block h frame f.body
      · exact hR.primitive (.give (.inl rfl))
  | builtin b => exact hR.primitive (.builtin hR.hereditary b hargs)
  | _ => exact hR.primitive (.give (.inl rfl))

/-- Expressions are related if the expressions in them and the bodies they call are. One case for
each constructor of `Expr`, from the fields of `Congruent` and the lemmas above. -/
theorem node (hR : Congruent limit limit' V R R')
    (h : ∀ scope e, R (eval scope e) (eval' scope e)) (scope : ScopeId) (e : Expr) :
    R' (evalNode limit eval scope e) (evalNode limit' eval' scope e) := by
  cases e with
  | identifier name => exact hR.counted (hR.primitive (.identifier scope name))
  | integer n => exact hR.counted (hR.primitive (.give (.inr (hR.hereditary.integer n))))
  | boolean b => exact hR.counted (hR.primitive (.give (.inr (hR.hereditary.boolean b))))
  | string content => exact hR.counted (hR.primitive (.give (.inr (hR.hereditary.string content))))
  | array es =>
      rw [evalNode_array, evalNode_array]
      exact hR.counted (hR.each h scope es fun vs hvs => hR.primitive (.array hvs))
  | hash ps =>
      rw [evalNode_hash, evalNode_hash]
      refine hR.counted (hR.pairs h scope ps ?_ fun t ht => hR.primitive (.hash ht))
      intro p hp
      cases hp
  | unary op e =>
      refine hR.counted (hR.unlessSignal (h scope e) fun v _ _ => ?_)
      exact hR.primitive (.give (hR.hereditary.downward.unary op v))
  | binary op e f =>
      refine hR.counted (hR.unlessSignal (h scope e) fun v _ _ => ?_)
      refine hR.unlessSignal (h scope f) fun w _ _ => ?_
      exact hR.primitive (.give (hR.hereditary.downward.binary op v w))
  | conditional c b other =>
      -- The branch is evaluated in the scope of the conditional; there is no scope of its own.
      refine hR.counted (hR.unlessSignal (h scope c) fun v _ _ => ?_)
      split
      · exact hR.block h scope b
      · cases other with
        | none => exact hR.primitive (.give (.inr hR.hereditary.null))
        | some block => exact hR.block h scope block
  | function names body => exact hR.counted (hR.primitive (.function _))
  | call f es =>
      rw [evalNode_call, evalNode_call]
      refine hR.counted (hR.unlessSignal (h scope f) fun callee _ _ => ?_)
      exact hR.each h scope es fun args hargs => hR.apply h callee hargs
  | index e i =>
      refine hR.counted (hR.unlessSignal (h scope e) fun v _ hv => ?_)
      refine hR.unlessSignal (h scope i) fun w _ _ => ?_
      exact hR.primitive (.give (hR.hereditary.downward.index hv w))

end Congruent

/-- Expressions are related at every depth if the relations for the depths fit together: induction
on `depth`, where `node` takes `R depth` to `R (depth + 1)`. -/
theorem Congruent.expr {limit limit' : Option Nat} {V : Value → Prop}
    {R : Nat → Eval Value → Eval Value → Prop}
    (hR : ∀ depth, Congruent limit limit' V (R depth) (R (depth + 1)))
    (hzero : R 0 failure failure) (depth : Nat) (scope : ScopeId) (e : Expr) :
    R depth (evalExpr limit depth scope e) (evalExpr limit' depth scope e) := by
  induction depth generalizing scope e with
  | zero => exact hzero
  | succ depth ih => exact (hR depth).node ih scope e

/-- So are blocks whose expressions are evaluated at a depth, as the statements of a program are:
`block` with `Congruent.expr` at that depth. -/
theorem Congruent.blockAt {limit limit' : Option Nat} {V : Value → Prop}
    {R : Nat → Eval Value → Eval Value → Prop}
    (hR : ∀ depth, Congruent limit limit' V (R depth) (R (depth + 1)))
    (hzero : R 0 failure failure) (depth : Nat) (scope : ScopeId) (b : Block) :
    R depth (evalBlock limit (evalExpr limit depth) scope b)
      (evalBlock limit' (evalExpr limit' depth) scope b) :=
  (hR depth).block (fun scope e => Congruent.expr hR hzero depth scope e) scope b

end Monkey
