import Monkey.Eval
import Monkey.Proofs.Eval.Frame

/-!
# `Monkey.Proofs.Eval.Sequence`: how evaluations are put together

Every construct of the language is put together from a few parts: steps
that are counted, values that are handed on unless they are signals,
and calls in a new scope. This module says what each of these does to a
store, and writes the loops, over the elements of a list and over the
pairs of a hash literal, as chains of values handed on.

* `unlessSignal_eq_some`, `inScope_eq_some` take a run of a composed
  evaluation apart.
* `evalEach_cons_bind`, `evalPairs_cons_bind` are one round of the loops.
* `evalStatement_binding_iff`, `evalIdentifier_of_binds` and
  `applyValue_function` say how values get into scopes and out again.
-/

set_option autoImplicit false

namespace Monkey

/-! ### Runs of composed evaluations -/

section Runs

variable {x : Eval Value} {next : Value → Eval Value} {σ τ : Store} {v : Value}

/-- Only a result that is handed on comes from `pure`: the value is the one given, and the store is
unchanged. -/
theorem pure_eq_some {w : Value} : (pure w : Eval Value) σ = some (v, τ) ↔ v = w ∧ τ = σ := by
  show some (w, σ) = some (v, τ) ↔ _
  simp only [Option.some.injEq, Prod.mk.injEq]
  constructor
  · rintro ⟨rfl, rfl⟩
    exact ⟨rfl, rfl⟩
  · rintro ⟨rfl, rfl⟩
    exact ⟨rfl, rfl⟩

/-- A first part that does not end leaves the whole without an end. One of the three ways
`unlessSignal` can go, each with an equation of its own. -/
theorem unlessSignal_of_none (h : x σ = none) : unlessSignal x next σ = none := by
  show (x σ).bind _ = none
  rw [h, Option.bind_none]

/-- A signal is handed on, with the store the first part left, and `next` is not asked. This is how
errors and return values leave an expression. -/
theorem unlessSignal_of_isSignal (h : x σ = some (v, τ)) (hv : v.isSignal = true) :
    unlessSignal x next σ = some (v, τ) := by
  show (x σ).bind _ = _
  rw [h, Option.bind_some]
  show (if v.isSignal then pure v else next v : Eval Value) τ = _
  rw [if_pos hv]
  rfl

/-- With any other value the evaluation goes on, in the store the first part left. With the two
equations above nobody needs to unfold `unlessSignal`. -/
theorem unlessSignal_of_value (h : x σ = some (v, τ)) (hv : v.isSignal = false) :
    unlessSignal x next σ = next v τ := by
  show (x σ).bind _ = _
  rw [h, Option.bind_some]
  show (if v.isSignal then pure v else next v : Eval Value) τ = _
  rw [if_neg (by rw [hv]; decide)]

/-- What ends has ended in its first part with a signal, or has gone on from the value of the first
part. The inversion that belongs to the three equations. -/
theorem unlessSignal_eq_some {r : Value × Store} (h : unlessSignal x next σ = some r) :
    ∃ v τ, x σ = some (v, τ) ∧
      (v.isSignal = true ∧ r = (v, τ) ∨ v.isSignal = false ∧ next v τ = some r) := by
  cases hx : x σ with
  | none =>
      rw [unlessSignal_of_none hx] at h
      cases h
  | some first =>
      obtain ⟨v, τ⟩ := first
      refine ⟨v, τ, rfl, ?_⟩
      cases hv : v.isSignal with
      | true =>
          rw [unlessSignal_of_isSignal hx hv] at h
          exact .inl ⟨rfl, (Option.some.inj h).symm⟩
      | false =>
          rw [unlessSignal_of_value hx hv] at h
          exact .inr ⟨rfl, h⟩

end Runs

/-- Whether a number of steps is beyond the limit, if there is one. -/
def Exceeds (steps : Nat) : Option Nat → Prop
  | none => False
  | some n => n < steps

/-- A step beyond the limit gives the error that says so, after it has been counted. What would have
been evaluated, `x`, is left alone. -/
theorem counted_of_lt {x : Eval Value} {σ : Store} {n : Nat} (h : n < σ.steps + 1) :
    counted (some n) x σ = some (.error (.budgetExceeded n), σ.tick) := by
  show (if n < σ.steps + 1 then _ else _) = _
  rw [if_pos h]
  rfl

/-- A step within the limit is counted, and nothing else happens: `counted` is then `x` in the store
after `tick`. Without a limit this is always so. -/
theorem counted_of_not_exceeds {limit : Option Nat} {x : Eval Value} {σ : Store}
    (h : ¬ Exceeds (σ.steps + 1) limit) : counted limit x σ = x σ.tick := by
  cases limit with
  | none => rfl
  | some n =>
      have hwithin : ¬ n < σ.steps + 1 := h
      show (if n < σ.steps + 1 then _ else _) = _
      rw [if_neg hwithin]
      rfl

/-! ### Calls -/

/-- Evaluates a body in a new scope in which names are bound to arguments, and gives the caller what
the body ends with. -/
def inScope (outer : ScopeId) (names : List String) (args : List Value)
    (body : ScopeId → Eval Value) : Eval Value := do
  let frame ← Eval.newScope (some outer)
  modify (·.bindAll frame names args)
  let v ← body frame
  pure v.settle

section Calls

variable {outer : ScopeId} {names : List String} {args : List Value} {body : ScopeId → Eval Value}
variable {σ τ : Store}

/-- What the body ends with is settled, that is, taken out of its return value. The body sees the
scope that `enter` has made, under the number it has there. -/
theorem inScope_eq (outer : ScopeId) (names : List String) (args : List Value)
    (body : ScopeId → Eval Value) (σ : Store) :
    inScope outer names args body σ =
      (body σ.scopes.size (σ.enter outer names args)).map fun r => (r.1.settle, r.2) := by
  show (body σ.scopes.size (σ.enter outer names args)).bind _ = _
  cases body σ.scopes.size (σ.enter outer names args) <;> rfl

/-- A body that does not end leaves the call without an end, since `inScope` only settles what there
is. -/
theorem inScope_of_none (h : body σ.scopes.size (σ.enter outer names args) = none) :
    inScope outer names args body σ = none := by
  rw [inScope_eq, h, Option.map_none]

/-- A body that ends with `v` ends the call with `v.settle`, in the same store, whether `v` was
returned or was the value of the last statement. -/
theorem inScope_of_some {v : Value}
    (h : body σ.scopes.size (σ.enter outer names args) = some (v, τ)) :
    inScope outer names args body σ = some (v.settle, τ) := by
  rw [inScope_eq, h, Option.map_some]

/-- A call that ends has settled what its body has ended with. The inversion of `inScope_of_some`,
with the store of the body as the store of the call. -/
theorem inScope_eq_some {r : Value × Store} (h : inScope outer names args body σ = some r) :
    ∃ v τ, body σ.scopes.size (σ.enter outer names args) = some (v, τ) ∧ r = (v.settle, τ) := by
  rw [inScope_eq, Option.map_eq_some_iff] at h
  obtain ⟨⟨v, τ⟩, hbody, rfl⟩ := h
  exact ⟨v, τ, hbody, rfl⟩

end Calls

/-! ### Names -/

/-- What a name means where it is looked up: the value it is bound to, the native function of that
name, or else an error. -/
def Store.meaning (σ : Store) (scope : ScopeId) (name : String) : Value :=
  match σ.lookup scope name with
  | some v => v
  | none =>
    match Builtin.ofName? name with
    | some b => .builtin b
    | none => .error (.unknownIdentifier name)

/-- Looking up a name changes nothing and always ends: what it gives is the `meaning` of the name,
an error among the possibilities. -/
theorem evalIdentifier_eq (scope : ScopeId) (name : String) (σ : Store) :
    evalIdentifier scope name σ = some (σ.meaning scope name, σ) := by
  unfold Store.meaning
  show (match σ.lookup scope name with
    | some v => (pure v : Eval Value)
    | none => match Builtin.ofName? name with
      | some b => pure (.builtin b)
      | none => pure (.error (.unknownIdentifier name))) σ = _
  cases σ.lookup scope name with
  | some v => rfl
  | none => cases Builtin.ofName? name <;> rfl

/-- A name that the scope itself binds gives the value it is bound to, for `lookup` begins with that
scope and native functions come last. -/
theorem evalIdentifier_of_binds {σ : Store} {scope : ScopeId} {name : String} {v : Value}
    (h : σ.Binds scope name v) : evalIdentifier scope name σ = some (v, σ) := by
  rw [evalIdentifier_eq, Store.meaning, h.lookup_eq]

/-! ### Loops -/

/-- Goes on with what a loop has gathered, unless it was ended by a signal. -/
def orSignal {α : Type} (next : α → Eval Value) : Except Value α → Eval Value
  | .ok a => next a
  | .error signal => pure signal

section Loops

variable (eval : Evaluator) (scope : ScopeId)

/-- Over no expression at all nothing is gathered, and `next` goes on with the empty list. Stated of
the loop with what follows it, as all users have it. -/
theorem evalEach_nil_bind (next : List Value → Eval Value) :
    evalEach eval scope [] >>= orSignal next = next [] := rfl

/-- The first expression's value is handed on to the others by `unlessSignal`, so a loop is built of
the same steps as other expressions, and needs no rules of its own. -/
theorem evalEach_cons_bind (e : Expr) (es : List Expr) (next : List Value → Eval Value) :
    evalEach eval scope (e :: es) >>= orSignal next =
      unlessSignal (eval scope e) fun v =>
        evalEach eval scope es >>= orSignal fun vs => next (v :: vs) := by
  rw [evalEach, bind_assoc]
  refine bind_congr fun v => ?_
  -- A signal ends the loop, and `orSignal` hands it on as `unlessSignal` does.
  cases hv : v.isSignal with
  | true => rfl
  | false =>
      simp only [Bool.false_eq_true, if_false]
      rw [bind_assoc]
      refine bind_congr fun r => ?_
      cases r <;> rfl

/-- Over no pair at all nothing is added to the table, and `next` goes on with it as it is. The
counterpart of `evalEach_nil_bind`. -/
theorem evalPairs_nil_bind (table : Table Value) (next : Table Value → Eval Value) :
    evalPairs eval scope table [] >>= orSignal next = next table := rfl

/-- The first pair's key and value are handed on to the others, unless the key cannot be used. The
order is key, slot, value: a bad key leaves its value unevaluated. -/
theorem evalPairs_cons_bind (table : Table Value) (k v : Expr) (rest : List (Expr × Expr))
    (next : Table Value → Eval Value) :
    evalPairs eval scope table ((k, v) :: rest) >>= orSignal next =
      unlessSignal (eval scope k) fun key =>
        match key.hashKey? with
        | none => pure (.error (.unusableKey key.kind))
        | some h =>
          unlessSignal (eval scope v) fun value =>
            evalPairs eval scope (table.insert h (key, value)) rest >>= orSignal next := by
  rw [evalPairs, bind_assoc]
  refine bind_congr fun key => ?_
  -- The key may be a signal or of no use; only then is its value left alone.
  cases hkey : key.isSignal with
  | true => rfl
  | false =>
      simp only [Bool.false_eq_true, if_false]
      cases key.hashKey? with
      | none => rfl
      | some h =>
          dsimp only
          rw [bind_assoc]
          refine bind_congr fun value => ?_
          cases hvalue : value.isSignal with
          | true => rfl
          | false => rfl

end Loops

section Nodes

variable (limit : Option Nat) (eval : Evaluator) (scope : ScopeId)

/-- An array is made of what the loop over its elements gathers, and `newArray` gives it an
identity. Later proofs use this and `evalEach_cons_bind` instead of unfolding. -/
theorem evalNode_array (es : List Expr) :
    evalNode limit eval scope (.array es) =
      counted limit (evalEach eval scope es >>= orSignal Eval.newArray) := by
  refine congrArg (counted limit) (bind_congr fun r => ?_)
  cases r <;> rfl

/-- A hash is made of what the loop over its pairs gathers, beginning with the empty table, and
`newHash` gives it an identity. -/
theorem evalNode_hash (ps : List (Expr × Expr)) :
    evalNode limit eval scope (.hash ps) =
      counted limit (evalPairs eval scope .empty ps >>= orSignal Eval.newHash) := by
  refine congrArg (counted limit) (bind_congr fun r => ?_)
  cases r <;> rfl

/-- A call is one of what is called, with what the loop over the arguments gathers. The callee comes
first, and the arguments are evaluated even if it cannot be called. -/
theorem evalNode_call (f : Expr) (es : List Expr) :
    evalNode limit eval scope (.call f es) =
      counted limit (unlessSignal (eval scope f) fun callee =>
        evalEach eval scope es >>= orSignal (applyValue limit eval callee)) := by
  refine congrArg (counted limit) (congrArg (unlessSignal (eval scope f)) ?_)
  funext callee
  refine bind_congr fun r => ?_
  cases r <;> rfl

/-- A function that is called with as many arguments as it has parameters evaluates its body in the
scope of the call. That scope lies in `f.scope`, by `enter`. -/
theorem applyValue_function {f : Closure} {args : List Value}
    (h : f.parameters.length = args.length) (i : Identity) (σ : Store) :
    applyValue limit eval (.function i f) args σ =
      (evalBlock limit eval σ.scopes.size f.body (σ.enter f.scope f.parameters args)).map
        fun r => (r.1.settle, r.2) := by
  have hcall : applyValue limit eval (.function i f) args =
      inScope f.scope f.parameters args fun frame => evalBlock limit eval frame f.body :=
    if_pos h
  rw [hcall, inScope_eq]

/-- A binding is made if the step is within the limit and the expression has a value that is no
signal. Both directions are stated, so that a `let` can be read off its `null`. -/
theorem evalStatement_binding_iff {name : String} {e : Expr} {σ τ : Store} :
    evalStatement limit eval scope (.binding name e) σ = some (.null, τ) ↔
      ¬Exceeds (σ.steps + 1) limit ∧ ∃ v ρ, eval scope e σ.tick = some (v, ρ) ∧
        v.isSignal = false ∧ τ = ρ.bind scope name v := by
  rw [evalStatement]
  constructor
  · intro h
    by_cases hlimit : Exceeds (σ.steps + 1) limit
    · cases limit with
      | none => cases hlimit
      | some n =>
          rw [counted_of_lt hlimit] at h
          cases h
    · rw [counted_of_not_exceeds hlimit] at h
      obtain ⟨v, ρ, he, ⟨hsignal, heq⟩ | ⟨hvalue, hbind⟩⟩ := unlessSignal_eq_some h
      · cases heq
        -- The statement gave `null`, which is no signal.
        cases hsignal
      · cases hbind
        exact ⟨hlimit, v, ρ, he, hvalue, rfl⟩
  · rintro ⟨hlimit, v, ρ, he, hvalue, rfl⟩
    rw [counted_of_not_exceeds hlimit, unlessSignal_of_value he hvalue]
    rfl

end Nodes

end Monkey
