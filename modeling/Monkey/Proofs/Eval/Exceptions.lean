import Monkey.Proofs.Eval.Depth
import Monkey.Proofs.Eval.Likeness
import Monkey.Proofs.Eval.Reference

/-!
# `Monkey.Proofs.Eval.Exceptions`: signals are exceptions

Handing signals on gives what throwing and catching gives. `Follows x r`
says that the evaluation `x`, in which interruptions are values, ends
where the evaluation with exceptions `r` does, with the value that stands
for the same outcome and in the same store up to the count of steps.

This needs stores without signals in them: a signal that came out of a
scope or an array would interrupt the one evaluation and not the other.
Stores that runs leave are such stores (`Store.Reached.clean`).

* One lemma for each way in which evaluations are put together:
  `Follows.counted`, `Follows.unlessSignal`, `Follows.perform`,
  `Follows.inScope`, `Follows.each`, `Follows.pairs`.
* `Follows.node` and `follows_evalExpr` go through the tree.
-/

set_option autoImplicit false

namespace Monkey

/-! ### Stores without signals -/

/-- The value is no signal, nor is anything inside it. -/
def Value.Clean : Value → Prop := Value.Throughout fun v => v.isSignal = false

/-- Being `Clean` is hereditary: an array, a hash or a function is so exactly if what it holds is.
The class of values that the proofs below carry along. -/
theorem hereditary_clean : Hereditary Value.Clean := hereditary_throughout fun _ h => h

/-- A `Clean` value is no signal itself, so `unlessSignal` goes on from it. -/
theorem Value.Clean.isSignal {v : Value} (h : v.Clean) : v.isSignal = false := h v .whole

/-- No scope of the store binds a name to a value with a signal in it. -/
def Store.Clean : Store → Prop := Store.Holds Value.Clean

/-- Stores that are reached by running programs, beginning with nothing. Sessions have their own
scopes that lie in no other. -/
inductive Store.Reached : Store → Prop where
  | empty : Reached .empty
  | session {σ : Store} (h : Reached σ) : Reached (σ.addScope none).2
  | run {σ τ : Store} {p : Program} {limit : Option Nat} {depth : Nat} {scope : ScopeId}
      {v : Value} (h : Reached σ) (hrun : p.run limit depth scope σ = some (v, τ)) : Reached τ

/-- No signal is ever bound, nor put into a value, in a store that runs of programs have reached. By
induction on `Reached`, a run at a time. -/
theorem Store.Reached.clean {σ : Store} (h : σ.Reached) : σ.Clean := by
  induction h with
  | empty => exact Store.holds_empty
  | session _ ih => exact ih.addScope none
  | run _ hrun ih => exact (Program.keeps hereditary_clean ih hrun).2

/-- A primitive does the same whatever the count of steps: `withSteps` may be taken out. So the
evaluation that counts and the one that does not may start from stores that differ in it. -/
theorem Primitive.withSteps {V : Value → Prop} {x : Eval Value} (hx : Primitive V x) (σ : Store)
    (k : Nat) : x (σ.withSteps k) = (x σ).map fun r => (r.1, r.2.withSteps k) := by
  cases hx with
  | identifier scope name =>
      rw [evalIdentifier_eq, evalIdentifier_eq, Option.map_some, Store.meaning, Store.meaning,
        Store.lookup_withSteps]
  | _ => rfl

/-! ### Runs with exceptions -/

namespace Reference

/-- What an outcome is among values that may be signals. -/
def asValue : Except Interruption Value → Value
  | .ok v => v
  | .error (.returned v) => .returned v
  | .error (.fault f) => .error f

/-- An outcome without a signal inside it. -/
def Proper : Except Interruption Value → Prop
  | .ok v => v.Clean
  | .error (.returned v) => v.Clean
  | .error (.fault _) => True

/-- The outcome of a primitive operation that gives a value. -/
def raised : Value → Except Interruption Value
  | .error f => .error (.fault f)
  | v => .ok v

/-- The outcome around which a `return` has been caught. -/
def caught : Except Interruption Value → Except Interruption Value
  | .error (.returned v) => .ok v
  | o => o

/-- An outcome that was made from a value by `raised` is that value again, an error or not. -/
theorem asValue_raised (v : Value) : asValue (raised v) = v := by
  cases v <;> rfl

/-- Catching a `return` is settling: `caught` does to outcomes what `settle` does to values, if
there is no signal inside. -/
theorem asValue_caught {o : Except Interruption Value} (h : Proper o) :
    asValue (caught o) = (asValue o).settle := by
  cases o with
  | ok v =>
      have hv := Value.Clean.isSignal h
      cases v with
      | returned => cases hv
      | _ => rfl
  | error i => cases i <;> rfl

/-- What is caught is `Proper` if what was thrown is, since a returned value has no signal inside.
-/
theorem proper_caught {o : Except Interruption Value} (h : Proper o) : Proper (caught o) := by
  cases o with
  | ok v => exact h
  | error i => cases i <;> exact h

/-- Raising a value ends at once, with `raised` of it and the store unchanged. -/
theorem run_raise (v : Value) (σ : Store) : (raise v).run σ = some (raised v, σ) := by
  cases v <;> rfl

/-- Performing a primitive runs it and has its error thrown. The bridge between `Eval`, where errors
are values, and `Flow`, where they are exceptions. -/
theorem run_perform (x : Eval Value) (σ : Store) :
    (perform x).run σ = (x σ).map fun r => (raised r.1, r.2) := by
  -- The two layers of the monad, opened one after the other.
  show (StateT.bind (StateT.map Except.ok x) (ExceptT.bindCont raise)) σ = _
  show ((x σ).bind fun r => some (Except.ok r.1, r.2)).bind _ = _
  cases x σ with
  | none => rfl
  | some r => exact run_raise r.1 r.2

/-- Catching a `return` runs what is inside and applies `caught` to its outcome. -/
theorem run_catchReturn (r : Flow Value) (σ : Store) :
    (catchReturn r).run σ = (r.run σ).map fun a => (caught a.1, a.2) := by
  show (r.run σ).bind _ = _
  cases r.run σ with
  | none => rfl
  | some a =>
      obtain ⟨o, τ⟩ := a
      cases o with
      | ok v => rfl
      | error i => cases i <;> rfl

end Reference

/-! ### Following -/

open Reference in
/-- The evaluation `x`, in which interruptions are values, does what `r` does: from a store without
signals both end or neither does, with the same outcome, and in the same store up to the count of
steps. -/
structure Follows (x : Eval Value) (r : Flow Value) : Prop where
  ends : ∀ σ k o τ, σ.Clean → r.run σ = some (o, τ) →
    Proper o ∧ τ.Clean ∧ ∃ m, x (σ.withSteps k) = some (asValue o, τ.withSteps m)
  runsOn : ∀ σ k, σ.Clean → r.run σ = none → x (σ.withSteps k) = none

namespace Follows

variable {x : Eval Value} {r : Flow Value}

/-- Steps are counted on one side only, and without a limit counting never cuts anything short.
`Follows` allows the stores to differ in the count. -/
theorem counted (h : Follows x r) : Follows (counted none x) r := by
  constructor
  · intro σ k o τ hσ hr
    exact h.ends σ (k + 1) o τ hσ hr
  · intro σ k hσ hr
    exact h.runsOn σ (k + 1) hσ hr

/-- A primitive operation has its error thrown, and its answer is `Clean` by `Primitive.keeps`. -/
theorem perform (hx : Primitive Value.Clean x) : Follows x (Reference.perform x) := by
  constructor
  · intro σ k o τ hσ hr
    rw [Reference.run_perform, Option.map_eq_some_iff] at hr
    obtain ⟨⟨v, τ'⟩, hv, heq⟩ := hr
    cases heq
    obtain ⟨hanswers, hτ⟩ := hx.keeps hereditary_clean hσ hv
    refine ⟨?_, hτ, k, ?_⟩
    · -- An error is thrown; anything else the operation has answered without signals.
      cases v with
      | error => trivial
      | _ => exact hanswers.resolve_left (by simp [Value.isError])
    · rw [hx.withSteps, hv, Option.map_some, Reference.asValue_raised]
  · intro σ k _ hr
    rw [Reference.run_perform, Option.map_eq_none_iff] at hr
    rw [hx.withSteps, hr, Option.map_none]

/-- An error that an operator reports is thrown by `Reference.raise`, and any other answer is an
outcome by itself. -/
theorem raise {v : Value} (h : v.Answers Value.Clean) : Follows (pure v) (Reference.raise v) :=
  .perform (.give h)

/-- A value without signals is an outcome by itself, in the same store, so `pure` follows `pure`. -/
theorem value {v : Value} (h : v.Clean) : Follows (pure v) (pure v) := by
  have hraise : Reference.raise v = pure v := by
    cases v with
    | error f => exact absurd h.isSignal (by simp [Value.isSignal])
    | _ => rfl
  rw [← hraise]
  exact .raise (.inr h)

/-- A value on its way to a caller is thrown: `returned` on the one side is the exception on the
other. -/
theorem returned {v : Value} (h : v.Clean) :
    Follows (pure (.returned v)) (throw (.returned v)) := by
  constructor
  · intro σ k o τ hσ hr
    cases hr
    exact ⟨h, hσ, k, rfl⟩
  · intro σ k _ hr
    cases hr

/-- Handing on a signal is abandoning what stands behind: `unlessSignal` is the bind of exceptions.
In both directions of ending the first part decides whether there is a second. -/
theorem unlessSignal {f : Value → Eval Value} {g : Value → Flow Value} (h : Follows x r)
    (hnext : ∀ v, v.Clean → Follows (f v) (g v)) : Follows (unlessSignal x f) (r >>= g) := by
  have hbind : ∀ σ, (r >>= g).run σ = (r.run σ).bind fun a => ExceptT.bindCont g a.1 a.2 :=
    fun _ => rfl
  constructor
  · intro σ k o τ hσ hr
    rw [hbind, Option.bind_eq_some_iff] at hr
    obtain ⟨⟨first, ρ⟩, hfirst, hrest⟩ := hr
    obtain ⟨hproper, hρ, m, hx⟩ := h.ends σ k first ρ hσ hfirst
    cases first with
    | ok v =>
        -- The store is free of signals again, so the rest is followed from there.
        rw [unlessSignal_of_value hx hproper.isSignal]
        exact (hnext v hproper).ends ρ m o τ hρ hrest
    | error i =>
        -- What stands behind is abandoned: the outcome of the first part is that of the whole.
        cases hrest
        refine ⟨hproper, hρ, m, unlessSignal_of_isSignal hx ?_⟩
        cases i <;> rfl
  · intro σ k hσ hr
    rw [hbind] at hr
    cases hfirst : r.run σ with
    | none => exact unlessSignal_of_none (h.runsOn σ k hσ hfirst)
    | some a =>
        obtain ⟨first, ρ⟩ := a
        obtain ⟨hproper, hρ, m, hx⟩ := h.ends σ k first ρ hσ hfirst
        rw [hfirst, Option.bind_some] at hr
        cases first with
        | ok v =>
            rw [unlessSignal_of_value hx hproper.isSignal]
            exact (hnext v hproper).runsOn ρ m hρ hr
        | error i => cases hr

/-- A call catches what is returned from the body by `catchReturn`, and nothing else. Entering the
scope is the same on both sides, up to the count of steps. -/
theorem inScope (outer : ScopeId) (names : List String) {args : List Value}
    (hargs : ∀ v ∈ args, v.Clean) {body : ScopeId → Eval Value} {body' : ScopeId → Flow Value}
    (h : ∀ scope, Follows (body scope) (body' scope)) :
    Follows (inScope outer names args body) (do
      let frame ← Eval.newScope (some outer)
      modify (·.bindAll frame names args)
      Reference.catchReturn (body' frame)) := by
  -- The three actions before the body always succeed, so they amount to `Store.enter`.
  have hrun : ∀ σ, (do
      let frame ← Eval.newScope (some outer)
      modify (·.bindAll frame names args)
      Reference.catchReturn (body' frame) : Flow Value).run σ =
        ((body' σ.scopes.size).run (σ.enter outer names args)).map
          fun a => (Reference.caught a.1, a.2) := fun σ =>
    Reference.run_catchReturn (body' σ.scopes.size) (σ.enter outer names args)
  constructor
  · intro σ k o τ hσ hr
    rw [hrun, Option.map_eq_some_iff] at hr
    obtain ⟨⟨last, τ'⟩, hlast, heq⟩ := hr
    cases heq
    obtain ⟨hproper, hτ, m, hx⟩ :=
      (h σ.scopes.size).ends _ k last τ' (hσ.enter outer names hargs) hlast
    rw [← Store.enter_withSteps] at hx
    refine ⟨Reference.proper_caught hproper, hτ, m, ?_⟩
    rw [Reference.asValue_caught hproper]
    exact inScope_of_some hx
  · intro σ k hσ hr
    rw [hrun, Option.map_eq_none_iff] at hr
    have hx := (h σ.scopes.size).runsOn _ k (hσ.enter outer names hargs) hr
    rw [← Store.enter_withSteps] at hx
    exact inScope_of_none hx

variable {eval : Evaluator} {eval' : Reference.Evaluator}

/-- Gathering the values of expressions one by one is mapping over them by `mapM`. By induction on
the list, with what comes behind left free. -/
theorem each (h : ∀ scope e, Follows (eval scope e) (eval' scope e)) (scope : ScopeId)
    (es : List Expr) {next : List Value → Eval Value} {next' : List Value → Flow Value}
    (hnext : ∀ vs, (∀ v ∈ vs, v.Clean) → Follows (next vs) (next' vs)) :
    Follows (evalEach eval scope es >>= orSignal next) (es.mapM (eval' scope) >>= next') := by
  induction es generalizing next next' with
  | nil =>
      rw [evalEach_nil_bind, List.mapM_nil, pure_bind]
      exact hnext [] fun v hv => absurd hv List.not_mem_nil
  | cons e es ih =>
      rw [evalEach_cons_bind, List.mapM_cons, bind_assoc]
      refine (h scope e).unlessSignal fun v hv => ?_
      rw [bind_assoc]
      simp only [pure_bind]
      -- What is gathered from the others is put behind the first value.
      exact ih fun vs hvs => hnext (v :: vs) (List.forall_mem_cons.2 ⟨hv, hvs⟩)

/-- Filing keys and values one by one is folding over the pairs by `foldlM`. By induction on the
pairs, the table in hand being without signals all the time. -/
theorem pairs (h : ∀ scope e, Follows (eval scope e) (eval' scope e)) (scope : ScopeId)
    (ps : List (Expr × Expr)) {table : Table Value}
    (htable : ∀ p ∈ table.pairs, p.1.Clean ∧ p.2.Clean) {next : Table Value → Eval Value}
    {next' : Table Value → Flow Value}
    (hnext : ∀ t : Table Value, (∀ p ∈ t.pairs, p.1.Clean ∧ p.2.Clean) →
      Follows (next t) (next' t)) :
    Follows (evalPairs eval scope table ps >>= orSignal next)
      (ps.foldlM (Reference.evalPair eval' scope) table >>= next') := by
  induction ps generalizing table with
  | nil =>
      rw [evalPairs_nil_bind, List.foldlM_nil, pure_bind]
      exact hnext table htable
  | cons p ps ih =>
      obtain ⟨k, v⟩ := p
      rw [evalPairs_cons_bind, List.foldlM_cons, bind_assoc, Reference.evalPair, bind_assoc]
      -- On both sides the key is looked at before its value is evaluated.
      refine (h scope k).unlessSignal fun key hkey => ?_
      cases key.hashKey? with
      | none => exact .raise (.inl rfl)
      | some slot =>
          dsimp only
          rw [bind_assoc]
          refine (h scope v).unlessSignal fun value hvalue => ?_
          rw [pure_bind]
          refine ih fun q hq => ?_
          rcases Table.mem_insert hq with rfl | hq
          · exact ⟨hkey, hvalue⟩
          · exact htable q hq

/-- Statements follow if the expressions in them do. A binding is a primitive behind its expression,
and a `return` throws. -/
theorem statement (h : ∀ scope e, Follows (eval scope e) (eval' scope e)) (scope : ScopeId)
    (s : Statement) :
    Follows (evalStatement none eval scope s) (Reference.evalStatement eval' scope s) := by
  refine .counted ?_
  cases s with
  | binding name e =>
      refine (h scope e).unlessSignal fun v hv => ?_
      exact .perform (.bind scope name hv)
  | returning e => exact (h scope e).unlessSignal fun v hv => .returned hv
  | expression e => exact h scope e

/-- Blocks follow if the expressions in them do: a block is a fold over its statements, the value
`last` being what it gives. -/
theorem blockFrom (h : ∀ scope e, Follows (eval scope e) (eval' scope e)) (scope : ScopeId)
    (b : Block) {last : Value} (hlast : last.Clean) :
    Follows (evalBlockFrom none eval scope last b)
      (b.foldlM (fun _ s => Reference.evalStatement eval' scope s) last) := by
  induction b generalizing last with
  | nil => exact .value hlast
  | cons s rest ih =>
      rw [List.foldlM_cons]
      exact (statement h scope s).unlessSignal fun v hv => ih hv

/-- A block follows from null on, as `blockFrom` does from any `Clean` value. -/
theorem block (h : ∀ scope e, Follows (eval scope e) (eval' scope e)) (scope : ScopeId)
    (b : Block) : Follows (evalBlock none eval scope b) (Reference.evalBlock eval' scope b) :=
  blockFrom h scope b hereditary_clean.null

/-- Calls follow if the bodies of functions do. Native functions are primitives, by
`Primitive.builtin`, and anything else that is called is an error. -/
theorem apply (h : ∀ scope e, Follows (eval scope e) (eval' scope e)) (callee : Value)
    {args : List Value} (hargs : ∀ v ∈ args, v.Clean) :
    Follows (applyValue none eval callee args) (Reference.applyValue eval' callee args) := by
  cases callee with
  | function i f =>
      rw [applyValue, Reference.applyValue]
      split
      · -- The body is followed in the scope that both sides open for the call.
        exact .inScope f.scope f.parameters hargs fun frame => block h frame f.body
      · exact .raise (.inl rfl)
  | builtin b => exact .perform (.builtin hereditary_clean b hargs)
  | _ => exact .raise (.inl rfl)

/-- Expressions follow if the expressions in them and the bodies they call do. One case for each
kind of `Expr`, by the lemma for what it does. -/
theorem node (h : ∀ scope e, Follows (eval scope e) (eval' scope e)) (scope : ScopeId)
    (e : Expr) : Follows (evalNode none eval scope e) (Reference.evalNode eval' scope e) := by
  cases e with
  | identifier name => exact .counted (.perform (.identifier scope name))
  | integer n => exact .counted (.value (hereditary_clean.integer n))
  | boolean b => exact .counted (.value (hereditary_clean.boolean b))
  | string content => exact .counted (.value (hereditary_clean.string content))
  | array es =>
      rw [evalNode_array]
      exact .counted (each h scope es fun vs hvs => .perform (.array hvs))
  | hash ps =>
      rw [evalNode_hash]
      refine .counted (pairs h scope ps ?_ fun t ht => .perform (.hash ht))
      intro p hp
      cases hp
  | unary op e =>
      refine .counted ((h scope e).unlessSignal fun v _ => ?_)
      exact .raise (hereditary_clean.downward.unary op v)
  | binary op e f =>
      refine .counted ((h scope e).unlessSignal fun v _ => ?_)
      refine (h scope f).unlessSignal fun w _ => ?_
      exact .raise (hereditary_clean.downward.binary op v w)
  | conditional c b other =>
      refine .counted ((h scope c).unlessSignal fun v _ => ?_)
      split
      · exact block h scope b
      · cases other with
        | none => exact .value hereditary_clean.null
        | some block' => exact block h scope block'
  | function names body => exact .counted (.perform (.function _))
  | call f es =>
      rw [evalNode_call]
      refine .counted ((h scope f).unlessSignal fun callee _ => ?_)
      exact each h scope es fun args hargs => apply h callee hargs
  | index e i =>
      refine .counted ((h scope e).unlessSignal fun v hv => ?_)
      refine (h scope i).unlessSignal fun w _ => ?_
      exact .raise (hereditary_clean.downward.index hv w)

end Follows

/-- Evaluation follows the evaluation with exceptions at every depth. By induction on the depth,
`Follows.node` being the step. -/
theorem follows_evalExpr (depth : Nat) (scope : ScopeId) (e : Expr) :
    Follows (evalExpr none depth scope e) (Reference.evalExpr depth scope e) := by
  induction depth generalizing scope e with
  | zero =>
      constructor
      · intro σ k o τ _ hr
        cases hr
      · intro σ k _ _
        rfl
  | succ depth ih => exact .node ih scope e

/-! ### Runs -/

/-- The value that a run ends with is what an outcome says: the value itself, which is no signal, or
the error of the fault. A `return` does not come out of a program. -/
def Reference.Reports : Except Interruption Value → Value → Prop
  | .ok v, w => w = v ∧ v.isSignal = false
  | .error (.fault f), w => w = .error f
  | .error (.returned _), _ => False

/-- The settled value of a run is what the caught outcome `Reports`: a value, or the error of a
fault. A `return` has been caught by then. -/
theorem Reference.reports_settle {o : Except Interruption Value} (h : Proper o) :
    Reports (caught o) (asValue o).settle := by
  rw [← asValue_caught h]
  cases o with
  | ok v => exact ⟨rfl, Value.Clean.isSignal h⟩
  | error i =>
      cases i with
      | returned v => exact ⟨rfl, Value.Clean.isSignal h⟩
      | fault f => rfl

/-- Running a program without a limit does what running it with exceptions does, from every store
that runs of programs have reached. From `follows_evalExpr` for its statements, since both runs do
nothing else but settle and catch.

Where the run with exceptions ends, with a value or with a fault, the run ends with that value or
with the error of that fault, and leaves the same scopes, the same identities and the same printed
text. Where the run ends, the run with exceptions does too. -/
theorem Program.run_eq_reference (p : Program) {σ : Store} (hσ : σ.Reached) (depth : Nat)
    (scope : ScopeId) :
    (∀ o τ, (Reference.run p depth scope).run σ = some (o, τ) →
      ∃ w k, p.run none depth scope σ = some (w, τ.withSteps k) ∧ Reference.Reports o w) ∧
    ∀ w ρ, p.run none depth scope σ = some (w, ρ) →
      ∃ o τ, (Reference.run p depth scope).run σ = some (o, τ) := by
  have hblock : Follows (evalBlock none (evalExpr none depth) scope p.statements)
      (Reference.evalBlock (Reference.evalExpr depth) scope p.statements) :=
    .block (follows_evalExpr depth) scope p.statements
  constructor
  · intro o τ hreference
    rw [Reference.run, Reference.run_catchReturn, Option.map_eq_some_iff] at hreference
    obtain ⟨⟨last, τ'⟩, hlast, heq⟩ := hreference
    cases heq
    obtain ⟨hproper, -, k, hx⟩ := hblock.ends σ 0 last τ' hσ.clean hlast
    exact ⟨_, k, Program.run_eq_some.2 ⟨_, hx, rfl⟩, Reference.reports_settle hproper⟩
  · intro w ρ hrun
    cases hreference : (Reference.run p depth scope).run σ with
    | some a => exact ⟨a.1, a.2, rfl⟩
    | none =>
        rw [Reference.run, Reference.run_catchReturn, Option.map_eq_none_iff] at hreference
        obtain ⟨last, hx, -⟩ := Program.run_eq_some.1 hrun
        -- The one would not end where the other does.
        have hnone := hblock.runsOn σ 0 hσ.clean hreference
        rw [show σ.withSteps 0 = σ.rewind from rfl, hx] at hnone
        cases hnone

/-- A `return` in a conditional inside an array ends the program before the last element, which
would be an error, is looked at; `run_eq_reference` has both runs end with the 2. -/
theorem Program.run_eq_reference_of_buried_return :
    let p : Program := ⟨[.expression (.array [.integer 1,
      .conditional (.boolean true) [.returning (.integer 2)] none,
      .unary .negate (.boolean true)])]⟩
    let σ := (Store.empty.addScope none).2
    σ.Reached ∧ ∃ k, p.run none 6 0 σ = some (.integer 2, σ.withSteps k) := by
  intro p σ
  have hσ : σ.Reached := .session .empty
  have hreference : (Reference.run p 6 0).run σ = some (.ok (.integer 2), σ) := rfl
  obtain ⟨w, k, hrun, rfl, -⟩ := (run_eq_reference p hσ 6 0).1 _ _ hreference
  exact ⟨hσ, k, hrun⟩

end Monkey
