import Monkey.Proofs.Eval.Sequence

/-!
# `Monkey.Proofs.Eval.Confinement`: whose variables an evaluation changes

Scopes are shared: a function keeps the scope it was made in, and many
functions may keep the same one. Still an evaluation changes no scope but
the one it is given, and there only the names for which a `let` stands in
the tree itself. A `let` in the body of a function binds in the scope of a
call, which nobody has seen before the call.

* `Expr.lets`, `Statement.lets` are the names that a tree binds outside
  the bodies of functions.
* `Confined scope names σ τ` says that from `σ` to `τ` only these names
  have changed, in this scope only; `Store.KeptIn` says that no scope has.
* `Confines` says so of whatever an evaluation leaves. There is one lemma
  for each way in which evaluations are put together.
-/

set_option autoImplicit false

namespace Monkey

/-! ### Names that a tree binds -/

mutual

/-- The names that are bound by a `let` in an expression, outside the bodies of functions. -/
def Expr.lets : Expr → List String
  | .identifier _ => []
  | .integer _ => []
  | .boolean _ => []
  | .string _ => []
  | .array elements => Expr.letsList elements
  | .hash pairs => Expr.letsPairs pairs
  | .unary _ operand => Expr.lets operand
  | .binary _ left right => Expr.lets left ++ Expr.lets right
  | .conditional condition consequence alternative =>
      Expr.lets condition ++ (Statement.letsList consequence ++ Statement.letsBranch alternative)
  | .function _ _ => []
  | .call callee arguments => Expr.lets callee ++ Expr.letsList arguments
  | .index indexed position => Expr.lets indexed ++ Expr.lets position

/-- The names bound in the expressions of a list. -/
def Expr.letsList : List Expr → List String
  | [] => []
  | e :: es => Expr.lets e ++ Expr.letsList es

/-- The names bound in the keys and values of a hash literal. -/
def Expr.letsPairs : List (Expr × Expr) → List String
  | [] => []
  | (key, value) :: pairs => (Expr.lets key ++ Expr.lets value) ++ Expr.letsPairs pairs

/-- The names that are bound by a `let` in a statement, outside the bodies of functions. -/
def Statement.lets : Statement → List String
  | .binding name value => name :: Expr.lets value
  | .returning value => Expr.lets value
  | .expression value => Expr.lets value

/-- The names bound in the statements of a block. -/
def Statement.letsList : List Statement → List String
  | [] => []
  | s :: rest => Statement.lets s ++ Statement.letsList rest

/-- The names bound in a second branch, none if there is none. -/
def Statement.letsBranch : Option (List Statement) → List String
  | none => []
  | some block => Statement.letsList block

end

/-- What an element of a list binds, the list binds: `letsList` joins the `lets` of its members.
`Confines.each` is then used of the whole list. -/
theorem Expr.lets_subset_of_mem {e : Expr} {es : List Expr} (h : e ∈ es) :
    Expr.lets e ⊆ Expr.letsList es := by
  induction h with
  | head es => exact List.subset_append_left _ _
  | tail _ _ ih => exact List.Subset.trans ih (List.subset_append_right _ _)

/-- What a key or a value binds, the hash literal binds, by `letsPairs`. -/
theorem Expr.lets_subset_of_mem_pairs {p : Expr × Expr} {ps : List (Expr × Expr)} (h : p ∈ ps) :
    Expr.lets p.1 ⊆ Expr.letsPairs ps ∧ Expr.lets p.2 ⊆ Expr.letsPairs ps := by
  induction h with
  | head ps =>
      have hpair : Expr.lets p.1 ++ Expr.lets p.2 ⊆ Expr.letsPairs (p :: ps) :=
        List.subset_append_left _ _
      exact ⟨List.Subset.trans (List.subset_append_left _ _) hpair,
        List.Subset.trans (List.subset_append_right _ _) hpair⟩
  | @tail q ps _ ih =>
      have hrest : Expr.letsPairs ps ⊆ Expr.letsPairs (q :: ps) := List.subset_append_right _ _
      exact ⟨List.Subset.trans ih.1 hrest, List.Subset.trans ih.2 hrest⟩

/-- What a statement binds, the block binds, by `letsList`. Both branches of a conditional are such
blocks. -/
theorem Statement.lets_subset_of_mem {s : Statement} {b : Block} (h : s ∈ b) :
    Statement.lets s ⊆ Statement.letsList b := by
  induction h with
  | head b => exact List.subset_append_left _ _
  | tail _ _ ih => exact List.Subset.trans ih (List.subset_append_right _ _)

/-! ### What changes from one store to another -/

/-- Every scope of `σ` is in `τ` as it was. -/
def Store.KeptIn (σ τ : Store) : Prop :=
  ∀ (t : ScopeId) (s : Scope), σ.scopes[t]? = some s → τ.scopes[t]? = some s

/-- Of the scopes of `σ` only `scope` may be another one in `τ`. It lies where it lay, and binds all
names but the given ones to what they were bound to. -/
structure Confined (scope : ScopeId) (names : List String) (σ τ : Store) : Prop where
  others : ∀ (t : ScopeId) (s : Scope), t ≠ scope → σ.scopes[t]? = some s → τ.scopes[t]? = some s
  own : ∀ s : Scope, σ.scopes[scope]? = some s →
    ∃ s', τ.scopes[scope]? = some s' ∧ s'.outer = s.outer ∧ ∀ x, x ∉ names → s'.get? x = s.get? x

namespace Store

variable {σ τ : Store}

/-- If the scopes are the same, each of them is kept, which is what `KeptIn` asks. Counting steps,
giving out identities and printing change the store and no scope. -/
theorem KeptIn.of_scopes_eq (h : τ.scopes = σ.scopes) : σ.KeptIn τ := by
  intro t s hs
  rw [h]
  exact hs

/-- A scope that is kept, and those around it, give every name the meaning it had. `lookup_congr`
asks for the earlier scopes only, and all of these are kept. -/
theorem KeptIn.lookup_eq (h : σ.KeptIn τ) {t : ScopeId} (ht : t < σ.scopes.size) (x : String) :
    τ.lookup t x = σ.lookup t x := by
  refine lookup_congr fun u hu => ?_
  -- Scopes outward are earlier ones, so they are kept as well.
  have hlt : u < σ.scopes.size := Nat.lt_of_le_of_lt hu ht
  have hs : σ.scopes[u]? = some σ.scopes[u] := Array.getElem?_eq_getElem hlt
  rw [hs, h u _ hs]

end Store

namespace Confined

variable {scope : ScopeId} {names : List String} {σ ρ τ : Store}

/-- Where no scope has changed, every change is `Confined`, to any scope and any names. -/
theorem of_keptIn (h : σ.KeptIn τ) : Confined scope names σ τ where
  others t s _ hs := h t s hs
  own s hs := ⟨s, h scope s hs, rfl, fun _ _ => rfl⟩

/-- Changes one after another are `Confined` together if each of them is: the scope lies where it
lay, and the names left alone are left alone twice. -/
theorem trans (h : Confined scope names σ ρ) (h' : Confined scope names ρ τ) :
    Confined scope names σ τ where
  others t s ht hs := h'.others t s ht (h.others t s ht hs)
  own s hs := by
    obtain ⟨s₁, hs₁, houter₁, hget₁⟩ := h.own s hs
    obtain ⟨s₂, hs₂, houter₂, hget₂⟩ := h'.own s₁ hs₁
    exact ⟨s₂, hs₂, houter₂.trans houter₁, fun x hx => (hget₂ x hx).trans (hget₁ x hx)⟩

/-- More names, `names'`, are allowed to change. So what a part changes counts as a change of the
whole. -/
theorem mono {names' : List String} (h : Confined scope names σ τ) (hsub : names ⊆ names') :
    Confined scope names' σ τ where
  others := h.others
  own s hs := by
    obtain ⟨s', hs', houter, hget⟩ := h.own s hs
    exact ⟨s', hs', houter, fun x hx => hget x fun hmem => hx (hsub hmem)⟩

/-- Binding a name changes that name in that scope, and by `scope_of_bind` nothing else. -/
theorem bind {name : String} (h : name ∈ names) (v : Value) :
    Confined scope names σ (σ.bind scope name v) where
  others t s ht hs := by
    rw [Store.bind, Array.getElem?_modify, if_neg (Ne.symm ht)]
    exact hs
  own s hs := by
    refine ⟨s.set name v, ?_, rfl, ?_⟩
    · rw [Store.bind, Array.getElem?_modify, if_pos rfl, hs]
      rfl
    · intro x hx
      have hne : x ≠ name := fun heq => hx (heq ▸ h)
      rw [Scope.get?_set, if_neg hne]

/-- Binding names to arguments changes these names in that scope. By induction on the two lists, as
`Store.bindAll` stops with whichever ends first. -/
theorem bindAll (scope : ScopeId) (names : List String) (args : List Value) (σ : Store) :
    Confined scope names σ (σ.bindAll scope names args) := by
  fun_induction Store.bindAll σ scope names args with
  | case1 σ name names v vs ih =>
      -- The first name is one of those that may change, and the others are too.
      exact (bind List.mem_cons_self v).trans (ih.mono (List.subset_cons_self _ _))
  | case2 => exact of_keptIn fun _ _ hs => hs

/-- What is `Confined` to a scope that was not there before leaves every scope that was. It turns
the bindings of a call into no change at all for its caller. -/
theorem keptIn (h : Confined σ.scopes.size names σ τ) : σ.KeptIn τ := by
  intro t s hs
  have ht : t < σ.scopes.size := (Array.getElem?_eq_some_iff.1 hs).1
  exact h.others t s (Nat.ne_of_lt ht) hs

end Confined

/-- A call opens a scope of its own and binds its parameters there, so every scope that was there is
kept; the new one is behind them in `scopes`. -/
theorem Store.keptIn_enter (σ : Store) (outer : ScopeId) (names : List String)
    (args : List Value) : σ.KeptIn (σ.enter outer names args) := by
  intro t s hs
  have ht : t < σ.scopes.size := (Array.getElem?_eq_some_iff.1 hs).1
  have hpush : (σ.addScope (some outer)).2.scopes[t]? = some s := by
    show (σ.scopes.push ⟨[], some outer⟩)[t]? = some s
    rw [Array.getElem?_push, if_neg (Nat.ne_of_lt ht)]
    exact hs
  exact (Confined.bindAll σ.scopes.size names args _).others t s (Nat.ne_of_lt ht) hpush

/-! ### Evaluations -/

/-- Whatever the evaluation leaves has changed only the given names in the given scope. -/
def Confines (scope : ScopeId) (names : List String) (x : Eval Value) : Prop :=
  ∀ σ v τ, x σ = some (v, τ) → Confined scope names σ τ

namespace Confines

variable {scope : ScopeId} {names : List String} {x : Eval Value}

/-- More names are allowed to change, as for `Confined`. -/
theorem mono {names' : List String} (h : Confines scope names x) (hsub : names ⊆ names') :
    Confines scope names' x := fun σ v τ hx => (h σ v τ hx).mono hsub

/-- An evaluation that leaves the scopes alone `Confines` its changes to any scope and names, having
none. -/
theorem of_scopes_eq (h : ∀ σ v τ, x σ = some (v, τ) → τ.scopes = σ.scopes) :
    Confines scope names x := fun σ v τ hx => .of_keptIn (.of_scopes_eq (h σ v τ hx))

/-- Giving a value changes nothing, so `pure` confines itself to any scope and names. -/
theorem give (v : Value) : Confines scope names (pure v) := by
  refine of_scopes_eq fun σ w τ h => ?_
  obtain ⟨-, rfl⟩ := pure_eq_some.1 h
  rfl

/-- Counting a step touches no scope, so `counted` changes what the evaluation behind it changes. -/
theorem counted (limit : Option Nat) (h : Confines scope names x) :
    Confines scope names (counted limit x) := by
  intro σ v τ hx
  by_cases hlimit : Exceeds (σ.steps + 1) limit
  · cases limit with
    | none => exact hlimit.elim
    | some n =>
        rw [counted_of_lt hlimit] at hx
        cases hx
        exact .of_keptIn (.of_scopes_eq rfl)
  · rw [counted_of_not_exceeds hlimit] at hx
    -- The count of steps is no part of any scope.
    have htick : σ.KeptIn σ.tick := .of_scopes_eq rfl
    exact (Confined.of_keptIn htick).trans (h σ.tick v τ hx)

/-- What goes on from a value changes what either part changes; behind a signal it is only the first
part. The sequencing rule for `Confines`, by `Confined.trans`. -/
theorem unlessSignal {next : Value → Eval Value} (h : Confines scope names x)
    (hnext : ∀ v, Confines scope names (next v)) :
    Confines scope names (unlessSignal x next) := by
  intro σ v τ hx
  obtain ⟨w, ρ, hfirst, ⟨-, heq⟩ | ⟨-, hrest⟩⟩ := unlessSignal_eq_some hx
  · cases heq
    exact h σ v τ hfirst
  · exact (h σ w ρ hfirst).trans (hnext w ρ v τ hrest)

/-- Two parts that change names of their own change the names of both: `unlessSignal` for
evaluations whose `lets` are put together. -/
theorem append {names' : List String} {next : Value → Eval Value} (h : Confines scope names x)
    (hnext : ∀ v, Confines scope names' (next v)) :
    Confines scope (names ++ names') (Monkey.unlessSignal x next) :=
  (h.mono (List.subset_append_left names names')).unlessSignal fun v =>
    (hnext v).mono (List.subset_append_right names names')

/-- Looking up a name changes nothing, whether or not it is found: `evalIdentifier_eq` gives back
the store. -/
theorem identifier (t : ScopeId) (name : String) :
    Confines scope names (evalIdentifier t name) := by
  refine of_scopes_eq fun σ v τ h => ?_
  rw [evalIdentifier_eq] at h
  cases h
  rfl

/-- Taking an identity for a new value by `addIdentity` touches no scope: arrays, hashes and
functions are made in this way. -/
theorem fresh (make : Identity → Value) :
    Confines scope names fun σ => some (make σ.addIdentity.1, σ.addIdentity.2) := by
  refine of_scopes_eq fun σ v τ h => ?_
  cases h
  rfl

/-- A native function that works on arrays `Confines` what it does on their elements; anything else
is an error. -/
theorem withElements (b : Builtin) (v : Value) {next : List Value → Eval Value}
    (hnext : ∀ vs, Confines scope names (next vs)) :
    Confines scope names (b.withElements v next) := by
  cases v with
  | array i vs => exact hnext vs
  | _ => exact give _

/-- No native function touches a scope. By the function and its arguments, as `Builtin.apply` tells
them apart. -/
theorem builtin (b : Builtin) (args : List Value) : Confines scope names (b.apply args) := by
  unfold Builtin.apply
  split
  · -- `puts` adds to the printed text.
    refine of_scopes_eq fun σ v τ h => ?_
    cases h
    rfl
  · exact give _
  · exact withElements _ _ fun vs => give _
  · exact withElements _ _ fun vs => give _
  · -- `rest` makes a new array, unless there is nothing left.
    refine withElements _ _ fun vs => ?_
    cases vs with
    | nil => exact give _
    | cons w ws => exact fresh fun i => .array i ws
  · exact withElements _ _ fun vs => fresh fun i => .array i _
  · exact give _
  · exact give _

/-! #### One level of evaluation -/

section Level

variable {limit : Option Nat} {eval : Evaluator}

/-- A loop over expressions changes what they change. By induction on the list `es`; the hypothesis
gives all members the same names, those of the list. -/
theorem each {es : List Expr} (h : ∀ e ∈ es, Confines scope names (eval scope e))
    {next : List Value → Eval Value} (hnext : ∀ vs, Confines scope names (next vs)) :
    Confines scope names (evalEach eval scope es >>= orSignal next) := by
  induction es generalizing next with
  | nil =>
      rw [evalEach_nil_bind]
      exact hnext []
  | cons e es ih =>
      rw [evalEach_cons_bind]
      obtain ⟨he, hes⟩ := List.forall_mem_cons.1 h
      exact he.unlessSignal fun v => ih hes fun vs => hnext (v :: vs)

/-- A loop over pairs changes what their keys and values change. By induction on the pairs with
`table` left free, since it grows on the way. -/
theorem pairs {ps : List (Expr × Expr)}
    (h : ∀ p ∈ ps, Confines scope names (eval scope p.1) ∧ Confines scope names (eval scope p.2))
    (table : Table Value) {next : Table Value → Eval Value}
    (hnext : ∀ t, Confines scope names (next t)) :
    Confines scope names (evalPairs eval scope table ps >>= orSignal next) := by
  induction ps generalizing table with
  | nil =>
      rw [evalPairs_nil_bind]
      exact hnext table
  | cons p ps ih =>
      obtain ⟨k, v⟩ := p
      rw [evalPairs_cons_bind]
      obtain ⟨⟨hk, hv⟩, hps⟩ := List.forall_mem_cons.1 h
      -- A key that cannot be used ends the loop, and has changed what it has changed.
      refine hk.unlessSignal fun key => ?_
      cases key.hashKey? with
      | none => exact give _
      | some slot => exact hv.unlessSignal fun value => ih hps _

/-- Statements one after another change what each of them changes; a signal only makes them fewer.
By induction on the block, with `unlessSignal` between its statements. -/
theorem blockFrom {b : Block}
    (h : ∀ s ∈ b, Confines scope names (evalStatement limit eval scope s)) (last : Value) :
    Confines scope names (evalBlockFrom limit eval scope last b) := by
  induction b generalizing last with
  | nil => exact give last
  | cons s rest ih =>
      obtain ⟨hs, hrest⟩ := List.forall_mem_cons.1 h
      exact hs.unlessSignal fun v => ih hrest v

variable (h : ∀ scope e, Confines scope (Expr.lets e) (eval scope e))
include h

/-- A statement changes the names for which there is a `let` in it: its own name for a binding, and
those of its expression. -/
theorem statement (scope : ScopeId) (s : Statement) :
    Confines scope s.lets (evalStatement limit eval scope s) := by
  refine counted limit ?_
  cases s with
  | binding name e =>
      rw [Statement.lets]
      -- The value may bind names itself, before its own name is bound.
      refine ((h scope e).mono (List.subset_cons_self _ _)).unlessSignal fun v => ?_
      intro σ w τ hbind
      cases hbind
      exact .bind List.mem_cons_self v
  | returning e =>
      rw [Statement.lets]
      exact (h scope e).unlessSignal fun v => give _
  | expression e =>
      rw [Statement.lets]
      exact h scope e

/-- A block changes the names for which there is a `let` in one of its statements, by `blockFrom`.
-/
theorem block (scope : ScopeId) (b : Block) :
    Confines scope (Statement.letsList b) (evalBlock limit eval scope b) :=
  blockFrom (fun s hs => (statement h scope s).mono (Statement.lets_subset_of_mem hs)) .null

/-- A call changes no scope that was there before: its body binds names in the scope of the call,
which `Confined.keptIn` then lets go of. -/
theorem apply (callee : Value) (args : List Value) {σ τ : Store} {v : Value}
    (hx : applyValue limit eval callee args σ = some (v, τ)) : σ.KeptIn τ := by
  have hconfined : ∃ names, Confined σ.scopes.size names σ τ := by
    cases callee with
    | function i f =>
        rw [applyValue] at hx
        split at hx
        · -- The scope of the call is the first that `σ` does not have.
          obtain ⟨w, ρ, hbody, heq⟩ := inScope_eq_some hx
          cases heq
          have hentered := σ.keptIn_enter f.scope f.parameters args
          exact ⟨_, (Confined.of_keptIn hentered).trans (block h _ f.body _ w _ hbody)⟩
        · exact ⟨[], give _ σ v τ hx⟩
    | builtin b => exact ⟨[], builtin b args σ v τ hx⟩
    | _ => exact ⟨[], give _ σ v τ hx⟩
  obtain ⟨names, hconfined⟩ := hconfined
  exact hconfined.keptIn

/-- An expression changes the names for which there is a `let` in it. One case for each kind of
expression; calls are covered by `apply`, whatever the body binds. -/
theorem node (scope : ScopeId) (e : Expr) :
    Confines scope (Expr.lets e) (evalNode limit eval scope e) := by
  cases e with
  | identifier name => exact counted limit (identifier scope name)
  | integer n => exact counted limit (give _)
  | boolean b => exact counted limit (give _)
  | string content => exact counted limit (give _)
  | array es =>
      rw [evalNode_array]
      refine counted limit (each (fun e he => ?_) fun vs => fresh fun i => .array i vs)
      exact (h scope e).mono (Expr.lets_subset_of_mem he)
  | hash ps =>
      rw [evalNode_hash]
      refine counted limit (pairs (fun p hp => ?_) .empty fun t => fresh fun i => .hash i t)
      obtain ⟨hkey, hvalue⟩ := Expr.lets_subset_of_mem_pairs hp
      exact ⟨(h scope p.1).mono hkey, (h scope p.2).mono hvalue⟩
  | unary op e => exact counted limit ((h scope e).unlessSignal fun v => give _)
  | binary op e f =>
      rw [Expr.lets]
      refine counted limit ((h scope e).append fun v => ?_)
      exact (h scope f).unlessSignal fun w => give _
  | conditional c b other =>
      rw [Expr.lets]
      refine counted limit ((h scope c).append fun v => ?_)
      -- Only one of the branches is taken, but either may be.
      split
      · exact (block h scope b).mono (List.subset_append_left _ _)
      · cases other with
        | none => exact give _
        | some block' => exact (block h scope block').mono (List.subset_append_right _ _)
  | function names body => exact counted limit (fresh fun i => .function i _)
  -- What the callee and the arguments bind counts; what the body binds does not.
  | call f es =>
      rw [evalNode_call, Expr.lets]
      refine counted limit ((h scope f).append fun v => each (fun e he => ?_) ?_)
      · exact (h scope e).mono (Expr.lets_subset_of_mem he)
      · intro args σ w τ hx
        exact .of_keptIn (apply h v args hx)
  | index e i =>
      rw [Expr.lets]
      refine counted limit ((h scope e).append fun v => ?_)
      exact (h scope i).unlessSignal fun w => give _

end Level

end Confines

/-- An expression, at any depth, changes the names for which there is a `let` in it. By induction on
the depth, `node` being the step. -/
theorem confines_evalExpr (limit : Option Nat) (depth : Nat) (scope : ScopeId) (e : Expr) :
    Confines scope (Expr.lets e) (evalExpr limit depth scope e) := by
  induction depth generalizing scope e with
  | zero =>
      intro σ v τ hx
      cases hx
  | succ depth ih => exact .node ih scope e

/-- Evaluation changes nobody else's variables, however it ends. The three parts are
`confines_evalExpr`, and `Confines.statement` and `Confines.apply` on top of it.

What evaluating an expression or a statement in a scope leaves of the scopes that were there before
is confined to that scope and to the names for which a `let` stands in the tree outside the bodies
of functions. A call, whatever its body binds, leaves all these scopes as they were, and every name
means in each of them what it meant. -/
theorem evaluation_confined (limit : Option Nat) (depth : Nat) :
    (∀ scope e σ v τ, evalExpr limit depth scope e σ = some (v, τ) →
      Confined scope (Expr.lets e) σ τ) ∧
    (∀ scope s σ v τ, evalStatement limit (evalExpr limit depth) scope s σ = some (v, τ) →
      Confined scope (Statement.lets s) σ τ) ∧
    ∀ callee args σ v τ, applyValue limit (evalExpr limit depth) callee args σ = some (v, τ) →
      σ.KeptIn τ ∧ ∀ t < σ.scopes.size, ∀ x, τ.lookup t x = σ.lookup t x := by
  have hexpr := confines_evalExpr limit depth
  refine ⟨hexpr, Confines.statement hexpr, fun callee args σ v τ hx => ?_⟩
  have hkept := Confines.apply hexpr callee args hx
  exact ⟨hkept, fun t ht x => hkept.lookup_eq ht x⟩

/-- A function that calls itself binds a name of the scope it was made in anew, and its argument is
computed with a `let` in a branch. The statement `let y = f(if (true) { let z = 1; z })` changes `y`
and `z`, and the call changes nothing. -/
theorem evaluation_confined_of_rebinding :
    let body : Block := [.binding "x" (.integer 9), .binding "n" (.binary .subtract
      (.identifier "n") (.integer 1)), .expression (.conditional
        (.binary .less (.identifier "n") (.integer 0)) [.returning (.identifier "x")]
        (some [.expression (.call (.identifier "f") [.identifier "n"])]))]
    let f : Value := .function 0 ⟨["n"], body, 0⟩
    let σ : Store := ⟨#[⟨[("x", .integer 5), ("n", .integer 7), ("f", f)], none⟩], 1, "", 0⟩
    let s : Statement := .binding "y" (.call (.identifier "f") [.conditional (.boolean true)
      [.binding "z" (.integer 1), .expression (.identifier "z")] none])
    (∃ v τ, evalStatement none (evalExpr none 20) 0 s σ = some (v, τ) ∧
      Confined 0 ["y", "z"] σ τ) ∧
    ∃ v τ, applyValue none (evalExpr none 20) f [.integer 1] σ = some (v, τ) ∧
      σ.KeptIn τ ∧ τ.lookup 0 "x" = σ.lookup 0 "x" := by
  intro body f σ s
  obtain ⟨-, hstatement, hcall⟩ := evaluation_confined none 20
  have hruns : (evalStatement none (evalExpr none 20) 0 s σ).isSome = true := by
    subst s σ f body
    decide +kernel
  have hcalls : (applyValue none (evalExpr none 20) f [.integer 1] σ).isSome = true := by
    subst σ f body
    decide +kernel
  obtain ⟨⟨v, τ⟩, hx⟩ := Option.isSome_iff_exists.1 hruns
  obtain ⟨⟨w, ρ⟩, hy⟩ := Option.isSome_iff_exists.1 hcalls
  obtain ⟨hkept, hlookup⟩ := hcall f _ σ w ρ hy
  exact ⟨⟨v, τ, hx, hstatement 0 s σ v τ hx⟩, w, ρ, hy, hkept, hlookup 0 Nat.zero_lt_one "x"⟩

end Monkey
