import Monkey.Proofs.Eval.Identity
import Monkey.Proofs.Eval.ReadBack
import Monkey.Proofs.Syntax.RoundTrip

/-!
# `Monkey.Proofs.Eval.FunctionText`: a function is shown as its own source

A function takes its parameters and its body from a function literal, and
evaluation comes upon literals only in the program and in the bodies of
functions. So if the program was read from a text, and every function in
the store can be spelt, all functions that are met can be spelt: they are
shown by a text that is read as the literal they came from.

* `Value.Spellable` says that the functions in a value can be spelt, and
  `Report.Spellable` that nothing else has been seen or has come out.
* `Watched.KeepsSpelling` is what is proved of an evaluation, part by part;
  `Watched.KeepsSpelling.node` is one level of it and
  `Program.keepsSpelling` a whole run.
* `Transcript` tells what has been seen of programs that were read from
  texts, up to some moment; `Transcript.function_inspect` is the result.
-/

set_option autoImplicit false

namespace Monkey

/-! ### Functions that can be spelt -/

/-- The literal of the function can be spelt. -/
def Closure.Spellable (f : Closure) : Prop := Expr.Spellable (.function f.parameters f.body)

/-- Every function in the value can be spelt. -/
def Value.Spellable (v : Value) : Prop := v.Functions Closure.Spellable

namespace Value.Spellable

/-- Values in which every function can be spelt are `DownwardClosed`: operators, indexing and native
functions give nothing else when they are given such values. -/
theorem downwardClosed : DownwardClosed Value.Spellable := Functions.downwardClosed _

/-- There is no function in an error, so an answer is `Spellable` in any case. -/
theorem of_answers {v : Value} (h : v.Answers Value.Spellable) : v.Spellable := by
  rcases h with herror | h
  · cases v with
    | error fault =>
        intro i f hf
        cases hf
    | _ => cases herror
  · exact h

/-- An error is `Spellable`, there being no function in it. -/
theorem of_isError {v : Value} (h : v.isError = true) : v.Spellable := of_answers (.inl h)

/-- A value on its way to a caller has the functions of the value, since `PartOf` goes through the
wrapper and adds no function of its own. -/
theorem returned {v : Value} (h : v.Spellable) : (Value.returned v).Spellable := by
  intro i f hf
  cases hf with
  | returned hf => exact h i f hf

/-- Settling adds no function: it takes a value out of `returned` or leaves it. -/
theorem settle {v : Value} (h : v.Spellable) : v.settle.Spellable := by
  cases v with
  | returned v => exact downwardClosed.returned h
  | _ => exact h

end Value.Spellable

/-- Every function that the sighting shows can be spelt. -/
def Sighting.Spellable : Sighting → Prop
  | .state σ => σ.Holds Value.Spellable
  | .arguments args => ∀ v ∈ args, v.Spellable
  | .result v => v.Spellable

/-- A function that is shown, in the sense of `Sighting.Shows`, by such a sighting can be spelt, at
whatever depth of a value it stands. -/
theorem Sighting.Spellable.of_shows {s : Sighting} (h : s.Spellable) {i : Identity} {f : Closure}
    (hf : s.Shows (.function i f)) : f.Spellable := by
  cases s with
  | state σ =>
      obtain ⟨scope, hscope, b, hb, hpart⟩ := hf
      exact h scope hscope b hb i f hpart
  | arguments args =>
      obtain ⟨v, hv, hpart⟩ := hf
      exact h v hv i f hpart
  | result v => exact h i f hf

/-! ### Reports -/

/-- No function has been seen that cannot be spelt, and none has come out or is left. -/
structure Report.Spellable (r : Report) : Prop where
  seen : ∀ s ∈ r.seen, s.Spellable
  ended : ∀ v τ, r.outcome = some (v, τ) → v.Spellable ∧ τ.Holds Value.Spellable

namespace Report.Spellable

variable {r : Report}

/-- A report that has ended and seen nothing is `Spellable` if its value and its store are. -/
theorem of_ended {v : Value} {τ : Store} (hv : v.Spellable) (hτ : τ.Holds Value.Spellable) :
    (Report.ended v τ).Spellable where
  seen _ hs := by cases hs
  ended _ _ h := by
    cases h
    exact ⟨hv, hτ⟩

/-- Earlier sightings may be put in front of a `Spellable` report if they are `Spellable`
themselves. -/
theorem after {earlier : List Sighting} (hearlier : ∀ s ∈ earlier, s.Spellable)
    (h : r.Spellable) : (r.after earlier).Spellable where
  seen := List.forall_mem_append.2 ⟨hearlier, h.seen⟩
  ended := h.ended

/-- A report that goes on from a `Spellable` one is `Spellable` if what it goes on with is, from
whatever value and store the first one left. -/
theorem andThen {next : Value → Store → Report} (h : r.Spellable)
    (hnext : ∀ v τ, v.Spellable → τ.Holds Value.Spellable → (next v τ).Spellable) :
    (r.andThen next).Spellable := by
  unfold Report.andThen
  split
  · exact h
  · rename_i v τ houtcome
    obtain ⟨hv, hτ⟩ := h.ended v τ houtcome
    exact (hnext v τ hv hτ).after h.seen

end Report.Spellable

/-! ### Parts of evaluations -/

/-- From a store in which every function can be spelt, nothing else is seen. -/
def Watched.KeepsSpelling (x : Watched) : Prop :=
  ∀ σ, σ.Holds Value.Spellable → (x σ).Spellable

namespace Watched.KeepsSpelling

/-- Giving a value that can be spelt shows nothing else, and nothing is seen on the way. -/
theorem give {v : Value} (h : v.Spellable) : KeepsSpelling (.unseen (pure v)) :=
  fun _ hσ => .of_ended h hσ

/-- Giving the answer of an operator keeps to what can be spelt, an error included: by
`Value.Answers` the answer is of the class or an error, which holds no function. -/
theorem answer {v : Value} (h : v.Answers Value.Spellable) : KeepsSpelling (.unseen (pure v)) :=
  give (.of_answers h)

/-- A value that is made may hold what it is made of, under any identity `i` that the store gives
out. -/
theorem make {x : Eval Value} {make : Identity → Value} (h : ∀ i, (make i).Spellable)
    (hx : ∀ σ, x σ = some (make σ.identities, σ.addIdentity.2)) :
    KeepsSpelling (.unseen x) := fun σ hσ => by
  show (Report.mk [] (x σ)).Spellable
  rw [hx σ]
  exact .of_ended (h _) hσ

/-- Looking up a name shows what is bound in the store, where every function can be spelt;
`Store.meaning` gives a builtin or an error otherwise. -/
theorem identifier (scope : ScopeId) (name : String) :
    KeepsSpelling (.unseen (evalIdentifier scope name)) := fun σ hσ => by
  show (Report.mk [] (evalIdentifier scope name σ)).Spellable
  rw [evalIdentifier_eq]
  refine .of_ended ?_ hσ
  -- A native function is no function of the language.
  unfold Store.meaning
  split
  · rename_i hv
    exact hσ.lookup hv
  · split
    · exact Value.Spellable.downwardClosed.builtin _
    · exact .of_isError rfl

/-- Binding a value that can be spelt leaves a store in which every function can, as `Holds.bind`
says of any class. -/
theorem binding (scope : ScopeId) (name : String) {v : Value} (h : v.Spellable) :
    KeepsSpelling (.unseen do modify (·.bind scope name v); pure .null) := fun _ hσ =>
  .of_ended Value.Spellable.downwardClosed.null (hσ.bind scope name h)

/-- A native function answers, makes an array of what it was given, or prints. By `Native.builtin`,
so its functions are those of its arguments. -/
theorem builtin (b : Builtin) {args : List Value} (h : ∀ v ∈ args, v.Spellable) :
    KeepsSpelling (.unseen (b.apply args)) := by
  have hnative := Native.builtin Value.Spellable.downwardClosed b h
  generalize b.apply args = x at hnative
  cases hnative with
  | give hanswers => exact answer hanswers
  | array hvs => exact make (fun i => Value.Functions.array hvs i) fun _ => rfl
  | print text => exact fun σ hσ => .of_ended Value.Spellable.downwardClosed.null hσ

variable {x : Watched}

/-- Watching an evaluation by `Watched.observed` adds the store it starts in to what is seen, and
that store is spelt by assumption. -/
theorem observed (h : KeepsSpelling x) : KeepsSpelling (.observed x) := fun σ hσ => by
  refine .after (List.forall_mem_singleton.2 hσ) ((h σ hσ).andThen fun v τ hv hτ => ?_)
  refine .after ?_ (.of_ended hv hτ)
  exact List.forall_mem_cons.2 ⟨hv, List.forall_mem_singleton.2 hτ⟩

/-- Announcing arguments adds them to what is seen, and they can be spelt by `hargs`. -/
theorem announcing {args : List Value} (hargs : ∀ v ∈ args, v.Spellable) (h : KeepsSpelling x) :
    KeepsSpelling (.announcing args x) := fun σ hσ =>
  .after (List.forall_mem_singleton.2 hargs) (h σ hσ)

/-- Counting a step by `Watched.counted` shows nothing; the error of a limit that is exceeded has no
function in it. -/
theorem counted (limit : Option Nat) (h : KeepsSpelling x) :
    KeepsSpelling (.counted limit x) := fun σ hσ => by
  have htick : σ.tick.Holds Value.Spellable := hσ
  cases limit with
  | none => exact h σ.tick htick
  | some n =>
      show (if n < σ.steps + 1 then _ else _ : Report).Spellable
      split
      · exact .of_ended (.of_isError rfl) htick
      · exact h σ.tick htick

/-- What goes on from a value that can be spelt keeps to that if both parts do. The sequencing rule
that all composite expressions use; `next` need only keep to it from values that can be spelt. -/
theorem unlessSignal {next : Value → Watched} (h : KeepsSpelling x)
    (hnext : ∀ v, v.Spellable → KeepsSpelling (next v)) :
    KeepsSpelling (.unlessSignal x next) := fun σ hσ => by
  refine (h σ hσ).andThen fun v τ hv hτ => ?_
  split
  · exact .of_ended hv hτ
  · exact hnext v hv τ hτ

/-- Binding arguments goes through stores in which every function can be spelt. By induction along
`whileBinding`, one argument at a time. -/
theorem whileBinding {args : List Value} (hargs : ∀ v ∈ args, v.Spellable) (scope : ScopeId)
    (names : List String) {σ : Store} (hσ : σ.Holds Value.Spellable) :
    ∀ ρ ∈ σ.whileBinding scope names args, ρ.Holds Value.Spellable := by
  fun_induction Store.whileBinding σ scope names args with
  | case1 σ name names v vs ih =>
      obtain ⟨hv, hvs⟩ := List.forall_mem_cons.1 hargs
      have hbound := hσ.bind scope name hv
      exact List.forall_mem_cons.2 ⟨hbound, ih hvs hbound⟩
  | case2 =>
      intro ρ hρ
      cases hρ

/-- A call shows the stores in which its arguments are bound and then what its body shows, all of
which can be spelt. -/
theorem inScope (outer : ScopeId) (names : List String) {args : List Value}
    {body : ScopeId → Watched} (hargs : ∀ v ∈ args, v.Spellable)
    (h : ∀ frame, KeepsSpelling (body frame)) :
    KeepsSpelling (.inScope outer names args body) := fun σ hσ => by
  have hentered : (σ.addScope (some outer)).2.Holds Value.Spellable := hσ.addScope _
  refine .after (List.forall_mem_cons.2 ⟨hentered, List.forall_mem_map.2 ?_⟩) ?_
  · exact whileBinding hargs _ names hentered
  · exact (h _ _ (hentered.bindAll _ names hargs)).andThen fun v τ hv hτ =>
      .of_ended hv.settle hτ

/-! ### One level of evaluation -/

section Level

variable {limit : Option Nat} {eval : Evaluator}
variable (h : ∀ scope e, Expr.Spellable e → KeepsSpelling (eval scope e)) (scope : ScopeId)
include h

/-- A statement that can be spelt keeps to that: a binding stores the value of its expression and
nothing else, by `binding`, and a `return` only wraps it. -/
theorem statement {s : Statement} (hs : Statement.Spellable s) :
    KeepsSpelling (evalStatement limit eval scope s) := by
  refine observed (counted limit ?_)
  cases s with
  | binding name e => exact unlessSignal (h scope e hs.2) fun v hv => binding scope name hv
  | returning e => exact unlessSignal (h scope e hs) fun v hv => give hv.returned
  | expression e => exact h scope e hs

/-- Statements that can be spelt keep to that one after another. By induction on the block, with the
value `last` left free. -/
theorem blockFrom {b : Block} (hb : Statement.SpellableList b) {last : Value}
    (hlast : last.Spellable) : KeepsSpelling (evalBlockFrom limit eval scope last b) := by
  induction b generalizing last with
  | nil => exact give hlast
  | cons s rest ih => exact unlessSignal (statement h scope hb.1) fun v hv => ih hb.2 hv

/-- A block that can be spelt keeps to that: `blockFrom`, starting from `null`, which has no
function in it. -/
theorem block {b : Block} (hb : Statement.SpellableList b) :
    KeepsSpelling (evalBlock limit eval scope b) :=
  blockFrom h scope hb Value.Spellable.downwardClosed.null

/-- A loop over expressions that can be spelt keeps to that, if what it goes on with, `next`, does
from such values. By induction on the expressions. -/
theorem each {es : List Expr} (hes : Expr.SpellableList es) {next : List Value → Watched}
    (hnext : ∀ vs, (∀ v ∈ vs, v.Spellable) → KeepsSpelling (next vs)) :
    KeepsSpelling (evalEach eval scope es next) := by
  induction es generalizing next with
  | nil => exact hnext [] fun v hv => by cases hv
  | cons e es ih =>
      refine unlessSignal (h scope e hes.1) fun v hv => ih hes.2 fun vs hvs => ?_
      exact hnext (v :: vs) (List.forall_mem_cons.2 ⟨hv, hvs⟩)

/-- A loop over pairs that can be spelt keeps to that; the table in hand holds nothing else, by
`Table.mem_insert`. -/
theorem pairs {ps : List (Expr × Expr)} (hps : Expr.SpellablePairs ps) {table : Table Value}
    (htable : ∀ p ∈ table.pairs, p.1.Spellable ∧ p.2.Spellable) {next : Table Value → Watched}
    (hnext : ∀ t : Table Value, (∀ p ∈ t.pairs, p.1.Spellable ∧ p.2.Spellable) →
      KeepsSpelling (next t)) :
    KeepsSpelling (evalPairs eval scope table ps next) := by
  induction ps generalizing table with
  | nil => exact hnext table htable
  | cons p ps ih =>
      refine unlessSignal (h scope p.1 hps.1) fun key hkey => ?_
      cases key.hashKey? with
      | none => exact give (.of_isError rfl)
      | some slot =>
          refine unlessSignal (h scope p.2 hps.2.1) fun value hvalue => ih hps.2.2 fun q hq => ?_
          rcases Table.mem_insert hq with rfl | hq
          · exact ⟨hkey, hvalue⟩
          · exact htable q hq

/-- The body that is evaluated is that of a function that can be spelt, so a call keeps to that as
any `block` does, in the scope that `inScope` makes. -/
theorem apply {callee : Value} (hcallee : callee.Spellable) {args : List Value}
    (hargs : ∀ v ∈ args, v.Spellable) : KeepsSpelling (applyValue limit eval callee args) := by
  refine announcing hargs ?_
  cases callee with
  | function i f =>
      have hf : f.Spellable := hcallee i f .whole
      dsimp only
      split
      · exact inScope f.scope f.parameters hargs fun frame => block h frame hf.2
      · exact give (.of_isError rfl)
  | builtin b => exact builtin b hargs
  | _ => exact give (.of_isError rfl)

/-- An expression that can be spelt keeps to that. One case for each kind of `Expr`; a function
literal makes the one kind of function there is, with its own parameters and body. -/
theorem node {e : Expr} (he : Expr.Spellable e) : KeepsSpelling (evalNode limit eval scope e) := by
  have hsimple := Value.Spellable.downwardClosed
  refine observed (counted limit ?_)
  cases e with
  | identifier name => exact identifier scope name
  | integer n => exact give (hsimple.integer n)
  | boolean b => exact give (hsimple.boolean b)
  | string content => exact give (hsimple.string content)
  | array es =>
      exact each h scope he fun vs hvs => make (fun i => Value.Functions.array hvs i) fun _ => rfl
  | hash ps =>
      refine pairs h scope he ?_ fun t ht => make (fun i => Value.Functions.hash ht i) fun _ => rfl
      intro p hp
      cases hp
  | unary op e => exact unlessSignal (h scope e he) fun v _ => answer (hsimple.unary op v)
  | binary op e f =>
      refine unlessSignal (h scope e he.1) fun v _ => ?_
      exact unlessSignal (h scope f he.2) fun w _ => answer (hsimple.binary op v w)
  | conditional c b other =>
      refine unlessSignal (h scope c he.1) fun v _ => ?_
      split
      · exact block h scope he.2.1
      · cases other with
        | none => exact give hsimple.null
        | some alternative => exact block h scope he.2.2
  | function names body =>
      -- This is where functions come from.
      have hclosure : Closure.Spellable ⟨names, body, scope⟩ := he
      exact make (fun i => Value.Functions.function hclosure i) fun _ => rfl
  | call f es =>
      refine unlessSignal (h scope f he.1) fun callee hcallee => ?_
      exact each h scope he.2 fun args hargs => apply h hcallee hargs
  | index e i =>
      refine unlessSignal (h scope e he.1) fun v hv => ?_
      exact unlessSignal (h scope i he.2) fun w _ => answer (hsimple.index hv w)

end Level

/-! ### Runs -/

/-- An expression that can be spelt keeps to that at every depth. By induction on the depth, `node`
being the step. -/
theorem expr (limit : Option Nat) (depth : Nat) (scope : ScopeId) {e : Expr}
    (he : Expr.Spellable e) : KeepsSpelling (evalExpr limit depth scope e) := by
  induction depth generalizing scope e with
  | zero =>
      intro σ _
      constructor
      · intro s hs
        cases hs
      · intro v τ h
        cases h
  | succ depth ih => exact node (fun scope e he => ih scope he) scope he

end Watched.KeepsSpelling

/-- A run of a program that can be spelt shows no other functions, whatever store with such
functions it starts in. The block of the program keeps to that, by `KeepsSpelling.block`, and
`settle` only unwraps. -/
theorem Program.keepsSpelling {p : Program} (hp : Statement.SpellableList p.statements)
    (limit : Option Nat) (depth : Nat) (scope : ScopeId) :
    Watched.KeepsSpelling (p.watched limit depth scope) := fun σ hσ => by
  have hrewound : σ.rewind.Holds Value.Spellable := hσ
  have hblock : Watched.KeepsSpelling
      (Watched.evalBlock limit (Watched.evalExpr limit depth) scope p.statements) :=
    .block (fun scope e he => .expr limit depth scope he) scope hp
  exact (hblock _ hrewound).andThen fun v τ hv hτ => .of_ended hv.settle hτ

/-- A program that was read from a text can be spelt, by `Survey.spellable_ofText`. So literals in
texts make functions that can be spelt. -/
theorem Program.spellable_of_parse {text : String} {p : Program}
    (h : Program.parse text = .ok p) : Statement.SpellableList p.statements := by
  obtain ⟨-, hstatements⟩ := Program.parse_eq_ok_iff.1 h
  exact hstatements ▸ Survey.spellable_ofText text

/-! ### Programs read from texts -/

/-- `Transcript σ past`: from an empty store on scopes have been made, and texts that are programs
have been evaluated in any of them, with or without a limit. The last of these may still be going
on. The store is `σ` now, and `past` has been seen so far. -/
inductive Transcript : Store → List Sighting → Prop where
  | fresh : Transcript .empty []
  | scope {σ : Store} {past : List Sighting} (h : Transcript σ past) (outer : Option ScopeId) :
      Transcript (σ.addScope outer).2 past
  | ran {σ τ : Store} {past : List Sighting} {text : String} {p : Program} {limit : Option Nat}
      {depth : Nat} {scope : ScopeId} {v : Value} (h : Transcript σ past)
      (hparse : Program.parse text = .ok p) (hrun : p.run limit depth scope σ = some (v, τ)) :
      Transcript τ (past ++ (p.watched limit depth scope σ).seen ++ [.result v])
  | running {σ ρ : Store} {past before after : List Sighting} {text : String} {p : Program}
      {limit : Option Nat} {depth : Nat} {scope : ScopeId} (h : Transcript σ past)
      (hparse : Program.parse text = .ok p)
      (hseen : (p.watched limit depth scope σ).seen = before ++ .state ρ :: after) :
      Transcript ρ (past ++ before ++ [.state ρ])

/-- Every function that is met can be spelt. By induction on the `Transcript`: each text is a
program that can be spelt, and a run of it keeps to that, also when it is still going on. -/
theorem Transcript.spellable {σ : Store} {past : List Sighting} (h : Transcript σ past) :
    σ.Holds Value.Spellable ∧ ∀ s ∈ past, s.Spellable := by
  induction h with
  | fresh => exact ⟨Store.holds_empty, fun s hs => by cases hs⟩
  | scope _ outer ih => exact ⟨ih.1.addScope outer, ih.2⟩
  | @ran σ τ past text p limit depth scope v _ hparse hrun ih =>
      have hreport := Program.keepsSpelling (Program.spellable_of_parse hparse) limit depth scope
        σ ih.1
      obtain ⟨hv, hτ⟩ := hreport.ended v τ ((p.outcome_watched limit depth scope σ).trans hrun)
      refine ⟨hτ, List.forall_mem_append.2 ⟨List.forall_mem_append.2 ⟨ih.2, hreport.seen⟩, ?_⟩⟩
      exact List.forall_mem_singleton.2 hv
  -- The run is still going on: what has been seen of it so far is a part of its report.
  | @running σ ρ past before after text p limit depth scope _ hparse hseen ih =>
      have hreport := Program.keepsSpelling (Program.spellable_of_parse hparse) limit depth scope
        σ ih.1
      have hall := hreport.seen
      rw [hseen] at hall
      obtain ⟨hbefore, hrest⟩ := List.forall_mem_append.1 hall
      obtain ⟨hρ, -⟩ := List.forall_mem_cons.1 hrest
      refine ⟨hρ, List.forall_mem_append.2 ⟨List.forall_mem_append.2 ⟨ih.2, hbefore⟩, ?_⟩⟩
      exact List.forall_mem_singleton.2 hρ

/-! ### The text of a function -/

/-- A function is shown by the canonical text of its literal, so what is known of `Program.render`
applies to `inspect`. -/
theorem Closure.inspect_eq_render (i : Identity) (f : Closure) :
    (Value.function i f).inspect =
      (⟨[.expression (.function f.parameters f.body)]⟩ : Program).render := by
  rw [Program.render, Statement.renderList, String.intercalate_singleton, Statement.render,
    Expr.render, Value.inspect, Block.render]

/-- If a function can be spelt, the text it is shown by is its literal:
`Program.parse_render_of_spellable` for a program of one literal. -/
theorem Closure.Spellable.parse_inspect {f : Closure} (h : f.Spellable) (i : Identity) :
    Program.parse (Value.function i f).inspect =
      .ok ⟨[.expression (.function f.parameters f.body)]⟩ := by
  rw [Closure.inspect_eq_render]
  exact Program.parse_render_of_spellable ⟨h, trivial⟩

/-- A text that is a function literal evaluates to a function of the scope it is evaluated in, and
leaves the store `Untouched`. -/
theorem interpret_functionLiteral {text : String} {names : List String} {body : Block}
    (h : Program.parse text = .ok ⟨[.expression (.function names body)]⟩) (depth : Nat)
    (scope : ScopeId) (σ : Store) :
    ∃ τ, interpret (depth + 1) scope text σ =
        some (.ok (.function σ.identities ⟨names, body, scope⟩), τ) ∧ σ.Untouched τ := by
  -- The statement and the literal are a step each.
  refine ⟨σ.rewind.tick.tick.addIdentity.2, ?_, ⟨rfl, rfl⟩⟩
  rw [interpret_of_ok σ h]
  rfl

/-- Functions are shown as their own source. What is met can be spelt (`Transcript.spellable`), and
what can be spelt is read back from its text (`parse_inspect`) and evaluates to a function again
(`interpret_functionLiteral`).

Make scopes and evaluate texts that are programs in them, one after another and up to any moment.
Take any function that is met: bound in the store now, seen in any store on the way, passed, or
given as a result, be it by itself or inside arrays and hashes. Then the text by which it is shown
is a program of one statement, a function literal with the parameters and the body of the function.
Interpreting that text in any scope of any store, a fresh one among them, gives a function of that
scope with these parameters and this body, which is shown by the same text. -/
theorem Transcript.function_inspect {σ : Store} {past : List Sighting} (h : Transcript σ past)
    {i : Identity} {f : Closure} (hf : Met σ past (.function i f)) :
    let text := (Value.function i f).inspect
    Program.parse text = .ok ⟨[.expression (.function f.parameters f.body)]⟩ ∧
    ∀ (depth : Nat) (scope : ScopeId) (ρ : Store), ∃ τ,
      let g := Value.function ρ.identities ⟨f.parameters, f.body, scope⟩
      interpret (depth + 1) scope text ρ = some (.ok g, τ) ∧ g.inspect = text ∧
        τ.scopes = ρ.scopes ∧ τ.printed = ρ.printed := by
  intro text
  obtain ⟨hσ, hpast⟩ := h.spellable
  -- Whatever showed the function is one of the sightings of the transcript.
  have hspellable : f.Spellable := by
    obtain ⟨s, hs, hshows⟩ := hf
    have hall : ∀ s ∈ .state σ :: past, s.Spellable := List.forall_mem_cons.2 ⟨hσ, hpast⟩
    exact (hall s hs).of_shows hshows
  have hparse := hspellable.parse_inspect i
  refine ⟨hparse, fun depth scope ρ => ?_⟩
  obtain ⟨τ, hinterpret, hstore⟩ := interpret_functionLiteral hparse depth scope ρ
  refine ⟨τ, hinterpret, ?_, hstore.scopes, hstore.printed⟩
  -- The text of a function does not tell its identity, nor the scope it was made in.
  show (Value.function ρ.identities ⟨f.parameters, f.body, scope⟩).inspect =
    (Value.function i f).inspect
  rw [Closure.inspect_eq_render, Closure.inspect_eq_render]

/-- A function stands in an array that a program has ended with. Its text shows the operator that
binds more tightly in parentheses, and is read as the literal the function came from;
`function_inspect` says so of every such element. -/
theorem Transcript.function_inspect_of_element :
    let body : Block := [.returning (.binary .add (.identifier "x")
      (.binary .multiply (.identifier "y") (.identifier "y"))), .expression (.identifier "x")]
    let p : Program := ⟨[.expression (.array [.function ["x", "y"] body])]⟩
    let σ := (Store.empty.addScope none).2
    let τ : Store := ⟨#[⟨[], none⟩], 2, "", 3⟩
    let f : Closure := ⟨["x", "y"], body, 0⟩
    let past := (p.watched none 2 0 σ).seen ++ [.result (.array 1 [.function 0 f])]
    Transcript τ past ∧ Met τ past (.function 0 f) ∧
      (Value.function 0 f).inspect = "fn(x, y) \x7b return (x + (y * y)); x \x7d" ∧
      Program.parse (Value.function 0 f).inspect =
        .ok ⟨[.expression (.function f.parameters f.body)]⟩ := by
  intro body p σ τ f past
  have hx : IsIdentifier "x" := ⟨⟨'x', [], rfl, rfl⟩, List.all_eq_true.1 rfl, rfl⟩
  have hy : IsIdentifier "y" := ⟨⟨'y', [], rfl, rfl⟩, List.all_eq_true.1 rfl, rfl⟩
  have hspellable : Statement.SpellableList p.statements := by
    simp [p, body, Statement.SpellableList, Statement.Spellable, Expr.Spellable,
      Expr.SpellableList, hx, hy]
  have hparse : Program.parse p.render = .ok p := Program.parse_render_of_spellable hspellable
  have hrun : p.run none 2 0 σ = some (.array 1 [.function 0 f], τ) := rfl
  have htranscript : Transcript τ past := .ran (.scope .fresh none) hparse hrun
  -- The function is seen in the array that is the result of the program.
  have hmet : Met τ past (.function 0 f) :=
    ⟨.result (.array 1 [.function 0 f]),
      List.mem_cons_of_mem _ (List.mem_append_right _ (List.mem_singleton_self _)),
      .element List.mem_cons_self .whole⟩
  refine ⟨htranscript, hmet, ?_, (htranscript.function_inspect hmet).1⟩
  simp [f, body, Value.inspect, Block.render, Statement.renderBlock, Statement.renderList,
    Statement.render, Statement.closer, Expr.render, BinaryOp.text, BinaryOp.symbol, Symbol.text,
    String.intercalate_cons_cons]

end Monkey
